import MagnetoX.Host.ConfigFile.Autosave
import MagnetoX.Library.Run

/-!
Owns what is read back after `SAVE_CONFIG`. The new file is the regular text, the
header and the lines of the autosave data. The reader takes the first header it
finds and gives the autosave data up if a line of an older block stands before
it, so what was saved is found again exactly if the text before the new header
holds no such line.
-/

namespace MagnetoX.Host.ConfigFile

open Library.Lines Library.Run Library.Search List

theorem stripLine_eq (config : FileConfig) (place : Place) (line : Text) :
    (stripLine config place line).2 = line ∨ (stripLine config place line).2 = '#' :: line := by
  unfold stripLine
  split
  · exact .inl rfl
  · grind

theorem mem_stripLines {config : FileConfig} {place : Place} {lines : List Text} {line : Text}
    (member : line ∈ stripLines config place lines) :
    ∃ old ∈ lines, line = old ∨ line = '#' :: old := by
  induction lines generalizing place with
  | nil => cases member
  | cons first lines ih =>
    rw [stripLines, mem_cons] at member
    rcases member with rfl | member
    · exact ⟨first, .head _, stripLine_eq config place first⟩
    · obtain ⟨old, isOld, same⟩ := ih member
      exact ⟨old, .tail _ isOld, same⟩

variable {data regularData autosaveData : Text} {c : Char}

theorem mem_stripDuplicates {config : FileConfig} (member : c ∈ stripDuplicates data config) :
    c ∈ data ∨ c = '\n' ∨ c = '#' := by
  rcases mem_of_mem_intercalate member with isMark | ⟨line, isLine, member⟩
  · exact .inr (.inl isMark)
  · obtain ⟨old, isOld, rfl | rfl⟩ := mem_stripLines isLine
    · exact .inl (mem_of_mem_splitOn isOld member)
    · rcases mem_cons.mp member with isHash | member
      · exact .inr (.inr isHash)
      · exact .inl (mem_of_mem_splitOn isOld member)

theorem mark_prefix_header : autosaveMark <+: autosaveHeader :=
  ((prefix_append _ _).trans (prefix_append _ _)).trans (prefix_append _ _)

theorem rstrip_lastLine (front : Text) :
    rstrip isSpace (front ++ "#*#\n".toList) ++ ['\n'] = front ++ "#*#\n".toList := by
  have ends : rstrip isSpace "#*#\n".toList = "#*#".toList := by decide
  rw [rstrip_append, ends, if_neg (by decide), append_assoc]
  rfl

theorem rstrip_header : rstrip isSpace autosaveHeader ++ ['\n'] = autosaveHeader :=
  rstrip_lastLine _

theorem not_mem_header : '\r' ∉ autosaveHeader := by
  decide +kernel

theorem savedLine_eq (l : Text) : savedLine l =
    if rstrip isSpace l = [] then "#*#".toList else "#*# ".toList ++ rstrip isSpace l := by
  have kept : ("#*# ".toList ++ l).dropWhile isSpace = "#*# ".toList ++ l :=
    dropWhile_cons_of_neg (by decide)
  rw [savedLine, strip, kept, rstrip_append]
  rfl

theorem savedLine_head (l : Text) : ∃ rest, savedLine l = '#' :: rest := by
  rw [savedLine_eq]
  split
  · exact ⟨_, rfl⟩
  · exact ⟨_, rfl⟩

theorem rstrip_savedLine (l : Text) : rstrip isSpace (savedLine l) = savedLine l :=
  rstrip_rstrip _

theorem modified_savedLine (l : Text) : modified (savedLine l) = false := by
  rw [savedLine_eq]
  split
  · decide
  · simp [modified]

theorem drop_savedLine (l : Text) : (savedLine l).drop 4 = rstrip isSpace l := by
  rw [savedLine_eq]
  split
  · rename_i isBlank
    rw [isBlank]
    rfl
  · rfl

theorem not_mem_savedLine {l : Text} (other : c ∉ "#*# ".toList) (free : c ∉ rstrip isSpace l) :
    c ∉ savedLine l := by
  rw [savedLine_eq]
  split
  · exact fun member => other (mem_of_mem_take (i := 3) member)
  · exact fun member => (mem_append.mp member).elim other free

theorem autosaveBlock_eq (autosaveData : Text) : autosaveBlock autosaveData =
    '\n' :: (autosaveHeader ++ closed '\n' ((autosaveData.splitOn '\n').map savedLine)) := by
  rw [autosaveBlock, intercalate_concat, append_nil, closed_cons]
  conv_rhs => rw [← rstrip_header, append_assoc, singleton_append]
  rw [singleton_append, cons_append]

/-- What is read back of the autosave data: its lines without the white space at
their ends. -/
def autosaveText (autosaveData : Text) : Text :=
  ['\n'].intercalate ([[]] ++ (autosaveData.splitOn '\n').map (rstrip isSpace) ++ [[]])

theorem autosaveText_ne_nil (autosaveData : Text) : autosaveText autosaveData ≠ [] := by
  rw [autosaveText, intercalate_concat]
  simp

theorem strip_block (autosaveData : Text) :
    strip isSpace (closed '\n' ((autosaveData.splitOn '\n').map savedLine)) =
      ['\n'].intercalate ((autosaveData.splitOn '\n').map savedLine) := by
  obtain ⟨front, last, pieces⟩ := (eq_nil_or_concat' (autosaveData.splitOn '\n')).resolve_left
    (splitOn_ne_nil _ _)
  rw [pieces, map_append, map_singleton, intercalate_concat, closed_append]
  obtain ⟨rest, isLast⟩ := savedLine_head last
  have begins : (closed '\n' (front.map savedLine) ++ closed '\n' [savedLine last]).dropWhile isSpace =
      closed '\n' (front.map savedLine) ++ closed '\n' [savedLine last] := by
    cases front with
    | nil => rw [isLast]; rfl
    | cons first front =>
      obtain ⟨rest, isFirst⟩ := savedLine_head first
      rw [map_cons, isFirst]
      rfl
  have ends : closed '\n' [savedLine last] = savedLine last ++ ['\n'] := by simp
  have blank : rstrip isSpace ['\n'] = [] := by decide
  rw [strip, begins, ends, ← append_assoc, rstrip_append, if_pos blank, rstrip_append,
    rstrip_savedLine, if_neg (by simp [isLast])]

theorem unbroken_savedLines (autosaveData : Text) :
    Unbroken '\n' ((autosaveData.splitOn '\n').map savedLine) := by
  intro line member
  obtain ⟨l, isPiece, rfl⟩ := mem_map.mp member
  exact not_mem_savedLine (by decide)
    (fun inLine => unbroken_splitOn _ _ l isPiece ((rstrip_isPrefix l).subset inLine))

/-- No header starts before the one that was written. -/
theorem cut_header {block : Text} (free : ¬ autosaveMark <:+: regularData) :
    cut autosaveHeader ((regularData ++ ['\n']) ++ (autosaveHeader ++ block)) =
      some (regularData ++ ['\n'], block) := by
  refine cut_append ?_
  intro front back same notNil begins
  have marked : autosaveMark <+: back ++ (autosaveHeader ++ block) := mark_prefix_header.trans begins
  obtain ⟨inside, rfl, isRegular⟩ : ∃ inside, back = inside ++ ['\n'] ∧ regularData = front ++ inside := by
    obtain rfl | ⟨inside, last, rfl⟩ := eq_nil_or_concat' back
    · exact absurd rfl notNil
    · rw [← append_assoc] at same
      obtain ⟨isRegular, isLast⟩ := append_inj' same rfl
      exact ⟨inside, by rw [← singleton_inj.mp isLast], isRegular⟩
  have isMark : autosaveMark = ['\n', '#', '*', '#', ' '] := by decide
  obtain ⟨tail, isHeader⟩ : ∃ tail, autosaveHeader ++ block = '\n' :: tail := by
    obtain ⟨rest, isHeader⟩ := mark_prefix_header
    rw [← isHeader, isMark]
    exact ⟨_, rfl⟩
  rw [isMark, isHeader, append_assoc, singleton_append] at marked
  -- a mark has a newline only at its start, and the newline before the header is followed by another
  rcases inside with _ | ⟨a, _ | ⟨b, _ | ⟨c, _ | ⟨d, _ | ⟨e, more⟩⟩⟩⟩⟩
  · simp [cons_prefix_cons] at marked
  · simp [cons_prefix_cons] at marked
  · simp [cons_prefix_cons] at marked
  · simp [cons_prefix_cons] at marked
  · simp [cons_prefix_cons] at marked
  · apply free
    simp only [cons_append, cons_prefix_cons] at marked
    obtain ⟨rfl, rfl, rfl, rfl, rfl, -⟩ := marked
    exact ⟨front, more, by rw [isRegular, isMark]; simp⟩

theorem findAutosaveData_saved (free : ¬ autosaveMark <:+: regularData) (autosaveData : Text) :
    findAutosaveData (regularData ++ autosaveBlock autosaveData) =
      (regularData ++ ['\n'], autosaveText autosaveData) := by
  have lines := strip_block autosaveData
  have found : atHeader (regularData ++ autosaveBlock autosaveData) = (regularData ++ ['\n'],
      ['\n'].intercalate ((autosaveData.splitOn '\n').map savedLine)) := by
    rw [atHeader, autosaveBlock_eq, append_cons, cut_header free, ← lines]
  have pieces : (['\n'].intercalate ((autosaveData.splitOn '\n').map savedLine)).splitOn '\n' =
      (autosaveData.splitOn '\n').map savedLine :=
    splitOn_intercalate _ (unbroken_savedLines autosaveData) (by simp [splitOn_ne_nil])
  have clear : occurs autosaveMark (regularData ++ ['\n']) = false := by
    rw [Bool.eq_false_iff, ne_eq, occurs_iff]
    intro isInfix
    rcases infix_concat_iff.mp isInfix with isSuffix | isInfix
    · rcases suffix_concat_iff.mp isSuffix with isNil | ⟨front, ends, -⟩
      · exact absurd isNil (by decide)
      · have lastChar := congrArg getLast? ends
        rw [getLast?_concat] at lastChar
        exact absurd lastChar (by decide)
    · exact free isInfix
  have unmodified : ((autosaveData.splitOn '\n').map savedLine).any modified = false := by
    simp [modified_savedLine]
  rw [findAutosaveData, found]
  simp only [clear, pieces, unmodified, autosaveText]
  simp [Function.comp_def, drop_savedLine]

theorem atHeader_prefix (data : Text) : (atHeader data).1 <+: data := by
  rw [atHeader]
  split
  · rename_i before after found
    exact ⟨autosaveHeader ++ after, (eq_of_cut found).symm⟩
  · exact prefix_rfl

theorem findAutosaveData_isPrefix (data : Text) : (findAutosaveData data).1 <+: data := by
  simp only [findAutosaveData]
  split
  · exact prefix_rfl
  · split
    · exact prefix_rfl
    · exact atHeader_prefix data

/-- Autosave data that is not empty was accepted. -/
theorem not_infix_of_findAutosaveData
    (found : findAutosaveData data = (regularData, autosaveData)) (accepted : autosaveData ≠ []) :
    ¬ autosaveMark <:+: regularData := by
  simp only [findAutosaveData] at found
  split at found
  · cases found
    exact absurd rfl accepted
  · rename_i clear
    split at found
    · cases found
      exact absurd rfl accepted
    · cases found
      exact fun isInfix => clear (occurs_iff.mpr isInfix)

theorem mem_of_mem_atHeader (member : c ∈ (atHeader data).2) : c ∈ data := by
  rw [atHeader] at member
  split at member
  · rename_i before after found
    rw [eq_of_cut found]
    have inAfter : c ∈ after :=
      (dropWhile_sublist _).subset ((rstrip_isPrefix _).subset member)
    simp [inAfter]
  · cases member

theorem mem_of_mem_findAutosaveData (member : c ∈ (findAutosaveData data).2) :
    c ∈ data ∨ c = '\n' := by
  simp only [findAutosaveData] at member
  split at member
  · cases member
  · split at member
    · cases member
    · rcases mem_of_mem_intercalate member with isMark | ⟨line, isLine, member⟩
      · exact .inr isMark
      · simp only [mem_append, mem_singleton, mem_map] at isLine
        obtain (rfl | ⟨old, isOld, rfl⟩) | rfl := isLine
        · cases member
        · exact .inl (mem_of_mem_atHeader (mem_of_mem_splitOn isOld (mem_of_mem_drop member)))
        · cases member

theorem backupNames_ne (cfgname stamp : Text) :
    (backupNames cfgname stamp).2 ≠ cfgname ∧
      (backupNames cfgname stamp).2 ≠ (backupNames cfgname stamp).1 := by
  unfold backupNames
  split
  · rename_i isCfg
    constructor
    · intro same
      have lengths := congrArg length same
      simp at lengths
      omega
    · simp
  · simp

theorem swapConfig_cfgname (files : Files) (cfgname stamp data : Text) :
    swapConfig files cfgname stamp data cfgname = some data := by
  obtain ⟨notConfig, notBackup⟩ := backupNames_ne cfgname stamp
  simp [swapConfig, Files.rename, Files.set, notConfig, notBackup, notConfig.symm]

theorem savedData_ok {build : Text → Option FileConfig} {autosave : FileConfig} {new : Text}
    (saves : savedData build autosave data = .ok new) :
    new = rstrip isSpace (stripDuplicates (findAutosaveData data).1 autosave) ++
      autosaveBlock (buildConfigString autosave) := by
  simp only [savedData] at saves
  split at saves
  · cases saves
  · split at saves
    · cases saves
    · split at saves
      · cases saves
      · exact (Except.ok.inj saves).symm

def regularText (autosave : FileConfig) (file : Text) : Text :=
  rstrip isSpace (stripDuplicates (findAutosaveData (readConfigFile file)).1 autosave)

theorem not_mem_regularText (autosave : FileConfig) (file : Text) :
    '\r' ∉ regularText autosave file := by
  intro member
  rcases mem_stripDuplicates ((rstrip_isPrefix _).subset member) with member | isMark | isHash
  · exact not_mem_readConfigFile file ((findAutosaveData_isPrefix _).subset member)
  · exact absurd isMark (by decide)
  · exact absurd isHash (by decide)

theorem not_mem_saved (free : '\r' ∉ regularData)
    (clean : ∀ line ∈ autosaveData.splitOn '\n', '\r' ∉ rstrip isSpace line) :
    '\r' ∉ regularData ++ autosaveBlock autosaveData := by
  have lines : ∀ c ∈ closed '\n' ((autosaveData.splitOn '\n').map savedLine), c ≠ '\r' := by
    rw [forall_mem_closed (by decide)]
    intro line isLine c member isReturn
    obtain ⟨l, isPiece, rfl⟩ := mem_map.mp isLine
    rw [isReturn] at member
    exact not_mem_savedLine (by decide) (clean l isPiece) member
  rw [autosaveBlock_eq]
  intro member
  rcases mem_append.mp member with member | member
  · exact free member
  · rcases mem_cons.mp member with isMark | member
    · exact absurd isMark (by decide)
    · rcases mem_append.mp member with member | member
      · exact not_mem_header member
      · exact lines _ member rfl

/-- `SAVE_CONFIG` writes a file from which the lines of the autosave data and the
regular text are read back, exactly if no line of an autosave block is left in
the regular text and no saved line holds a carriage return. A block that was
edited by hand after its header is left where it is: the next start finds its
header first and gives up the values that were just saved. -/
theorem save_config_roundTrip_iff {build : Text → Option FileConfig} {autosave : FileConfig}
    {files saved : Files} {cfgname stamp file : Text} (sections : autosave.sections ≠ [])
    (isFile : files cfgname = some file)
    (saves : cmdSaveConfig build autosave files cfgname stamp = .ok saved) :
    ∃ new, saved cfgname = some new ∧
      ((∃ regularData, findAutosaveData (readConfigFile new) =
            (regularData, autosaveText (buildConfigString autosave)) ∧
          rstrip isSpace regularData = regularText autosave file) ↔
        ¬ autosaveMark <:+: regularText autosave file ∧
          ∀ line ∈ (buildConfigString autosave).splitOn '\n', '\r' ∉ rstrip isSpace line) := by
  rw [cmdSaveConfig, if_neg sections, isFile] at saves
  obtain ⟨new, savesData, rfl⟩ := map_eq_ok saves
  refine ⟨new, swapConfig_cfgname files cfgname stamp new, ?_⟩
  have isNew : new = regularText autosave file ++ autosaveBlock (buildConfigString autosave) :=
    savedData_ok savesData
  have unchanged (clean : ∀ line ∈ (buildConfigString autosave).splitOn '\n', '\r' ∉ rstrip isSpace line) :
      readConfigFile new = new := by
    apply readConfigFile_of_not_mem
    rw [isNew]
    exact not_mem_saved (not_mem_regularText autosave file) clean
  constructor
  · rintro ⟨regularData, found, same⟩
    have clean : ∀ line ∈ (buildConfigString autosave).splitOn '\n', '\r' ∉ rstrip isSpace line := by
      intro line isLine member
      have kept : '\r' ∈ (findAutosaveData (readConfigFile new)).2 := by
        rw [found]
        exact mem_intercalate_of_mem
          (mem_append_left _ (mem_append_right _ (mem_map_of_mem isLine))) member
      rcases mem_of_mem_findAutosaveData kept with member | isMark
      · exact not_mem_readConfigFile new member
      · exact absurd isMark (by decide)
    refine ⟨?_, clean⟩
    have accepted := not_infix_of_findAutosaveData found (autosaveText_ne_nil _)
    rw [← same]
    exact fun isInfix => accepted (isInfix.trans (rstrip_isPrefix _).isInfix)
  · rintro ⟨free, clean⟩
    refine ⟨regularText autosave file ++ ['\n'], ?_, ?_⟩
    · rw [unchanged clean, isNew, findAutosaveData_saved free]
    · rw [rstrip_append, if_pos (by decide), regularText, rstrip_rstrip]

def extruderText : Text := "[extruder]\npid_kp: 20\n".toList

def extruderConfig (text : Text) : Option FileConfig :=
  if text = extruderText then some ⟨[], [("extruder".toList, [("pid_kp".toList, "20".toList)])]⟩
  else if text = "[extruder]\n#pid_kp: 20\n".toList then some ⟨[], [("extruder".toList, [])]⟩
  else none

def tunedExtruder : FileConfig := ⟨[], [("extruder".toList, [("pid_kp".toList, "21.5".toList)])]⟩

/-- A value that was in the config file is saved. -/
theorem save_config_roundTrip_value :
    ∃ saved new, cmdSaveConfig extruderConfig tunedExtruder (fun _ => some extruderText) "p.cfg".toList [] =
        .ok saved ∧
      saved "p.cfg".toList = some new ∧
      ∃ regularData, findAutosaveData (readConfigFile new) =
          (regularData, "\n[extruder]\npid_kp = 21.5\n".toList) ∧
        rstrip isSpace regularData = "[extruder]\n#pid_kp: 20".toList := by
  obtain ⟨saved, saves⟩ : ∃ saved, cmdSaveConfig extruderConfig tunedExtruder (fun _ => some extruderText)
      "p.cfg".toList [] = .ok saved := ⟨_, rfl⟩
  obtain ⟨new, isNew, roundTrip⟩ := @save_config_roundTrip_iff _ _ (fun _ => some extruderText) saved
    "p.cfg".toList [] _ (cons_ne_nil _ _) rfl saves
  obtain ⟨regularData, found, same⟩ := roundTrip.mpr
    ⟨by rw [← occurs_iff]; decide +kernel, by decide +kernel⟩
  refine ⟨saved, new, saves, isNew, regularData, found.trans ?_, same.trans ?_⟩
  · rw [Prod.mk.injEq]
    exact ⟨rfl, by decide +kernel⟩
  · decide +kernel

/-- A section was added by hand below the autosave block. `SAVE_CONFIG` succeeds,
and nothing that it saved is read back. -/
theorem save_config_after_edit :
    ∃ file saved new, file = "[printer]\nkinematics: none\n".toList ++ autosaveHeader ++
        "#*# [extruder]\n#*# pid_kp = 20\n\n[gcode_macro A]\ngcode: M84\n".toList ∧
      cmdSaveConfig (fun _ => some ⟨[], [("printer".toList, [("kinematics".toList, "none".toList)]),
          ("gcode_macro A".toList, [("gcode".toList, "M84".toList)])]⟩)
        tunedExtruder (fun _ => some file) "p.cfg".toList [] = .ok saved ∧
      saved "p.cfg".toList = some new ∧ findAutosaveData (readConfigFile new) = (new, []) := by
  refine ⟨_, _, _, rfl, rfl, swapConfig_cfgname _ _ _ _, ?_⟩
  decide +kernel

end MagnetoX.Host.ConfigFile
