import MagnetoX.Host.ConfigFile.SaveConfig
import MagnetoX.Library.CrashLogic

/-!
Owns the system calls of `SAVE_CONFIG` and what they leave under the name of the
config file when one of them fails or the command stops between two of them. The new
text is complete under another name before the config file is touched; the config
file is then renamed away before the new text gets its name.
-/

namespace MagnetoX.Host.ConfigFile

open Library.CrashLogic List

/-- The calls on files. A `write` of Python may take several calls. -/
inductive FileCall where
  | read (name : Text)
  | create (name : Text)
  | write (name text : Text)
  | close (name : Text)
  | rename (source target : Text)

/-- What a call that passes returns and does; `none` if it cannot pass. -/
def FileCall.effect (files : Files) : FileCall → Option (Text × Files)
  | .read name => (files name).map (fun text => (text, files))
  | .create name => some ([], files.set name (some []))
  | .write name text => (files name).map (fun written => ([], files.set name (some (written ++ text))))
  | .close _ => some ([], files)
  | .rename source target => (files source).map (fun _ => ([], files.rename source target))

/-- The environment lets a call pass or fail; a call that fails has no effect. -/
inductive Fate where
  | passes
  | fails
deriving DecidableEq, Repr

/-- A call that fails raises an exception, for which `none` stands. -/
def fileStep : Step (fun _ : FileCall => Option Text) Fate Files
  | _, .fails, files => (some none, files)
  | call, .passes, files =>
      match call.effect files with
      | some (answer, after) => (some (some answer), after)
      | none => (some none, files)

abbrev FileProg := Prog (fun _ : FileCall => Option Text) (Except String Unit)

/-- The body of the `try` statement, call by call. -/
def attempts : List FileCall → FileProg
  | [] => .ret (.ok ())
  | call :: calls => .call call (fun
      | none => .ret (.error "Unable to write config file during SAVE_CONFIG")
      | some _ => attempts calls)

def writeCalls (tempName : Text) (chunks : List Text) : List FileCall :=
  .create tempName :: chunks.map (.write tempName) ++ [.close tempName]

def swapCalls (cfgname stamp : Text) (chunks : List Text) : List FileCall :=
  writeCalls (backupNames cfgname stamp).2 chunks ++
    [.rename cfgname (backupNames cfgname stamp).1, .rename (backupNames cfgname stamp).2 cfgname]

/-- `SAVE_CONFIG`; `chunk` cuts the text into what one call writes. -/
def saveConfig (build : Text → Option FileConfig) (autosave : FileConfig) (chunk : Text → List Text)
    (cfgname stamp : Text) : FileProg :=
  if autosave.sections = [] then .ret (.ok ())
  else .call (.read cfgname) (fun
    | none => .ret (.error "Unable to parse existing config on SAVE_CONFIG")
    | some file =>
        match savedData build autosave (readConfigFile file) with
        | .error message => .ret (.error message)
        | .ok data => attempts (swapCalls cfgname stamp (chunk data)))

def applied (files : Files) (calls : List FileCall) : Files :=
  calls.foldl (fun files call => ((call.effect files).map Prod.snd).getD files) files

def CanPass : Files → List FileCall → Prop
  | _, [] => True
  | files, call :: calls => ∃ answer after, call.effect files = some (answer, after) ∧ CanPass after calls

/-- The number of calls that pass before one fails or the command stops. -/
def passing (fates : List Fate) : Nat := (fates.takeWhile (· = .passes)).length

section Calls

variable {files : Files} {calls : List FileCall}

theorem applied_cons {call : FileCall} {answer : Text} {after : Files}
    (effect : call.effect files = some (answer, after)) : applied files (call :: calls) = applied after calls := by
  rw [applied, foldl_cons, effect]
  rfl

theorem applied_append (files : Files) (front back : List FileCall) :
    applied files (front ++ back) = applied (applied files front) back := List.foldl_append

/-- The calls have an effect up to the first one that does not pass. -/
theorem run_attempts (canPass : CanPass files calls) (fates : List Fate) :
    ((attempts calls).run fileStep fates files).state = applied files (calls.take (passing fates)) := by
  induction calls generalizing files fates with
  | nil => simp [attempts, Prog.run, Ending.state, applied]
  | cons call calls ih =>
    obtain ⟨answer, after, effect, rest⟩ := canPass
    cases fates with
    | nil => rfl
    | cons fate fates =>
      cases fate with
      | fails => rfl
      | passes =>
        have count : passing (.passes :: fates) = passing fates + 1 := by simp [passing]
        rw [attempts, Prog.run, fileStep, effect, count, take_succ_cons, applied_cons effect]
        exact ih rest fates

theorem canPass_append {front back : List FileCall} (first : CanPass files front)
    (second : CanPass (applied files front) back) : CanPass files (front ++ back) := by
  induction front generalizing files with
  | nil => exact second
  | cons call front ih =>
    obtain ⟨answer, after, effect, rest⟩ := first
    rw [applied_cons effect] at second
    exact ⟨answer, after, effect, ih rest second⟩

end Calls

section Swap

variable {files : Files} {cfgname stamp tempName other : Text} {chunks : List Text}

theorem set_self (files : Files) (name : Text) (contents : Option Text) : files.set name contents name = contents :=
  if_pos rfl

theorem set_of_ne (files : Files) {name : Text} (contents : Option Text) (differs : other ≠ name) :
    files.set name contents other = files other := if_neg differs

theorem set_set (files : Files) (name : Text) (first second : Option Text) :
    (files.set name first).set name second = files.set name second := by
  funext other
  unfold Files.set
  split
  · rfl
  · rfl

open FileCall

theorem applied_writes (chunks : List Text) (written : Text) (present : files tempName = some written) :
    CanPass files (chunks.map (.write tempName)) ∧
      applied files (chunks.map (.write tempName)) = files.set tempName (some (written ++ chunks.flatten)) := by
  induction chunks generalizing files written with
  | nil =>
    refine ⟨trivial, ?_⟩
    funext other
    rw [flatten_nil, append_nil]
    by_cases same : other = tempName
    · rw [same, set_self]
      exact present
    · rw [set_of_ne _ _ same]
      rfl
  | cons text chunks ih =>
    have effect : (write tempName text).effect files =
        some ([], files.set tempName (some (written ++ text))) := by
      rw [effect, present]
      rfl
    obtain ⟨canPass, result⟩ := ih (written ++ text) (set_self files tempName _)
    refine ⟨⟨_, _, effect, canPass⟩, ?_⟩
    rw [map_cons, applied_cons effect, result, set_set, flatten_cons, append_assoc]

theorem applied_writeCalls (files : Files) (tempName : Text) (chunks : List Text) :
    CanPass files (writeCalls tempName chunks) ∧
      applied files (writeCalls tempName chunks) = files.set tempName (some chunks.flatten) := by
  obtain ⟨canPass, result⟩ := applied_writes chunks [] (set_self files tempName (some []))
  rw [set_set, nil_append] at result
  constructor
  · exact ⟨_, _, rfl, canPass_append canPass ⟨_, _, rfl, trivial⟩⟩
  · rw [writeCalls, applied_append]
    exact result

inductive OnTemp (tempName : Text) : FileCall → Prop where
  | create : OnTemp tempName (.create tempName)
  | write (text : Text) : OnTemp tempName (.write tempName text)
  | close : OnTemp tempName (.close tempName)

theorem onTemp_writeCalls : ∀ call ∈ writeCalls tempName chunks, OnTemp tempName call := by
  intro call isCall
  rcases mem_append.mp isCall with before | isLast
  · rcases mem_cons.mp before with rfl | isWrite
    · exact .create
    · obtain ⟨text, -, rfl⟩ := mem_map.mp isWrite
      exact .write text
  · rw [mem_singleton.mp isLast]
    exact .close

theorem applied_onTemp {calls : List FileCall} (onTemp : ∀ call ∈ calls, OnTemp tempName call)
    (differs : other ≠ tempName) : applied files calls other = files other := by
  induction calls generalizing files with
  | nil => rfl
  | cons call calls ih =>
    rw [forall_mem_cons] at onTemp
    rw [applied, foldl_cons]
    refine (ih onTemp.2).trans ?_
    cases onTemp.1 with
    | create => exact set_of_ne files _ differs
    | write text =>
      rw [effect]
      cases files tempName with
      | none => rfl
      | some written => exact set_of_ne files _ differs
    | close => rfl

theorem backupNames_ne_cfgname (cfgname stamp : Text) : (backupNames cfgname stamp).1 ≠ cfgname := by
  unfold backupNames
  split
  · rename_i isCfg
    intro same
    have lengths := congrArg length same
    simp at lengths
    omega
  · simp

theorem rename_source (files : Files) {source target : Text} (differs : source ≠ target) :
    files.rename source target source = none := by
  rw [Files.rename, set_self, if_neg differs]

theorem rename_of_ne (files : Files) {source target : Text} (notSource : other ≠ source)
    (notTarget : other ≠ target) : files.rename source target other = files other := by
  rw [Files.rename, set_of_ne _ _ notSource, set_of_ne _ _ notTarget]

def renamedAway (files : Files) (cfgname stamp data : Text) : Files :=
  (files.set (backupNames cfgname stamp).2 (some data)).rename cfgname (backupNames cfgname stamp).1

variable {old : Text}

theorem rename_cfgname_effect (present : files cfgname = some old) (data : Text) :
    (rename cfgname (backupNames cfgname stamp).1).effect
      (files.set (backupNames cfgname stamp).2 (some data)) = some ([], renamedAway files cfgname stamp data) := by
  rw [effect, set_of_ne _ _ (backupNames_ne cfgname stamp).1.symm, present]
  rfl

theorem rename_tempName_effect (files : Files) (cfgname stamp data : Text) :
    (rename (backupNames cfgname stamp).2 cfgname).effect (renamedAway files cfgname stamp data) =
      some ([], swapConfig files cfgname stamp data) := by
  obtain ⟨notConfig, notBackup⟩ := backupNames_ne cfgname stamp
  rw [effect, renamedAway, rename_of_ne _ notConfig notBackup, set_self]
  rfl

theorem canPass_swapCalls (present : files cfgname = some old) : CanPass files (swapCalls cfgname stamp chunks) := by
  obtain ⟨canPass, result⟩ := applied_writeCalls files (backupNames cfgname stamp).2 chunks
  refine canPass_append canPass ?_
  rw [result]
  exact ⟨_, _, rename_cfgname_effect present _, _, _, rename_tempName_effect files cfgname stamp _, trivial⟩

theorem length_writeCalls : (writeCalls tempName chunks).length = chunks.length + 2 := by
  simp [writeCalls]

theorem length_swapCalls : (swapCalls cfgname stamp chunks).length = chunks.length + 4 := by
  simp [swapCalls, length_writeCalls]

theorem applied_swapCalls_all (present : files cfgname = some old) :
    applied files (swapCalls cfgname stamp chunks) = swapConfig files cfgname stamp chunks.flatten := by
  obtain ⟨-, written⟩ := applied_writeCalls files (backupNames cfgname stamp).2 chunks
  rw [swapCalls, applied_append, written, applied_cons (rename_cfgname_effect present _),
    applied_cons (rename_tempName_effect files cfgname stamp _)]
  rfl

theorem applied_swapCalls (present : files cfgname = some old) (count : Nat) :
    applied files ((swapCalls cfgname stamp chunks).take count) cfgname =
      if count ≤ chunks.length + 2 then some old
      else if count = chunks.length + 3 then none
      else some chunks.flatten := by
  obtain ⟨-, written⟩ := applied_writeCalls files (backupNames cfgname stamp).2 chunks
  have length : (writeCalls (backupNames cfgname stamp).2 chunks).length = chunks.length + 2 := length_writeCalls
  split
  · rename_i early
    rw [swapCalls, take_append_of_le_length (by omega), ← present]
    refine applied_onTemp (fun call isCall => ?_) (backupNames_ne cfgname stamp).1.symm
    exact onTemp_writeCalls call (mem_of_mem_take isCall)
  · split
    · rename_i isWindow
      rw [isWindow, swapCalls, take_append, take_of_length_le (by omega), length,
        show chunks.length + 3 - (chunks.length + 2) = 1 by omega, applied_append, written, take_succ_cons,
        take_zero, applied_cons (rename_cfgname_effect present _)]
      exact rename_source _ (backupNames_ne_cfgname cfgname stamp).symm
    · rw [take_of_length_le (by rw [length_swapCalls]; omega), applied_swapCalls_all present]
      exact swapConfig_cfgname files cfgname stamp chunks.flatten

end Swap

section Command

variable {build : Text → Option FileConfig} {autosave : FileConfig} {chunk : Text → List Text} {files : Files}
  {cfgname stamp old : Text}

def Complete (build : Text → Option FileConfig) (autosave : FileConfig) (old : Text) (contents : Option Text) : Prop :=
  contents = some old ∨ ∃ data, savedData build autosave (readConfigFile old) = .ok data ∧ contents = some data

/-- The first rename was the last call that passed. -/
def BetweenRenames (build : Text → Option FileConfig) (autosave : FileConfig) (chunk : Text → List Text)
    (old : Text) (fates : List Fate) : Prop :=
  autosave.sections ≠ [] ∧ ∃ data, savedData build autosave (readConfigFile old) = .ok data ∧
    passing fates = (chunk data).length + 4

theorem saveConfig_state (present : files cfgname = some old) (fates : List Fate) :
    (((saveConfig build autosave chunk cfgname stamp).run fileStep fates files).state = files ∧
        ¬ BetweenRenames build autosave chunk old fates) ∨
      ∃ data, autosave.sections ≠ [] ∧ savedData build autosave (readConfigFile old) = .ok data ∧
        ((saveConfig build autosave chunk cfgname stamp).run fileStep fates files).state =
          applied files ((swapCalls cfgname stamp (chunk data)).take (passing fates - 1)) := by
  unfold saveConfig
  split
  · rename_i nothing
    exact .inl ⟨rfl, fun between => between.1 nothing⟩
  · rename_i sections
    cases fates with
    | nil =>
      refine .inl ⟨rfl, ?_⟩
      rintro ⟨-, data, -, count⟩
      cases count
    | cons fate fates =>
      cases fate with
      | fails =>
        refine .inl ⟨rfl, ?_⟩
        rintro ⟨-, data, -, count⟩
        cases count
      | passes =>
        have effect : (FileCall.read cfgname).effect files = some (old, files) := by
          rw [FileCall.effect, present]
          rfl
        have passed : passing (.passes :: fates) = passing fates + 1 := by simp [passing]
        rw [Prog.run, fileStep, effect]
        cases saves : savedData build autosave (readConfigFile old) with
        | error message =>
          refine .inl ⟨?_, ?_⟩
          · dsimp only
            rw [saves]
            rfl
          · rintro ⟨-, data, isData, -⟩
            cases saves.symm.trans isData
        | ok data =>
          refine .inr ⟨data, sections, rfl, ?_⟩
          dsimp only
          rw [saves, passed, Nat.add_sub_cancel]
          exact run_attempts (canPass_swapCalls present) fates

/-- **The config file at every point.** Wherever a call of `SAVE_CONFIG` fails or the
command stops, the name of the config file holds the complete old or new text, except
between the two renames. -/
theorem config_complete_iff (present : files cfgname = some old) (whole : ∀ data, (chunk data).flatten = data)
    (fates : List Fate) :
    Complete build autosave old
        (((saveConfig build autosave chunk cfgname stamp).run fileStep fates files).state cfgname) ↔
      ¬ BetweenRenames build autosave chunk old fates := by
  rcases saveConfig_state present fates with ⟨stays, outside⟩ | ⟨data, sections, saves, state⟩
  · rw [stays]
    exact iff_of_true (.inl present) outside
  · rw [state, applied_swapCalls present]
    split
    · rename_i early
      refine iff_of_true (.inl rfl) ?_
      rintro ⟨-, other, isOther, count⟩
      cases saves.symm.trans isOther
      omega
    · rename_i late
      split
      · rename_i isWindow
        refine iff_of_false ?_ (not_not_intro ⟨sections, data, saves, by omega⟩)
        rintro (isOld | ⟨_, _, isNew⟩)
        · cases isOld
        · cases isNew
      · rename_i ends
        refine iff_of_true (.inr ⟨data, saves, by rw [whole]⟩) ?_
        rintro ⟨-, other, isOther, count⟩
        cases saves.symm.trans isOther
        omega

/-- If every call passes, the files are those of the command as a whole. -/
theorem saveConfig_passes (present : files cfgname = some old) (whole : ∀ data, (chunk data).flatten = data)
    {data : Text} (sections : autosave.sections ≠ [])
    (saves : savedData build autosave (readConfigFile old) = .ok data) {fates : List Fate}
    (enough : (chunk data).length + 5 ≤ passing fates) :
    cmdSaveConfig build autosave files cfgname stamp =
      .ok ((saveConfig build autosave chunk cfgname stamp).run fileStep fates files).state := by
  have command : cmdSaveConfig build autosave files cfgname stamp = .ok (swapConfig files cfgname stamp data) := by
    rw [cmdSaveConfig, if_neg sections, present]
    dsimp only
    rw [saves]
    rfl
  obtain ⟨rest, rfl, all⟩ : ∃ rest, fates = .passes :: rest ∧ (chunk data).length + 4 ≤ passing rest := by
    cases fates with
    | nil => cases enough
    | cons fate rest =>
      cases fate with
      | fails => cases enough
      | passes =>
        exact ⟨rest, rfl, Nat.le_of_succ_le_succ enough⟩
  have stepwise : (saveConfig build autosave chunk cfgname stamp).run fileStep (.passes :: rest) files =
      (attempts (swapCalls cfgname stamp (chunk data))).run fileStep rest files := by
    rw [saveConfig, if_neg sections, Prog.run, fileStep, FileCall.effect, present]
    dsimp only [Option.map]
    rw [saves]
  rw [command, stepwise, run_attempts (canPass_swapCalls present),
    take_of_length_le (by rw [length_swapCalls]; exact all), applied_swapCalls_all present, whole]

end Command

def oneFile : Files := fun name => if name = "p".toList then some extruderText else none

/-- All calls pass: the new text is in place. -/
theorem config_complete_passes :
    oneFile "p".toList = some extruderText ∧
      Complete extruderConfig tunedExtruder extruderText
        (((saveConfig extruderConfig tunedExtruder (fun data => [data]) "p".toList "d".toList).run fileStep
          (List.replicate 6 .passes) oneFile).state "p".toList) := by
  have present : oneFile "p".toList = some extruderText := rfl
  refine ⟨present, (config_complete_iff present (fun data => flatten_singleton) _).mpr ?_⟩
  rintro ⟨-, data, -, count⟩
  change passing (replicate 6 .passes) = 5 at count
  exact absurd count (by decide)

/-- **A failed rename leaves the printer without a config.** The command reports an error. -/
theorem config_missing :
    ∃ after, (saveConfig extruderConfig tunedExtruder (fun data => [data]) "p".toList "d".toList).run fileStep
        [.passes, .passes, .passes, .passes, .passes, .fails] oneFile =
      .returns (.error "Unable to write config file during SAVE_CONFIG") after [] ∧
        ¬ Complete extruderConfig tunedExtruder extruderText (after "p".toList) := by
  refine ⟨_, rfl, ?_⟩
  rintro (isOld | ⟨_, _, isNew⟩)
  · exact absurd isOld (by decide +kernel)
  · cases isNew

end MagnetoX.Host.ConfigFile
