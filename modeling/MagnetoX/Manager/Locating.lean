import MagnetoX.Manager.Editors

/-!
Owns where the two editors find the line they replace. An edit is found again at the
place where it was made, and an edit of one kind does not move the line of the other.
-/

namespace MagnetoX.Manager

open Host.ConfigFile Library.Lines Library.Search List

section Search

variable {lines : List Text} {index other : Nat} {line new : Text}

theorem serialBelow_occurs (found : serialBelow lines = some index) :
    ∃ line, lines[index]? = some line ∧ occurs serialWord line = true := by
  induction lines generalizing index with
  | nil => cases found
  | cons line lines ih =>
    rw [serialBelow] at found
    split at found
    · rename_i here
      cases found
      exact ⟨line, rfl, here⟩
    · split at found
      · cases found
      · obtain ⟨below, foundBelow, rfl⟩ := Option.map_eq_some_iff.mp found
        exact ih foundBelow

theorem locateSerial_occurs (found : locateSerial lines = some index) :
    ∃ line, lines[index]? = some line ∧ occurs serialWord line = true := by
  induction lines generalizing index with
  | nil => cases found
  | cons line lines ih =>
    rw [locateSerial] at found
    split at found
    · rename_i below here
      cases found
      split at here
      · exact serialBelow_occurs here
      · cases here
    · obtain ⟨later, foundLater, rfl⟩ := Option.map_eq_some_iff.mp found
      exact ih foundLater

theorem locateSerial_lt (found : locateSerial lines = some index) : index < lines.length := by
  obtain ⟨line, place, -⟩ := locateSerial_occurs found
  exact (List.getElem?_eq_some_iff.mp place).1

/-- The scan takes a line for another one: both have the word, or both are passed. -/
structure Alike (line new : Text) : Prop where
  word : occurs serialWord new = occurs serialWord line
  blank : occurs serialWord line = false → (strip isSpace new = [] ↔ strip isSpace line = [])
  mcuLine : isMcuLine new = isMcuLine line

section

variable (place : lines[index]? = some line)
include place

theorem serialBelow_set_alike (alike : Alike line new) :
    serialBelow (lines.set index new) = serialBelow lines := by
  induction lines generalizing index with
  | nil => rfl
  | cons first lines ih =>
    cases index with
    | zero =>
      cases place
      rw [set_cons_zero, serialBelow, serialBelow]
      rw [alike.word]
      split
      · rfl
      · rename_i without
        simp only [alike.blank (by simpa using without)]
    | succ index =>
      rw [set_cons_succ, serialBelow, serialBelow, ih place]

theorem locateSerial_set_alike (alike : Alike line new) :
    locateSerial (lines.set index new) = locateSerial lines := by
  induction lines generalizing index with
  | nil => rfl
  | cons first lines ih =>
    have below := serialBelow_set_alike place alike
    cases index with
    | zero =>
      cases place
      rw [set_cons_zero] at below ⊢
      rw [locateSerial, locateSerial, alike.mcuLine, below]
    | succ index =>
      rw [set_cons_succ] at below ⊢
      rw [locateSerial, locateSerial, ih place, below]

/-! A line with the word that the scan did not reach is not reached with other contents. -/

theorem serialBelow_set_elsewhere (hasWord : occurs serialWord line = true)
    (elsewhere : serialBelow lines ≠ some index) :
    serialBelow (lines.set index new) = serialBelow lines := by
  induction lines generalizing index with
  | nil => rfl
  | cons first lines ih =>
    cases index with
    | zero =>
      cases place
      exact absurd (if_pos hasWord) elsewhere
    | succ index =>
      rw [set_cons_succ, serialBelow, serialBelow]
      rw [serialBelow] at elsewhere
      split
      · rfl
      · rename_i without
        rw [if_neg without] at elsewhere
        split
        · rfl
        · rename_i visible
          rw [if_neg visible] at elsewhere
          rw [ih place]
          intro found
          exact elsewhere (by rw [found]; rfl)

theorem locateSerial_set_elsewhere (hasWord : occurs serialWord line = true)
    (noMcu : isMcuLine line = false) (noMcuNew : isMcuLine new = false)
    (found : locateSerial lines = some other) (differs : other ≠ index) :
    locateSerial (lines.set index new) = some other := by
  induction lines generalizing index other with
  | nil => cases found
  | cons first lines ih =>
    have below (elsewhere : serialBelow (first :: lines) ≠ some index) :
        serialBelow ((first :: lines).set index new) = serialBelow (first :: lines) :=
      serialBelow_set_elsewhere place hasWord elsewhere
    cases index with
    | zero =>
      cases place
      rw [set_cons_zero, locateSerial, noMcuNew]
      rwa [locateSerial, noMcu] at found
    | succ index =>
      rw [set_cons_succ] at below ⊢
      rw [locateSerial] at found ⊢
      cases isMcu : isMcuLine first with
      | false =>
        rw [isMcu] at found
        obtain ⟨later, foundLater, rfl⟩ := Option.map_eq_some_iff.mp found
        exact Option.map_eq_some_iff.mpr
          ⟨later, ih place foundLater (fun same => differs (by rw [same])), rfl⟩
      | true =>
        rw [isMcu, if_pos rfl] at found
        rw [if_pos rfl]
        cases here : serialBelow (first :: lines) with
        | some at_ =>
          rw [here] at found
          cases found
          rw [below (fun same => differs (Option.some.inj (here.symm.trans same))), here]
        | none =>
          rw [here] at found
          rw [below (by rw [here]; exact nofun), here]
          obtain ⟨later, foundLater, rfl⟩ := Option.map_eq_some_iff.mp found
          exact Option.map_eq_some_iff.mpr
            ⟨later, ih place foundLater (fun same => differs (by rw [same])), rfl⟩

end

theorem locateSerial_append (front back : List Text) (noMcu : ∀ line ∈ front, isMcuLine line = false) :
    locateSerial (front ++ back) = (locateSerial back).map (· + front.length) := by
  induction front with
  | nil => simp
  | cons line front ih =>
    rw [forall_mem_cons] at noMcu
    rw [cons_append, locateSerial, noMcu.1, ih noMcu.2]
    simp [Option.map_map, Function.comp_def, Nat.add_assoc]

theorem locateUuid_lt (found : locateUuid lines = some index) : index < lines.length :=
  (findIdx?_eq_some_iff_findIdx_eq.mp found).1

theorem locateUuid_iff :
    locateUuid lines = some index ↔
      (∃ line, lines[index]? = some line ∧ occurs uuidWord line = true) ∧
        ∀ earlier line, earlier < index → lines[earlier]? = some line → occurs uuidWord line = false := by
  rw [locateUuid, findIdx?_eq_some_iff_getElem]
  constructor
  · rintro ⟨within, here, first⟩
    refine ⟨⟨_, getElem?_eq_getElem within, here⟩, ?_⟩
    intro earlier line before place
    obtain ⟨_, rfl⟩ := List.getElem?_eq_some_iff.mp place
    simpa using first earlier before
  · rintro ⟨⟨line, place, here⟩, first⟩
    obtain ⟨within, rfl⟩ := List.getElem?_eq_some_iff.mp place
    refine ⟨within, here, ?_⟩
    intro earlier before
    have without := first earlier _ before (getElem?_eq_getElem (before.trans within))
    simpa using without

theorem locateUuid_set_self (found : locateUuid lines = some index) (hasWord : occurs uuidWord new = true) :
    locateUuid (lines.set index new) = some index := by
  have within := locateUuid_lt found
  rw [locateUuid_iff] at found ⊢
  refine ⟨⟨new, by rw [getElem?_set_self within], hasWord⟩, ?_⟩
  intro earlier line before place
  rw [getElem?_set_ne (by omega)] at place
  exact found.2 earlier line before place

theorem locateUuid_set_other (found : locateUuid lines = some index) (differs : other ≠ index)
    (without : occurs uuidWord new = false) : locateUuid (lines.set other new) = some index := by
  rw [locateUuid_iff] at found ⊢
  obtain ⟨⟨line, place, hasWord⟩, first⟩ := found
  refine ⟨⟨line, by rw [getElem?_set_ne differs, place], hasWord⟩, ?_⟩
  intro earlier line before place
  by_cases same : other = earlier
  · subst same
    obtain ⟨within, rfl⟩ := List.getElem?_eq_some_iff.mp place
    rw [getElem_set_self]
    exact without
  · rw [getElem?_set_ne same] at place
    exact first earlier line before place

end Search

inductive Kind where
  | serial
  | uuid
deriving DecidableEq, Repr

/-- A request with what it found: the name of a device, or a uuid. A uuid is a match of
`\w+`; a device that names the option of the other kind is left out. -/
inductive Edit where
  | setSerial (device : Text) (whole : '\n' ∉ device) (noReturn : '\r' ∉ device)
      (noWord : occurs uuidWord (optionLine serial device ++ ['\n']) = false)
  | setUuid (name : Text) (whole : '\n' ∉ name) (noReturn : '\r' ∉ name) (noColon : ':' ∉ name)
deriving DecidableEq

namespace Edit

def kind : Edit → Kind
  | .setSerial _ _ _ _ => .serial
  | .setUuid _ _ _ _ => .uuid

def line : Edit → Text
  | .setSerial device _ _ _ => optionLine serial device
  | .setUuid name _ _ _ => optionLine canbusUuid name

def apply (contents : Text) : Edit → Option Text
  | .setSerial device _ _ _ => updateConfigFile device contents
  | .setUuid name _ _ _ => modifyConfigFile name contents

end Edit

/-- The line of the file that a request of this kind would replace. -/
def Kind.locate : Kind → List Text → Option Nat
  | .serial => locateSerial
  | .uuid => locateUuid

/-- The file has the value of the edit where a request of its kind looks for it. -/
def Shows (file : Text) (edit : Edit) : Prop :=
  ∃ index, edit.kind.locate (fileLines file) = some index ∧
    (fileLines file)[index]? = some (edit.line ++ ['\n'])

instance (file : Text) (edit : Edit) : Decidable (Shows file edit) :=
  decidable_of_iff
    ((edit.kind.locate (fileLines file)).bind (fun index => (fileLines file)[index]?) =
      some (edit.line ++ ['\n']))
    Option.bind_eq_some_iff

section Words

variable {line : Text}

theorem not_isMcuLine {c : Char} (visible : isSpace c = false) (foreign : c ∉ "[mcu]".toList) (member : c ∈ line) :
    isMcuLine line = false := by
  refine decide_eq_false (fun isMcu => foreign ?_)
  rw [← isMcu]
  exact mem_strip visible member

theorem not_isMcuLine_of_serial (hasWord : occurs serialWord line = true) : isMcuLine line = false :=
  not_isMcuLine (c := 's') (by decide) (by decide) (mem_of_occurs hasWord (by decide))

theorem not_isMcuLine_of_uuid (hasWord : occurs uuidWord line = true) : isMcuLine line = false :=
  not_isMcuLine (c := 'b') (by decide) (by decide) (mem_of_occurs hasWord (by decide))

theorem strip_ne_nil_of_uuid (hasWord : occurs uuidWord line = true) : strip isSpace line ≠ [] := by
  have member : 'b' ∈ strip isSpace line := mem_strip (by decide) (mem_of_occurs hasWord (by decide))
  exact ne_nil_of_mem member

theorem occurs_serialLine (device : Text) : occurs serialWord (optionLine serial device ++ ['\n']) = true := by
  rw [occurs_iff]
  exact ⟨[], ' ' :: (device ++ ['\n']), rfl⟩

theorem occurs_uuidLine (uuid : Text) : occurs uuidWord (optionLine canbusUuid uuid ++ ['\n']) = true := by
  rw [occurs_iff]
  exact ⟨[], ' ' :: (uuid ++ ['\n']), rfl⟩

/-- The only colon of a uuid line ends another word. -/
theorem not_occurs_uuidLine {uuid : Text} (noColon : ':' ∉ uuid) :
    occurs serialWord (optionLine canbusUuid uuid ++ ['\n']) = false := by
  rw [← Bool.not_eq_true, occurs_iff]
  rintro ⟨before, after, same⟩
  have left : before ++ serialWord ++ after = (before ++ "serial".toList) ++ ':' :: after := by
    rw [show serialWord = "serial".toList ++ [':'] from rfl, ← append_assoc, ← append_cons]
  have right : optionLine canbusUuid uuid ++ ['\n'] = canbusUuid ++ ':' :: ' ' :: (uuid ++ ['\n']) := by
    rw [optionLine, append_assoc, append_assoc]
    rfl
  have splits := left.symm.trans (same.trans right)
  have word : ':' ∉ canbusUuid := by decide
  have none : ':' ∉ ' ' :: (uuid ++ ['\n']) := by simp [noColon]
  have isSuffix : "serial".toList <:+ canbusUuid :=
    ⟨before, ((append_cons_inj_of_notMem word none).mp splits.symm).1.symm⟩
  exact absurd isSuffix (by decide)

end Words

section Edits

variable {contents new device : Text} {index : Nat}

theorem fileLines_added (file : Text) (whole : '\n' ∉ device) (noReturn : '\r' ∉ device) :
    fileLines (writelines (fileLines file ++ ["\n[mcu]\n".toList, optionLine serial device ++ ['\n']])) =
      (pieces file).map (· ++ ['\n']) ++ ["[mcu]\n".toList, optionLine serial device ++ ['\n']] := by
  have split := pieces_added file whole noReturn
  rw [pieces] at split
  rw [fileLines_eq, readlines, split, newSection]
  simp

theorem pieces_eq (file : Text) :
    ∃ lines rest, pieces file = lines ++ [rest] ∧ '\n' ∉ rest ∧
      fileLines file = lines.map (· ++ ['\n']) ++ if rest = [] then [] else [rest] := by
  obtain ⟨lines, rest, unbroken, whole, same⟩ := exists_closed_append '\n' (readConfigFile file)
  refine ⟨lines, rest, ?_, whole, ?_⟩
  · rw [pieces, same, splitOn_closed_append unbroken whole]
  · rw [fileLines_eq, same, readlines_closed_append unbroken whole]

theorem isMcuLine_newline (line : Text) : isMcuLine (line ++ ['\n']) = isMcuLine line := by
  rw [isMcuLine, isMcuLine, strip_concat line (by decide)]

/-- Line ends aside, a file without `[mcu]` has no piece with it. -/
theorem not_isMcuLine_pieces (file : Text) (noMcu : ¬ (fileLines file).any isMcuLine = true) :
    ∀ line ∈ (pieces file).map (· ++ ['\n']), isMcuLine line = false := by
  obtain ⟨lines, rest, split, -, same⟩ := pieces_eq file
  rw [same, any_eq_true, not_exists] at noMcu
  rw [split, map_append, forall_mem_append]
  constructor
  · intro line isLine
    exact Bool.eq_false_iff.mpr (fun isMcu => noMcu line ⟨mem_append_left _ isLine, isMcu⟩)
  · rw [map_singleton, forall_mem_singleton, isMcuLine_newline]
    by_cases empty : rest = []
    · rw [empty]
      decide
    · rw [if_neg empty] at noMcu
      exact Bool.eq_false_iff.mpr (fun isMcu => noMcu rest ⟨mem_append_right _ (.head _), isMcu⟩)

theorem locateSerial_newSection (device : Text) :
    locateSerial ["[mcu]\n".toList, optionLine serial device ++ ['\n']] = some 1 := by
  have header : isMcuLine "[mcu]\n".toList = true := by decide
  have without : occurs serialWord "[mcu]\n".toList = false := by decide
  have visible : strip isSpace "[mcu]\n".toList ≠ [] := by decide
  rw [locateSerial, if_pos header, serialBelow, if_neg (Bool.eq_false_iff.mp without), if_neg visible, serialBelow,
    if_pos (occurs_serialLine device)]
  rfl

/-- An edit of the serial line replaces the line that is found, or adds a section. -/
theorem fileLines_updated (whole : '\n' ∉ device) (noReturn : '\r' ∉ device)
    (updates : updateConfigFile device contents = some new) :
    (∃ index, locateSerial (fileLines contents) = some index ∧
      fileLines new = (fileLines contents).set index (optionLine serial device ++ ['\n'])) ∨
    ¬ (fileLines contents).any isMcuLine = true ∧
      fileLines new = (pieces contents).map (· ++ ['\n']) ++ ["[mcu]\n".toList, optionLine serial device ++ ['\n']] := by
  rw [updateConfigFile] at updates
  split at updates
  · cases updates
  · dsimp only at updates
    split at updates
    · rename_i index found
      cases updates
      exact .inl ⟨index, found, fileLines_replaced contents (locateSerial_lt found)
        (not_mem_optionLine (by decide) whole) (not_mem_optionLine (by decide) noReturn)⟩
    · split at updates
      · cases updates
      · rename_i noMcu
        cases updates
        exact .inr ⟨noMcu, fileLines_added contents whole noReturn⟩

theorem fileLines_modified {name : Text} (whole : '\n' ∉ name) (noReturn : '\r' ∉ name)
    (modifies : modifyConfigFile name contents = some new) :
    ∃ index, locateUuid (fileLines contents) = some index ∧
      fileLines new = (fileLines contents).set index (optionLine canbusUuid name ++ ['\n']) := by
  obtain ⟨index, found, rfl⟩ := Option.map_eq_some_iff.mp modifies
  exact ⟨index, found, fileLines_replaced contents (locateUuid_lt found)
    (not_mem_optionLine (by decide) whole) (not_mem_optionLine (by decide) noReturn)⟩

/-- An edit is found where it was made. -/
theorem Edit.shows (edit : Edit) (applies : edit.apply contents = some new) : Shows new edit := by
  cases edit with
  | setSerial device whole noReturn noWord =>
    obtain ⟨index, found, isNew⟩ | ⟨noMcu, isNew⟩ := fileLines_updated whole noReturn applies
    · obtain ⟨line, place, hasWord⟩ := locateSerial_occurs found
      have alike : Alike line (optionLine serial device ++ ['\n']) :=
        ⟨(occurs_serialLine device).trans hasWord.symm, (fun without => nomatch hasWord.symm.trans without),
          (not_isMcuLine_of_serial (occurs_serialLine device)).trans (not_isMcuLine_of_serial hasWord).symm⟩
      rw [Shows, isNew]
      exact ⟨index, (locateSerial_set_alike place alike).trans found, getElem?_set_self (locateSerial_lt found)⟩
    · rw [Shows, isNew]
      refine ⟨1 + ((pieces contents).map (· ++ ['\n'])).length, ?_, ?_⟩
      · change locateSerial _ = _
        rw [locateSerial_append _ _ (not_isMcuLine_pieces contents noMcu), locateSerial_newSection]
        rfl
      · rw [getElem?_append_right (Nat.le_add_left _ _), Nat.add_sub_cancel]
        rfl
  | setUuid name whole noReturn noColon =>
    obtain ⟨index, found, isNew⟩ := fileLines_modified whole noReturn applies
    rw [Shows, isNew]
    exact ⟨index, locateUuid_set_self found (occurs_uuidLine name), getElem?_set_self (locateUuid_lt found)⟩

/-- A line with a line end is no last line without one. -/
theorem locateUuid_lt_of_newline {lines : List Text} {rest line : Text} (whole : '\n' ∉ rest)
    (place : (lines.map (· ++ ['\n']) ++ if rest = [] then [] else [rest])[index]? = some (line ++ ['\n'])) :
    index < (lines.map (· ++ ['\n'])).length := by
  by_contra beyond
  rw [getElem?_append_right (not_lt.mp beyond)] at place
  have isRest := mem_of_getElem? place
  split at isRest
  · cases isRest
  · apply whole
    rw [← mem_singleton.mp isRest]
    exact mem_append_right _ (.head _)

theorem locateUuid_append {front back other : List Text} (within : index < front.length)
    (found : locateUuid (front ++ back) = some index) : locateUuid (front ++ other) = some index := by
  rw [locateUuid_iff] at found ⊢
  rw [getElem?_append_left within] at found ⊢
  refine ⟨found.1, ?_⟩
  intro earlier line before place
  rw [getElem?_append_left (before.trans within)] at place
  exact found.2 earlier line before (by rw [getElem?_append_left (before.trans within), place])

/-- **An edit does not move the line of the other kind.** -/
theorem Edit.shows_other (edit other : Edit) (applies : edit.apply contents = some new)
    (differs : other.kind ≠ edit.kind) (shows_ : Shows contents other) : Shows new other := by
  obtain ⟨index, found, place⟩ := shows_
  cases edit with
  | setSerial device whole noReturn noWord =>
    cases other with
    | setSerial => exact absurd rfl differs
    | setUuid name _ _ noColon =>
      obtain ⟨target, foundTarget, isNew⟩ | ⟨-, isNew⟩ := fileLines_updated whole noReturn applies
      · obtain ⟨line, placeTarget, hasWord⟩ := locateSerial_occurs foundTarget
        have apart : target ≠ index := by
          rintro rfl
          rw [Option.some.inj (placeTarget.symm.trans place), Edit.line, not_occurs_uuidLine noColon] at hasWord
          cases hasWord
        rw [Shows, isNew]
        exact ⟨index, locateUuid_set_other found apart noWord, by rw [getElem?_set_ne apart, place]⟩
      · obtain ⟨lines, rest, split, restWhole, same⟩ := pieces_eq contents
        rw [same] at found place
        have within := locateUuid_lt_of_newline restWhole place
        rw [Shows, isNew, split, map_append, append_assoc]
        refine ⟨index, locateUuid_append within found, ?_⟩
        rw [getElem?_append_left within] at place ⊢
        exact place
  | setUuid name whole noReturn noColon =>
    cases other with
    | setUuid => exact absurd rfl differs
    | setSerial device _ _ noWord =>
      obtain ⟨target, foundTarget, isNew⟩ := fileLines_modified whole noReturn applies
      obtain ⟨⟨line, placeTarget, hasWord⟩, -⟩ := locateUuid_iff.mp foundTarget
      have apart : index ≠ target := by
        rintro rfl
        rw [Option.some.inj (placeTarget.symm.trans place), Edit.line, noWord] at hasWord
        cases hasWord
      rw [Shows, isNew]
      refine ⟨index, ?_, by rw [getElem?_set_ne apart.symm, place]⟩
      have hasWordNew := occurs_uuidLine name
      have noMcu := not_isMcuLine_of_uuid hasWord
      have noMcuNew := not_isMcuLine_of_uuid hasWordNew
      cases hasSerial : occurs serialWord line with
      | true => exact locateSerial_set_elsewhere placeTarget hasSerial noMcu noMcuNew found apart
      | false =>
        have alike : Alike line (optionLine canbusUuid name ++ ['\n']) :=
          ⟨(not_occurs_uuidLine noColon).trans hasSerial.symm,
            fun _ => iff_of_false (strip_ne_nil_of_uuid hasWordNew) (strip_ne_nil_of_uuid hasWord),
            noMcuNew.trans noMcu.symm⟩
        exact (locateSerial_set_alike placeTarget alike).trans found

end Edits

end MagnetoX.Manager
