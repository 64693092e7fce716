import MagnetoX.Host.ConfigFile.Parser

/-!
Owns the two functions of `auto-uuid/magneto-manager.py` that edit the device
config file: `modify_config_file` for the CAN uuid of the toolhead and
`update_config_file` for the serial device of the main board. Both read the lines
of the file, look for a line with a word in it, and write all lines back.

A function returns the new text of the file, or `none` where the source returns
`False` and does not write.
-/

namespace MagnetoX.Manager

open Host.ConfigFile Library.Lines Library.Search List

/-- `file.readlines()`: every line with its line end, which the last one may lack. -/
def readlines (text : Text) : List Text :=
  let pieces := text.splitOn '\n'
  let last := pieces.getLast?.getD []
  pieces.dropLast.map (· ++ ['\n']) ++ if last = [] then [] else [last]

def fileLines (file : Text) : List Text := readlines (universalNewlines file)

def writelines (lines : List Text) : Text := lines.flatten

def canbusUuid : Text := "canbus_uuid".toList
def serial : Text := "serial".toList
def mcu : Text := "mcu".toList
def serialWord : Text := "serial:".toList
def uuidWord : Text := "canbus_uuid:".toList

def optionLine (name value : Text) : Text := name ++ ": ".toList ++ value

/-- The line with `canbus_uuid:` that `modify_config_file` replaces. -/
def locateUuid (lines : List Text) : Option Nat :=
  lines.findIdx? (fun line => occurs uuidWord line)

def modifyConfigFile (uuid file : Text) : Option Text :=
  let lines := fileLines file
  (locateUuid lines).map (fun index =>
    writelines (lines.set index (optionLine canbusUuid uuid ++ ['\n'])))

/-- The inner loop of `update_config_file`: the first line with `serial:` before a
blank one. -/
def serialBelow : List Text → Option Nat
  | [] => none
  | line :: lines =>
      if occurs serialWord line then some 0
      else if strip isSpace line = [] then none
      else (serialBelow lines).map (· + 1)

def isMcuLine (line : Text) : Bool := strip isSpace line = "[mcu]".toList

/-- The line that `update_config_file` replaces: its outer loop goes on behind a
`[mcu]` line without a result. -/
def locateSerial : List Text → Option Nat
  | [] => none
  | line :: lines =>
      match if isMcuLine line then serialBelow (line :: lines) else none with
      | some index => some index
      | none => (locateSerial lines).map (· + 1)

def updateConfigFile (device file : Text) : Option Text :=
  if device = [] then none
  else
    let content := fileLines file
    match locateSerial content with
    | some index => some (writelines (content.set index (optionLine serial device ++ ['\n'])))
    | none =>
        if content.any isMcuLine then none
        else some (writelines (content ++ ["\n[mcu]\n".toList, optionLine serial device ++ ['\n']]))

section Lines

variable {file line device : Text} {lines : List Text}

theorem fileLines_eq (file : Text) : fileLines file = readlines (readConfigFile file) := by
  rw [fileLines, readConfigFile, replaceLineEnds_of_not_mem (not_mem_universalNewlines file)]

theorem readlines_closed_append {rest : Text} (unbroken : Unbroken '\n' lines) (whole : '\n' ∉ rest) :
    readlines (closed '\n' lines ++ rest) =
      lines.map (· ++ ['\n']) ++ if rest = [] then [] else [rest] := by
  rw [readlines, splitOn_closed_append unbroken whole]
  simp

theorem writelines_closed (lines : List Text) : writelines (lines.map (· ++ ['\n'])) = closed '\n' lines :=
  rfl

theorem writelines_append (front back : List Text) :
    writelines (front ++ back) = writelines front ++ writelines back := List.flatten_append

theorem writelines_rest (rest : Text) : writelines (if rest = [] then [] else [rest]) = rest := by
  split
  · rename_i empty
    rw [empty]
    rfl
  · simp [writelines]

theorem writelines_readlines (text : Text) : writelines (readlines text) = text := by
  obtain ⟨lines, rest, unbroken, whole, rfl⟩ := exists_closed_append '\n' text
  rw [readlines_closed_append unbroken whole, writelines_append, writelines_closed, writelines_rest]

theorem not_mem_optionLine {name value : Text} {c : Char} (noName : c ∉ name ++ ": ".toList) (noValue : c ∉ value) :
    c ∉ optionLine name value := by
  rw [optionLine, mem_append]
  exact not_or.mpr ⟨noName, noValue⟩

/-- What follows a replaced line: a last line gets a line end. -/
def ended (back : List Text) : List Text := if back = [] then [[]] else back

variable {index : Nat}

section

variable (text : Text) (within : index < (readlines text).length)
include text within

/-- Replacing a line: either a closed line is replaced, or the last one gets a line end. -/
theorem set_readlines (line : Text) :
    ∃ lines rest, Unbroken '\n' lines ∧ '\n' ∉ rest ∧ text = closed '\n' lines ++ rest ∧
      ((∃ front old back, lines = front ++ old :: back ∧ front.length = index ∧
        (readlines text).set index (line ++ ['\n']) =
          (front ++ line :: back).map (· ++ ['\n']) ++ if rest = [] then [] else [rest]) ∨
      (rest ≠ [] ∧ lines.length = index ∧
        (readlines text).set index (line ++ ['\n']) = (lines ++ [line]).map (· ++ ['\n']))) := by
  obtain ⟨lines, rest, unbroken, whole, rfl⟩ := exists_closed_append '\n' text
  refine ⟨lines, rest, unbroken, whole, rfl, ?_⟩
  rw [readlines_closed_append unbroken whole] at *
  by_cases inside : index < lines.length
  · obtain ⟨front, old, back, rfl, rfl⟩ : ∃ front old back, lines = front ++ old :: back ∧ front.length = index :=
      ⟨lines.take index, lines.get ⟨index, inside⟩, lines.drop (index + 1), by simp, by simp [inside.le]⟩
    exact .inl ⟨front, old, back, rfl, rfl, by simp⟩
  · have more : rest ≠ [] := by
      rintro rfl
      simp at within
      exact inside within
    rw [if_neg more] at *
    have isLast : lines.length = index := by
      simp at within
      omega
    exact .inr ⟨more, isLast, by simp [← isLast]⟩

theorem splitOn_replaced (whole : '\n' ∉ line) :
    ∃ front old back, text.splitOn '\n' = front ++ old :: back ∧ front.length = index ∧
      (writelines ((readlines text).set index (line ++ ['\n']))).splitOn '\n' =
        front ++ line :: ended back := by
  obtain ⟨lines, rest, unbroken, restWhole, same, ⟨front, old, back, rfl, length, replaced⟩ | ⟨more, length, replaced⟩⟩ :=
    set_readlines text within line
  · refine ⟨front, old, back ++ [rest], ?_, length, ?_⟩
    · rw [same, splitOn_closed_append unbroken restWhole, append_assoc, cons_append]
    · rw [replaced, writelines_append, writelines_closed, writelines_rest, splitOn_closed_append _ restWhole, ended,
        if_neg (by simp)]
      · simp
      · rw [unbroken_append, unbroken_cons] at unbroken ⊢
        exact ⟨unbroken.1, whole, unbroken.2.2⟩
  · refine ⟨lines, rest, [], ?_, length, ?_⟩
    · rw [same, splitOn_closed_append unbroken restWhole]
    · rw [replaced, writelines_closed, ← append_nil (closed _ _), splitOn_closed_append _ not_mem_nil]
      · simp [ended]
      · rw [unbroken_append]
        exact ⟨unbroken, by simpa using whole⟩

theorem readlines_replaced (whole : '\n' ∉ line) :
    readlines (writelines ((readlines text).set index (line ++ ['\n']))) =
      (readlines text).set index (line ++ ['\n']) := by
  obtain ⟨lines, rest, unbroken, restWhole, -, ⟨front, old, back, rfl, -, replaced⟩ | ⟨-, -, replaced⟩⟩ :=
    set_readlines text within line
  · rw [replaced, writelines_append, writelines_closed, writelines_rest, readlines_closed_append _ restWhole]
    rw [unbroken_append, unbroken_cons] at unbroken ⊢
    exact ⟨unbroken.1, whole, unbroken.2.2⟩
  · rw [replaced, writelines_closed, ← append_nil (closed _ _), readlines_closed_append _ not_mem_nil]
    · simp
    · rw [unbroken_append]
      exact ⟨unbroken, by simpa using whole⟩

end

def pieces (file : Text) : List Text := (readConfigFile file).splitOn '\n'

theorem mem_of_mem_fileLines {found : Text} {c : Char} (isLine : found ∈ fileLines file) (member : c ∈ found) :
    c ∈ readConfigFile file := by
  rw [fileLines_eq] at isLine
  rw [← writelines_readlines (readConfigFile file)]
  exact mem_flatten_of_mem isLine member

theorem readConfigFile_replaced (file : Text) (index : Nat) (noReturn : '\r' ∉ line) :
    readConfigFile (writelines ((fileLines file).set index (line ++ ['\n']))) =
      writelines ((fileLines file).set index (line ++ ['\n'])) := by
  apply readConfigFile_of_not_mem
  intro member
  obtain ⟨found, isLine, member⟩ := mem_flatten.mp member
  rcases mem_or_eq_of_mem_set isLine with old | rfl
  · exact not_mem_readConfigFile file (mem_of_mem_fileLines old member)
  · simp [noReturn] at member

/-- **Replacing a line of a file.** -/
theorem pieces_replaced (file : Text) (within : index < (fileLines file).length)
    (whole : '\n' ∉ line) (noReturn : '\r' ∉ line) :
    ∃ front old back, pieces file = front ++ old :: back ∧ front.length = index ∧
      pieces (writelines ((fileLines file).set index (line ++ ['\n']))) = front ++ line :: ended back := by
  rw [pieces, pieces, readConfigFile_replaced file index noReturn, fileLines_eq]
  rw [fileLines_eq] at within
  exact splitOn_replaced _ within whole

/-- The same, with the lines around it. -/
theorem pieces_replaced_at {front back : List Text} {file old : Text} (split : pieces file = front ++ old :: back)
    (within : front.length < (fileLines file).length) (whole : '\n' ∉ line) (noReturn : '\r' ∉ line) :
    pieces (writelines ((fileLines file).set front.length (line ++ ['\n']))) = front ++ line :: ended back := by
  obtain ⟨front', old', back', split', length, replaced⟩ := pieces_replaced file within whole noReturn
  obtain ⟨rfl, rest⟩ := append_inj (split.symm.trans split') length.symm
  obtain ⟨rfl, rfl⟩ := cons.inj rest
  exact replaced

theorem fileLines_replaced (file : Text) (within : index < (fileLines file).length)
    (whole : '\n' ∉ line) (noReturn : '\r' ∉ line) :
    fileLines (writelines ((fileLines file).set index (line ++ ['\n']))) =
      (fileLines file).set index (line ++ ['\n']) := by
  rw [fileLines_eq, readConfigFile_replaced file index noReturn]
  exact readlines_replaced _ within whole

def newSection (device : Text) : List Text := ["[mcu]".toList, optionLine serial device, []]

/-- **Adding a section to a file.** -/
theorem pieces_added (file : Text) (deviceWhole : '\n' ∉ device) (deviceNoReturn : '\r' ∉ device) :
    pieces (writelines (fileLines file ++ ["\n[mcu]\n".toList, optionLine serial device ++ ['\n']])) =
      pieces file ++ newSection device := by
  have whole : '\n' ∉ optionLine serial device := not_mem_optionLine (by decide) deviceWhole
  have noReturn : '\r' ∉ optionLine serial device := not_mem_optionLine (by decide) deviceNoReturn
  have written : writelines (fileLines file ++ ["\n[mcu]\n".toList, optionLine serial device ++ ['\n']]) =
      readConfigFile file ++ ("\n[mcu]\n".toList ++ (optionLine serial device ++ ['\n'])) := by
    rw [writelines_append, fileLines_eq, writelines_readlines]
    simp [writelines]
  have free : '\r' ∉ readConfigFile file ++ ("\n[mcu]\n".toList ++ (optionLine serial device ++ ['\n'])) := by
    simp [not_mem_readConfigFile, noReturn]
  rw [written, pieces, pieces, readConfigFile_of_not_mem free]
  obtain ⟨lines, rest, unbroken, restWhole, same⟩ := exists_closed_append '\n' (readConfigFile file)
  have closes : closed '\n' lines ++ rest ++ ("\n[mcu]\n".toList ++ (optionLine serial device ++ ['\n'])) =
      closed '\n' (lines ++ [rest, "[mcu]".toList, optionLine serial device]) ++ [] := by
    simp
  rw [same, closes, splitOn_closed_append _ not_mem_nil, splitOn_closed_append unbroken restWhole]
  · simp [newSection]
  · rw [unbroken_append]
    refine ⟨unbroken, ?_⟩
    simp [restWhole, whole]

/-! What follows a replaced line is read as before. -/

theorem startsOver_ended (back : List Text) : StartsOver (ended back) ↔ StartsOver back := by
  cases back with
  | nil => exact ⟨fun _ => trivial, fun _ => by simp [ended, StartsOver, show lineValue [] = [] from rfl]⟩
  | cons line back => rfl

theorem readLines_ended (cursect : Option Text) (back : List Text) :
    (Reader.within cursect).readLines (ended back) = (Reader.within cursect).readLines back := by
  cases back with
  | nil =>
    change ((Reader.within cursect).readLine []).bind _ = some (Reader.within cursect)
    rw [readLine_blank_within cursect (show lineValue [] = [] from rfl)]
    rfl
  | cons line back => rfl

end Lines

section Replaced

variable {new name value parent : Text} {front back : List Text} {reader : Reader}

def newValue (value : Text) (back : List Text) : Text :=
  rstrip isSpace (['\n'].intercalate (value :: (continued (ended back)).1))

def newItem (parent name value : Text) (back : List Text) : Item := .option parent name (newValue value back)

def readBehind (parent : Text) (back : List Text) : Option Reader :=
  (Reader.within (some parent)).readLines (continued (ended back)).2

theorem parse_replaced (plain : Plain name) (split : pieces new = front ++ optionLine name value :: ended back)
    (reads : Reader.init.readLines front = some reader) (inside : reader.cursect = some parent)
    (readable : Readable name value) :
    parse new = (readBehind parent back).map (fun later =>
      reader.items ++ newItem parent name value back :: later.items) := by
  rw [parse, parseLines, show (readConfigFile new).splitOn '\n' = _ from split, readLines_append, reads,
    Option.bind_some]
  exact readLines_written plain inside readable (ended back)

/-- The new line can only be read inside a section. -/
theorem exists_reader {after : List Item} (plain : Plain name)
    (split : pieces new = front ++ optionLine name value :: ended back) (parses : parse new = some after) :
    ∃ reader parent, Reader.init.readLines front = some reader ∧ reader.cursect = some parent := by
  rw [parse, parseLines, show (readConfigFile new).splitOn '\n' = _ from split, readLines_append] at parses
  obtain ⟨last, reads, -⟩ := Option.map_eq_some_iff.mp parses
  obtain ⟨reader, reads, rest⟩ := Option.bind_eq_some_iff.mp reads
  cases inside : reader.cursect with
  | some parent => exact ⟨reader, parent, reads, inside⟩
  | none =>
    rw [Reader.readLines, optionLine, readLine_written_none plain inside] at rest
    cases rest

/-- The value is read back if nothing continues its line. -/
theorem newValue_eq_iff (readable : Readable name value) : newValue value back = value ↔ StartsOver back := by
  rw [newValue, joined_eq_iff readable.stripped (fun _ isLine => continued_stripped (ended back) isLine),
    continued_blank_iff, startsOver_ended]

theorem readBehind_of_startsOver (parent : Text) (startsOver : StartsOver back) :
    readBehind parent back = (Reader.within (some parent)).readLines back := by
  rw [readBehind, readLines_continued _ ((startsOver_ended back).mpr startsOver), readLines_ended]

end Replaced

end MagnetoX.Manager
