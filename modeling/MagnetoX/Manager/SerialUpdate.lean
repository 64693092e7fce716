import MagnetoX.Manager.Locating

/-!
Owns what an update of the serial device does to the config file as Klipper reads
it. Where the file has no `[mcu]` line the new section changes nothing else. Where it
has one, the line that is replaced is found by a word in it, and need not be the
serial option of that section.
-/

namespace MagnetoX.Manager

open Host.ConfigFile Library.Search List Option

structure AgreeBut (parent name : Text) (before after : List Item) : Prop where
  sections : ∀ other, .header other ∈ after ↔ .header other ∈ before
  values : ∀ otherParent other, ¬ (otherParent = parent ∧ other = name) →
    getOption after otherParent other = getOption before otherParent other

def IsComment (line : Text) : Prop := lineValue line = [] ∧ strip isSpace line ≠ []

instance (line : Text) : Decidable (IsComment line) := inferInstanceAs (Decidable (_ ∧ _))

def commentLines (lines : List Text) : List Text := lines.filter (fun line => IsComment line)

/-- The new file reads as the old one with the serial device of `[mcu]` set; the
section may be new. -/
structure SetsSerial (file : Text) (before : List Item) (device new : Text) : Prop where
  reads : ∃ after, parse new = some after ∧
    (∀ other, .header other ∈ after ↔ .header other ∈ before ∨ other = mcu) ∧
    (∀ parent name, getOption after parent name =
      if parent = mcu ∧ name = serial then some device else getOption before parent name)
  comments : commentLines (pieces new) = commentLines (pieces file)

/-- The line that an update replaces, and the lines around it. -/
def SerialTarget (file : Text) (front : List Text) (line : Text) (back : List Text) : Prop :=
  pieces file = front ++ line :: back ∧ locateSerial (fileLines file) = some front.length

/-- The line is read in `[mcu]`, no value goes on behind it, no other serial follows,
and all it does is to set the serial. -/
structure OwnLine (before : List Item) (front : List Text) (line : Text) (back : List Text) : Prop where
  inside : ∃ reader, Reader.init.readLines front = some reader ∧ reader.cursect = some mcu
  startsOver : StartsOver back
  last : ∃ later, (Reader.within (some mcu)).readLines back = some later ∧
    getOption later.items mcu serial = none
  noComment : ¬ IsComment line
  nothingElse : ∃ without, parseLines (front ++ back) = some without ∧ AgreeBut mcu serial before without

section Replacing

variable {file device new : Text} {before later : List Item} {front back lines : List Text}
  {line parent : Text} {reader : Reader}

theorem serial_plain : Plain serial := ⟨'s', rfl, by decide, by decide, by decide, by decide⟩

theorem updateConfigFile_target (target : SerialTarget file front line back)
    (readable : Readable serial device) (given : device ≠ []) :
    ∃ new, updateConfigFile device file = some new ∧
      pieces new = front ++ optionLine serial device :: ended back := by
  obtain ⟨split, found⟩ := target
  refine ⟨_, ?_, pieces_replaced_at split (locateSerial_lt found)
    (not_mem_optionLine (by decide) readable.1) (not_mem_optionLine (by decide) readable.2.1)⟩
  rw [updateConfigFile, if_neg given]
  dsimp only
  rw [found]

theorem not_isComment_optionLine (device : Text) : ¬ IsComment (optionLine serial device) := by
  intro comment
  exact (serial_plain.line _).2.1 comment.1

/-- Only the replaced line may have been a comment. -/
theorem commentLines_replaced :
    commentLines (front ++ optionLine serial device :: ended back) = commentLines (front ++ line :: back) ↔
      ¬ IsComment line := by
  have same : commentLines (ended back) = commentLines back := by
    cases back with
    | nil => rfl
    | cons line back => rfl
  unfold commentLines at same ⊢
  rw [filter_append, filter_append,
    filter_cons_of_neg (by simpa using not_isComment_optionLine device), same, append_cancel_left_eq]
  by_cases comment : IsComment line
  · rw [filter_cons_of_pos (by simpa using comment)]
    simp [comment]
  · rw [filter_cons_of_neg (by simpa using comment)]
    simp [comment]

theorem getOption_replaced (earlier : List Item) (item : Item) (later : List Item) (otherParent other : Text) :
    getOption (earlier ++ item :: later) otherParent other =
      ((getOption later otherParent other).or (item.valueOf otherParent other)).or
        (getOption earlier otherParent other) := by
  rw [← singleton_append, getOption_append, getOption_append, getOption_singleton]

theorem valueOf_newItem (parent device : Text) (back : List Text) :
    (newItem parent serial device back).valueOf parent serial = some (newValue device back) :=
  if_pos ⟨rfl, rfl⟩

/-- Two devices that are read back from one place tell what stands there. -/
theorem own_of_two {first second : Text} (readable : Readable serial first)
    (distinct : first ≠ second)
    (readsFirst : getOption (reader.items ++ newItem parent serial first back :: later) mcu serial = some first)
    (readsSecond :
      getOption (reader.items ++ newItem parent serial second back :: later) mcu serial = some second) :
    parent = mcu ∧ StartsOver back ∧ getOption later mcu serial = none := by
  rw [getOption_replaced] at readsFirst readsSecond
  cases behind : getOption later mcu serial with
  | some value =>
    rw [behind] at readsFirst readsSecond
    exact absurd ((some.inj readsFirst).symm.trans (some.inj readsSecond)) distinct
  | none =>
    rw [behind, none_or] at readsFirst readsSecond
    by_cases own : parent = mcu
    · subst own
      refine ⟨rfl, ?_, rfl⟩
      exact (newValue_eq_iff readable).mp (some.inj readsFirst)
    · have differs : ¬ (mcu = parent ∧ serial = serial) := fun same => own same.1.symm
      rw [newItem, valueOf_of_ne differs, none_or] at readsFirst readsSecond
      exact absurd (some.inj (readsFirst.symm.trans readsSecond)) distinct

/-- A section that was entered before a line is still there after it. -/
theorem header_mem_of_parse (reads : Reader.init.readLines front = some reader)
    (inside : reader.cursect = some parent) (parses : parseLines (front ++ lines) = some before) :
    .header parent ∈ before := by
  have entered : .header parent ∈ reader.done := (readLines_keeps reads).cursect nofun parent inside
  rw [parseLines, readLines_append, reads, bind_some] at parses
  obtain ⟨last, readsRest, rfl⟩ := map_eq_some_iff.mp parses
  exact mem_append_left _ ((readLines_keeps readsRest).headers parent entered)

/-- Without the line the rest is read behind what stands before it. -/
theorem parseLines_without {later : Reader} (reads : Reader.init.readLines front = some reader)
    (inside : reader.cursect = some parent) (startsOver : StartsOver back)
    (readsBack : (Reader.within (some parent)).readLines back = some later) :
    parseLines (front ++ back) = some (reader.items ++ later.items) := by
  rw [parseLines, readLines_append, reads, bind_some, readLines_startsOver reader startsOver, inside,
    readsBack]
  rfl

/-- An update that sets the serial for every device replaces its own line. -/
theorem OwnLine.of_sets (target : SerialTarget file front line back) (parses : parse file = some before)
    (sets : ∀ device new, Readable serial device → updateConfigFile device file = some new →
      SetsSerial file before device new) : OwnLine before front line back := by
  have readableFirst : Readable serial "/a".toList := by decide
  have readableSecond : Readable serial "/b".toList := by decide
  obtain ⟨first, updatesFirst, splitFirst⟩ := updateConfigFile_target target readableFirst (by decide)
  obtain ⟨second, updatesSecond, splitSecond⟩ := updateConfigFile_target target readableSecond (by decide)
  have setsFirst := sets _ first readableFirst updatesFirst
  obtain ⟨afterFirst, parsesFirst, headers, values⟩ := setsFirst.reads
  obtain ⟨afterSecond, parsesSecond, -, valuesSecond⟩ := (sets _ second readableSecond updatesSecond).reads
  obtain ⟨reader, parent, reads, inside⟩ := exists_reader serial_plain splitFirst parsesFirst
  rw [parse_replaced serial_plain splitFirst reads inside readableFirst] at parsesFirst
  rw [parse_replaced serial_plain splitSecond reads inside readableSecond] at parsesSecond
  obtain ⟨later, readsLater, rfl⟩ := map_eq_some_iff.mp parsesFirst
  rw [readsLater] at parsesSecond
  cases parsesSecond
  obtain ⟨rfl, startsOver, last⟩ := own_of_two readableFirst (by decide)
    ((values mcu serial).trans (if_pos ⟨rfl, rfl⟩)) ((valuesSecond mcu serial).trans (if_pos ⟨rfl, rfl⟩))
  rw [readBehind_of_startsOver mcu startsOver] at readsLater
  have entered : .header mcu ∈ before := by
    rw [parse, show (readConfigFile file).splitOn '\n' = _ from target.1] at parses
    exact header_mem_of_parse reads inside parses
  refine ⟨⟨reader, reads, inside⟩, startsOver, ⟨later, readsLater, last⟩, ?_,
    ⟨_, parseLines_without reads inside startsOver readsLater, ?_, ?_⟩⟩
  · have comments := setsFirst.comments
    rwa [splitFirst, target.1, commentLines_replaced] at comments
  · intro other
    have same := headers other
    simp only [mem_append, mem_cons] at same ⊢
    constructor
    · intro isHeader
      rcases same.mp (isHeader.imp id .inr) with old | rfl
      · exact old
      · exact entered
    · intro isOld
      rcases same.mpr (.inl isOld) with before | isNew | behind
      · exact .inl before
      · cases isNew
      · exact .inr behind
  · intro otherParent other differs
    have same := values otherParent other
    rw [if_neg differs, getOption_replaced, newItem, valueOf_of_ne differs, or_none] at same
    rw [getOption_append, same]

theorem OwnLine.sets (own : OwnLine before front line back) (target : SerialTarget file front line back)
    (parses : parse file = some before) (readable : Readable serial device)
    (updates : updateConfigFile device file = some new) : SetsSerial file before device new := by
  have given : device ≠ [] := by
    rintro rfl
    cases updates
  obtain ⟨written, updatesTo, split⟩ := updateConfigFile_target target readable given
  cases updates.symm.trans updatesTo
  obtain ⟨⟨reader, reads, inside⟩, startsOver, ⟨later, readsLater, last⟩, noComment, without, parsesWithout, agree⟩ :=
    own
  rw [parseLines_without reads inside startsOver readsLater] at parsesWithout
  cases parsesWithout
  have parsesNew := parse_replaced serial_plain split reads inside readable
  rw [readBehind_of_startsOver mcu startsOver, readsLater] at parsesNew
  have entered : .header mcu ∈ before := by
    rw [parse, show (readConfigFile file).splitOn '\n' = _ from target.1] at parses
    exact header_mem_of_parse reads inside parses
  refine ⟨⟨_, parsesNew, ?_, ?_⟩, ?_⟩
  · intro other
    have same := agree.sections other
    simp only [mem_append, mem_cons] at same ⊢
    constructor
    · rintro (earlier | isNew | behind)
      · exact .inl (same.mp (.inl earlier))
      · cases isNew
      · exact .inl (same.mp (.inr behind))
    · rintro (old | rfl)
      · exact (same.mpr old).imp id .inr
      · exact (same.mpr entered).imp id .inr
  · intro otherParent other
    rw [getOption_replaced]
    split
    · rename_i same
      obtain ⟨rfl, rfl⟩ := same
      rw [last, none_or, valueOf_newItem, some_or,
        (newValue_eq_iff readable).mpr startsOver]
    · rename_i differs
      rw [newItem, valueOf_of_ne differs, or_none, ← agree.values otherParent other differs,
        getOption_append]
  · rw [split, target.1, commentLines_replaced]
    exact noComment

end Replacing

section Adding

variable {file device new : Text} {before : List Item}

theorem readLine_mcuLine (reader : Reader) :
    reader.readLine "[mcu]".toList = some ⟨reader.items ++ [.header mcu], some mcu, none, 0⟩ := by
  have value : lineValue "[mcu]".toList = "[mcu]".toList := by decide
  rw [readLine_start (by rw [value]; decide) (by decide), value]
  rfl

/-- A new section is all that is read in addition. -/
theorem parse_added (parses : parse file = some before) (readable : Readable serial device)
    (split : pieces new = pieces file ++ newSection device) :
    parse new = some (before ++ [.header mcu, .option mcu serial device]) := by
  obtain ⟨reader, reads, rfl⟩ := map_eq_some_iff.mp parses
  rw [parse, parseLines, show (readConfigFile new).splitOn '\n' = _ from split, readLines_append,
    show Reader.init.readLines (pieces file) = some reader from reads, bind_some, newSection,
    Reader.readLines, readLine_mcuLine, bind_some, optionLine, readLines_written serial_plain rfl readable]
  have blank : continued [[]] = ([[]], []) := rfl
  have value : rstrip isSpace (device ++ ['\n']) = device := by
    rw [rstrip_append, if_pos (by decide), readable.stripped]
  rw [blank]
  simp [Reader.readLines, Reader.within, Reader.items, Entry.item, value]

theorem setsSerial_added (parses : parse file = some before) (readable : Readable serial device)
    (split : pieces new = pieces file ++ newSection device) : SetsSerial file before device new := by
  refine ⟨⟨_, parse_added parses readable split, ?_, ?_⟩, ?_⟩
  · intro other
    simp
  · intro parent name
    rw [append_cons, getOption_append, getOption_append, getOption_singleton, getOption_singleton]
    split
    · rename_i same
      obtain ⟨rfl, rfl⟩ := same
      rfl
    · rename_i differs
      rw [valueOf_of_ne differs]
      rfl
  · have none : commentLines (newSection device) = [] := by
      rw [commentLines, newSection, filter_cons_of_neg (by decide),
        filter_cons_of_neg (by simpa using not_isComment_optionLine device)]
      rfl
    rw [split, commentLines, filter_append]
    exact (congrArg _ none).trans (append_nil _)

end Adding

/-- **Setting the serial device.** For a file that Klipper can read, every update with
a device that can be read back sets the serial of `[mcu]` and nothing else exactly if
the line that is replaced, if there is one, is the serial's own. -/
theorem serial_update_iff {file : Text} {before : List Item} (parses : parse file = some before) :
    (∀ device new, Readable serial device → updateConfigFile device file = some new →
        SetsSerial file before device new) ↔
      ∀ front line back, SerialTarget file front line back → OwnLine before front line back := by
  constructor
  · intro sets front line back target
    exact OwnLine.of_sets target parses sets
  · intro owns device new readable updates
    cases found : locateSerial (fileLines file) with
    | some index =>
      obtain ⟨front, line, back, split, rfl, -⟩ := pieces_replaced file (locateSerial_lt found)
        (not_mem_nil) (not_mem_nil)
      have target : SerialTarget file front line back := ⟨split, found⟩
      exact (owns front line back target).sets target parses readable updates
    | none =>
      rw [updateConfigFile] at updates
      split at updates
      · cases updates
      · dsimp only at updates
        rw [found] at updates
        dsimp only at updates
        split at updates
        · cases updates
        · cases updates
          exact setsSerial_added parses readable (pieces_added file readable.1 readable.2.1)

def deviceConfig : Text := "[mcu TOOL]\ncanbus_uuid: 70e5\n\n[mcu]\nserial: /dev/a\n".toList

def deviceItems : List Item :=
  [.header "mcu TOOL".toList, .option "mcu TOOL".toList canbusUuid "70e5".toList, .header mcu]

theorem device_ownLine {front back : List Text} {line : Text}
    (target : SerialTarget deviceConfig front line back) :
    OwnLine (deviceItems ++ [.option mcu serial "/dev/a".toList]) front line back := by
  obtain ⟨split, found⟩ := target
  have isFound : locateSerial (fileLines deviceConfig) = some 4 := by decide +kernel
  have place : front.length = 4 := some.inj (found.symm.trans isFound)
  have lines : pieces deviceConfig = ["[mcu TOOL]".toList, "canbus_uuid: 70e5".toList, [], "[mcu]".toList] ++
      "serial: /dev/a".toList :: [[]] := by decide +kernel
  obtain ⟨rfl, rest⟩ := append_inj (split.symm.trans lines) place
  cases rest
  refine ⟨⟨⟨deviceItems, some mcu, none, 0⟩, by decide +kernel, rfl⟩,
    by simp [StartsOver, show lineValue [] = [] from rfl], ⟨Reader.within (some mcu), rfl, rfl⟩, by decide +kernel,
    deviceItems, by decide +kernel, ?_, ?_⟩
  · intro other
    simp [deviceItems]
  · intro otherParent other differs
    rw [getOption_append, getOption_singleton, valueOf_of_ne differs, none_or]

/-- Such a file is updated as it should be. -/
theorem serial_update_device :
    parse deviceConfig = some (deviceItems ++ [.option mcu serial "/dev/a".toList]) ∧
      ∀ device new, Readable serial device → updateConfigFile device deviceConfig = some new →
        SetsSerial deviceConfig (deviceItems ++ [.option mcu serial "/dev/a".toList]) device new := by
  have parses : parse deviceConfig = some (deviceItems ++ [.option mcu serial "/dev/a".toList]) := by
    decide +kernel
  exact ⟨parses, (serial_update_iff parses).mpr (fun _ _ _ target => device_ownLine target)⟩

/-- A main board without a serial line, and no blank line before the next section. -/
def adjacentConfig : Text := "[mcu]\nbaud: 1\n[x]\nserial: /b\n".toList

/-- **The serial of another section is replaced.** -/
theorem serial_update_adjacent :
    ∃ before new, parse adjacentConfig = some before ∧ Readable serial "/a".toList ∧
      updateConfigFile "/a".toList adjacentConfig = some new ∧
      ¬ SetsSerial adjacentConfig before "/a".toList new := by
  refine ⟨[.header mcu, .option mcu "baud".toList "1".toList, .header "x".toList,
      .option "x".toList serial "/b".toList], "[mcu]\nbaud: 1\n[x]\nserial: /a\n".toList,
    by decide +kernel, by decide, by decide +kernel, ?_⟩
  rintro ⟨⟨after, parses, -, values⟩, -⟩
  have unset : (parse "[mcu]\nbaud: 1\n[x]\nserial: /a\n".toList).map
      (fun items => getOption items mcu serial) = some none := by decide +kernel
  rw [parses, map_some, values, if_pos ⟨rfl, rfl⟩] at unset
  cases unset

end MagnetoX.Manager
