import MagnetoX.Manager.Locating

/-!
Owns what an update of the CAN uuid does to the config file as Klipper reads it. The
first line with the word in it is replaced, be it a comment; the parser takes the last
one that is no comment.
-/

namespace MagnetoX.Manager

open Host.ConfigFile List Option

def valueNamed (name : Text) : Item → Option Text
  | .header _ => none
  | .option _ itemName value => if itemName = name then some value else none

theorem valueNamed_own (parent name value : Text) : valueNamed name (.option parent name value) = some value :=
  if_pos rfl

def lastNamed (items : List Item) (name : Text) : Option Text :=
  (items.filterMap (valueNamed name)).getLast?

/-- The uuid is the one that is read in the new file, in which one line was replaced. -/
structure SetsUuid (file uuid new : Text) : Prop where
  effective : ∃ items, parse new = some items ∧ lastNamed items canbusUuid = some uuid
  lines : ∃ front line back, pieces file = front ++ line :: back ∧
    pieces new = front ++ optionLine canbusUuid uuid :: ended back

/-- The line that an update replaces, and the lines around it. -/
def UuidTarget (file : Text) (front : List Text) (line : Text) (back : List Text) : Prop :=
  pieces file = front ++ line :: back ∧ locateUuid (fileLines file) = some front.length

/-- A line between these is read in a section, no value goes on behind it, and no
other uuid follows. -/
structure ReadLast (front back : List Text) : Prop where
  startsOver : StartsOver back
  last : ∃ reader parent later, Reader.init.readLines front = some reader ∧ reader.cursect = some parent ∧
    (Reader.within (some parent)).readLines back = some later ∧ lastNamed later.items canbusUuid = none

section Replacing

variable {file uuid new : Text} {front back : List Text} {line parent : Text} {reader : Reader}

theorem canbusUuid_plain : Plain canbusUuid := ⟨'c', rfl, by decide, by decide, by decide, by decide⟩

theorem modifyConfigFile_target (target : UuidTarget file front line back) (readable : Readable canbusUuid uuid) :
    ∃ new, modifyConfigFile uuid file = some new ∧
      pieces new = front ++ optionLine canbusUuid uuid :: ended back := by
  obtain ⟨split, found⟩ := target
  refine ⟨_, ?_, pieces_replaced_at split (locateUuid_lt found)
    (not_mem_optionLine (by decide) readable.1) (not_mem_optionLine (by decide) readable.2.1)⟩
  rw [modifyConfigFile, found]
  rfl

theorem lastNamed_replaced (earlier later : List Item) :
    lastNamed (earlier ++ newItem parent canbusUuid uuid back :: later) canbusUuid =
      (lastNamed later canbusUuid).or (some (newValue uuid back)) := by
  rw [lastNamed, filterMap_append, newItem, filterMap_cons_some (valueNamed_own _ _ _), ← singleton_append,
    ← append_assoc, getLast?_append, getLast?_concat]
  rfl

theorem ReadLast.of_sets (target : UuidTarget file front line back)
    (sets : ∀ uuid new, Readable canbusUuid uuid → modifyConfigFile uuid file = some new →
      SetsUuid file uuid new) : ReadLast front back := by
  have readableFirst : Readable canbusUuid "a".toList := by decide
  have readableSecond : Readable canbusUuid "b".toList := by decide
  obtain ⟨first, modifiesFirst, splitFirst⟩ := modifyConfigFile_target target readableFirst
  obtain ⟨second, modifiesSecond, splitSecond⟩ := modifyConfigFile_target target readableSecond
  obtain ⟨itemsFirst, parsesFirst, effectiveFirst⟩ := (sets _ first readableFirst modifiesFirst).effective
  obtain ⟨itemsSecond, parsesSecond, effectiveSecond⟩ := (sets _ second readableSecond modifiesSecond).effective
  obtain ⟨reader, parent, reads, inside⟩ := exists_reader canbusUuid_plain splitFirst parsesFirst
  rw [parse_replaced canbusUuid_plain splitFirst reads inside readableFirst] at parsesFirst
  rw [parse_replaced canbusUuid_plain splitSecond reads inside readableSecond] at parsesSecond
  obtain ⟨later, readsLater, rfl⟩ := map_eq_some_iff.mp parsesFirst
  rw [readsLater] at parsesSecond
  cases parsesSecond
  rw [lastNamed_replaced] at effectiveFirst effectiveSecond
  cases last : lastNamed later.items canbusUuid with
  | some value =>
    rw [last] at effectiveFirst effectiveSecond
    exact absurd (some.inj (effectiveFirst.symm.trans effectiveSecond)) (by decide)
  | none =>
    rw [last, none_or] at effectiveFirst
    have startsOver : StartsOver back := (newValue_eq_iff readableFirst).mp (some.inj effectiveFirst)
    rw [readBehind_of_startsOver parent startsOver] at readsLater
    exact ⟨startsOver, reader, parent, later, reads, inside, readsLater, last⟩

theorem ReadLast.sets (isLast : ReadLast front back) (target : UuidTarget file front line back)
    (readable : Readable canbusUuid uuid) (modifies : modifyConfigFile uuid file = some new) :
    SetsUuid file uuid new := by
  obtain ⟨written, modifiesTo, split⟩ := modifyConfigFile_target target readable
  cases modifies.symm.trans modifiesTo
  obtain ⟨startsOver, reader, parent, later, reads, inside, readsLater, last⟩ := isLast
  have parsesNew := parse_replaced canbusUuid_plain split reads inside readable
  rw [readBehind_of_startsOver parent startsOver, readsLater] at parsesNew
  refine ⟨⟨_, parsesNew, ?_⟩, front, line, back, target.1, split⟩
  rw [lastNamed_replaced, last, none_or, (newValue_eq_iff readable).mpr startsOver]

end Replacing

/-- **Setting the CAN uuid.** Every uuid that can be read back takes effect exactly if
the line that is replaced, if there is one, is read in a section, is not continued and
has no other uuid behind it. -/
theorem uuid_update_iff (file : Text) :
    (∀ uuid new, Readable canbusUuid uuid → modifyConfigFile uuid file = some new → SetsUuid file uuid new) ↔
      ∀ front line back, UuidTarget file front line back → ReadLast front back := by
  constructor
  · intro sets front line back target
    exact ReadLast.of_sets target sets
  · intro lasts uuid new readable modifies
    obtain ⟨index, found, -⟩ := map_eq_some_iff.mp modifies
    obtain ⟨front, line, back, split, rfl, -⟩ := pieces_replaced file (locateUuid_lt found)
      not_mem_nil nofun
    have target : UuidTarget file front line back := ⟨split, found⟩
    exact (lasts front line back target).sets target readable modifies

def commentedConfig : Text := "[mcu t]\n#canbus_uuid: a\ncanbus_uuid: b\n".toList

/-- **The comment is replaced, and the old uuid stays in use.** -/
theorem uuid_update_comment :
    ∃ new, Readable canbusUuid "c".toList ∧ modifyConfigFile "c".toList commentedConfig = some new ∧
      ¬ SetsUuid commentedConfig "c".toList new := by
  refine ⟨"[mcu t]\ncanbus_uuid: c\ncanbus_uuid: b\n".toList, by decide, by decide +kernel, ?_⟩
  rintro ⟨⟨items, parses, effective⟩, -⟩
  have stays : (parse "[mcu t]\ncanbus_uuid: c\ncanbus_uuid: b\n".toList).map
      (fun items => lastNamed items canbusUuid) = some (some "b".toList) := by decide +kernel
  rw [parses, map_some, effective] at stays
  exact absurd stays (by decide)

end MagnetoX.Manager
