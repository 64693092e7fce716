import MagnetoX.Host.ConfigFile.Autosave

/-!
Owns how Klipper reads a config file: `_parse_config` cuts each line at a `#`, and
`configparser.RawConfigParser` reads what is left, line by line. The parser of the
standard library is the reference here: it is given as it reads with `strict=False`,
`inline_comment_prefixes=(';', '#')` and its other defaults.

A file is read as the list of its section headers and options in order. The value of
an option is the one that was read last. The section `DEFAULT` and the lines that
include other files are read as sections like all others.
-/

namespace MagnetoX.Host.ConfigFile

open Library.Lines Library.Search List Option

def uncommented (line : Text) : Text := line.takeWhile (· ≠ '#')

/-- A semicolon starts a comment at the start of the line and behind white space. -/
def cutSemicolon : Bool → Text → Text
  | _, [] => []
  | afterSpace, c :: line =>
      if c = ';' ∧ afterSpace then [] else c :: cutSemicolon (isSpace c) line

/-- `line[:comment_start]`. -/
def beforeComment (line : Text) : Text := cutSemicolon true (uncommented line)

def lineValue (line : Text) : Text := strip isSpace (beforeComment line)

/-- `cur_indent_level`. -/
def lineIndent (line : Text) : Nat := ((uncommented line).takeWhile isSpace).length

/-- `SECTCRE`. -/
def parseHeader : Text → Option Text
  | '[' :: rest =>
      let header := ((rest.reverse.dropWhile (· ≠ ']')).drop 1).reverse
      if header = [] then none else some header
  | _ => none

/-- `OPTCRE`, with the name of the option in lower case. -/
def parseOption (value : Text) : Option (Text × Text) :=
  let name := rstrip isSpace (value.takeWhile (fun c => c ≠ '=' ∧ c ≠ ':'))
  match value.dropWhile (fun c => c ≠ '=' ∧ c ≠ ':') with
  | [] => none
  | _ :: rest => if name = [] then none else some (optionxform name, strip isSpace rest)

inductive Item where
  | header (name : Text)
  | option (parent name value : Text)
deriving DecidableEq, Repr

structure Entry where
  parent : Text
  name : Text
  lines : List Text
deriving DecidableEq, Repr

def Entry.extend (entry : Entry) (more : List Text) : Entry :=
  { entry with lines := entry.lines ++ more }

/-- `_join_multiline_values`. -/
def Entry.item (entry : Entry) : Item :=
  .option entry.parent entry.name (rstrip isSpace (['\n'].intercalate entry.lines))

/-- The variables of `_read`. -/
structure Reader where
  /-- What was read before the current option. -/
  done : List Item
  cursect : Option Text
  /-- The option `optname` of `cursect`, which further lines may continue. -/
  current : Option Entry
  indentLevel : Nat
deriving DecidableEq, Repr

def Reader.init : Reader := ⟨[], none, none, 0⟩

def Reader.items (reader : Reader) : List Item :=
  reader.done ++ (reader.current.map Entry.item).toList

/-- The line goes on with the value of the current option. -/
def Reader.extend (reader : Reader) (value : Text) : Reader :=
  { reader with current := reader.current.map (fun entry => entry.extend [value]) }

/-- The line starts a section or an option; `none` stands for a parsing error. -/
def Reader.start (reader : Reader) (indent : Nat) (value : Text) : Option Reader :=
  match parseHeader value with
  | some name => some ⟨reader.items ++ [.header name], some name, none, indent⟩
  | none =>
      match reader.cursect, parseOption value with
      | some parent, some (name, optval) =>
          some ⟨reader.items, some parent, some ⟨parent, name, [optval]⟩, indent⟩
      | _, _ => none

def Reader.readLine (reader : Reader) (line : Text) : Option Reader :=
  if lineValue line = [] then
    -- an empty line belongs to the value, but only if there was no comment on the line
    if (beforeComment line).length < (uncommented line).length then some reader
    else some (reader.extend [])
  else if reader.current.isSome ∧ lineIndent line > reader.indentLevel then
    some (reader.extend (lineValue line))
  else reader.start (lineIndent line) (lineValue line)

def Reader.readLines : Reader → List Text → Option Reader
  | reader, [] => some reader
  | reader, line :: lines => (reader.readLine line).bind (fun reader => reader.readLines lines)

def parseLines (lines : List Text) : Option (List Item) :=
  (Reader.init.readLines lines).map Reader.items

/-- What Klipper reads in a file; `none` if it reports an error. -/
def parse (file : Text) : Option (List Item) := parseLines ((readConfigFile file).splitOn '\n')

def Item.valueOf (parent name : Text) : Item → Option Text
  | .header _ => none
  | .option itemParent itemName value => if itemParent = parent ∧ itemName = name then some value else none

variable {value : Text}

theorem valueOf_of_ne {itemParent itemName parent name : Text}
    (differs : ¬ (parent = itemParent ∧ name = itemName)) :
    (Item.option itemParent itemName value).valueOf parent name = none :=
  if_neg (fun same => differs ⟨same.1.symm, same.2.symm⟩)

/-- The value of an option of a section: the last one. -/
def getOption (items : List Item) (parent name : Text) : Option Text :=
  (items.filterMap (Item.valueOf parent name)).getLast?

theorem getOption_append (front back : List Item) (parent name : Text) :
    getOption (front ++ back) parent name = (getOption back parent name).or (getOption front parent name) := by
  rw [getOption, filterMap_append, getLast?_append]
  rfl

theorem getOption_singleton (item : Item) (parent name : Text) :
    getOption [item] parent name = item.valueOf parent name := by
  rw [getOption, filterMap_cons]
  cases item.valueOf parent name with
  | none => rfl
  | some value => rfl

section Reading

variable {reader after : Reader} {line : Text} {lines more : List Text}

open Reader

theorem readLines_append (reader : Reader) (front back : List Text) :
    reader.readLines (front ++ back) = (reader.readLines front).bind (fun reader => reader.readLines back) := by
  induction front generalizing reader with
  | nil => rfl
  | cons line front ih =>
    rw [cons_append, readLines, readLines]
    cases reader.readLine line with
    | none => rfl
    | some after => exact ih after

structure Reader.Keeps (reader after : Reader) : Prop where
  headers : ∀ name, .header name ∈ reader.done → .header name ∈ after.done
  cursect : (∀ name ∈ reader.cursect, .header name ∈ reader.done) →
    ∀ name ∈ after.cursect, .header name ∈ after.done

theorem start_keeps {indent : Nat}
    (starts : reader.start indent value = some after) : reader.Keeps after := by
  have kept (name : Text) (isDone : .header name ∈ reader.done) : .header name ∈ reader.items :=
    mem_append_left _ isDone
  unfold start at starts
  split at starts
  · rename_i header _
    cases starts
    refine ⟨fun name isDone => mem_append_left _ (kept name isDone), ?_⟩
    rintro - name isName
    cases isName
    exact mem_append_right _ (.head _)
  · split at starts
    · rename_i inside _
      cases starts
      refine ⟨kept, ?_⟩
      intro begins name isName
      cases isName
      exact kept _ (begins _ inside)
    · cases starts

theorem readLine_keeps (reads : reader.readLine line = some after) : reader.Keeps after := by
  unfold readLine at reads
  split at reads
  · split at reads
    · cases reads
      exact ⟨fun _ => id, id⟩
    · cases reads
      exact ⟨fun _ => id, id⟩
  · split at reads
    · cases reads
      exact ⟨fun _ => id, id⟩
    · exact start_keeps reads

theorem readLines_keeps (reads : reader.readLines lines = some after) : reader.Keeps after := by
  induction lines generalizing reader with
  | nil =>
    cases reads
    exact ⟨fun _ => id, id⟩
  | cons line lines ih =>
    obtain ⟨middle, first, rest⟩ := bind_eq_some_iff.mp reads
    have keepsFirst := readLine_keeps first
    have keepsRest := ih rest
    exact ⟨fun name isDone => keepsRest.headers name (keepsFirst.headers name isDone),
      fun begins => keepsRest.cursect (keepsFirst.cursect begins)⟩

/-- What was read before only stands in front. -/
def Reader.behind (earlier : List Item) (reader : Reader) : Reader :=
  { reader with done := earlier ++ reader.done }

@[simp] theorem items_behind (earlier : List Item) (reader : Reader) :
    (reader.behind earlier).items = earlier ++ reader.items := by
  simp [items, behind]

theorem start_behind (earlier : List Item) (reader : Reader) (indent : Nat) (value : Text) :
    (reader.behind earlier).start indent value = (reader.start indent value).map (behind earlier) := by
  unfold start
  cases parseHeader value with
  | some name => simp [behind, items]
  | none =>
    rw [items_behind]
    change (match reader.cursect, parseOption value with
      | some parent, some (name, optval) => _
      | _, _ => _) = _
    cases reader.cursect with
    | none => rfl
    | some parent =>
      cases parseOption value with
      | none => rfl
      | some pair => rfl

theorem readLine_behind (earlier : List Item) (reader : Reader) (line : Text) :
    (reader.behind earlier).readLine line = (reader.readLine line).map (behind earlier) := by
  unfold readLine
  split
  · split
    · rfl
    · rfl
  · rw [start_behind]
    change (if reader.current.isSome ∧ lineIndent line > reader.indentLevel then _ else _) = _
    split
    · rfl
    · rfl

theorem readLines_behind (earlier : List Item) (reader : Reader) (lines : List Text) :
    (reader.behind earlier).readLines lines = (reader.readLines lines).map (behind earlier) := by
  induction lines generalizing reader with
  | nil => rfl
  | cons line lines ih =>
    rw [readLines, readLines, readLine_behind]
    cases reader.readLine line with
    | none => rfl
    | some after => exact ih after

def Reader.within (cursect : Option Text) : Reader := ⟨[], cursect, none, 0⟩

/-- A line that starts a section or an option closes the current option. -/
theorem start_eq (reader : Reader) (indent : Nat) (value : Text) :
    reader.start indent value =
      ((within reader.cursect).start indent value).map (behind reader.items) := by
  unfold start
  cases parseHeader value with
  | some name => rfl
  | none =>
    dsimp only [within]
    cases reader.cursect with
    | none => rfl
    | some parent =>
      cases parseOption value with
      | none => rfl
      | some pair => simp [behind, items]

theorem readLine_start (value : lineValue line ≠ []) (column : lineIndent line = 0) :
    reader.readLine line = reader.start 0 (lineValue line) := by
  rw [readLine, if_neg value, if_neg (fun continues => by omega), column]

theorem item_extend_nil (entry : Entry) : (entry.extend [[]]).item = entry.item := by
  rw [Entry.item, Entry.item, Entry.extend]
  rw [intercalate_concat, append_nil]
  cases entry.lines using reverseRecOn with
  | nil => rfl
  | append_singleton front last =>
    rw [intercalate_concat, closed_append, closed_cons, closed_nil, ← append_assoc, rstrip_append,
      if_pos (by decide)]

theorem items_extend_nil (reader : Reader) : (reader.extend []).items = reader.items := by
  unfold items extend
  cases reader.current with
  | none => rfl
  | some entry =>
    dsimp only [Option.map]
    rw [item_extend_nil]

/-- Behind blank lines the next line starts at the first column. -/
def StartsOver : List Text → Prop
  | [] => True
  | line :: lines => if lineValue line = [] then StartsOver lines else lineIndent line = 0

theorem readLine_blank (reader : Reader) (blank : lineValue line = []) :
    ∃ after, reader.readLine line = some after ∧ after.items = reader.items ∧
      after.cursect = reader.cursect := by
  rw [readLine, if_pos blank]
  split
  · exact ⟨reader, rfl, rfl, rfl⟩
  · exact ⟨_, rfl, items_extend_nil reader, rfl⟩

theorem readLine_blank_within (cursect : Option Text) (blank : lineValue line = []) :
    (within cursect).readLine line = some (within cursect) := by
  rw [readLine, if_pos blank]
  split
  · rfl
  · rfl

/-- Lines that start over are read as if they were alone in their section. -/
theorem readLines_startsOver (reader : Reader) (startsOver : StartsOver lines) :
    (reader.readLines lines).map items =
      ((within reader.cursect).readLines lines).map (fun after => reader.items ++ after.items) := by
  induction lines generalizing reader with
  | nil => simp [readLines, within, items]
  | cons line lines ih =>
    rw [StartsOver] at startsOver
    rw [readLines, readLines]
    split at startsOver
    · rename_i blank
      obtain ⟨after, reads, sameItems, sameSection⟩ := readLine_blank reader blank
      rw [reads, readLine_blank_within _ blank, bind_some, bind_some,
        ih after startsOver, sameItems, sameSection]
    · rename_i value
      rw [readLine_start value startsOver, readLine_start value startsOver, start_eq]
      cases (within reader.cursect).start 0 (lineValue line) with
      | none => rfl
      | some after =>
        rw [map_some, bind_some, bind_some, readLines_behind, Option.map_map]
        exact congrArg (fun show_ => Option.map show_ _) (funext (items_behind _))

/-- The lines that go on with a value that started at the first column, and the lines
behind them. -/
def continued : List Text → List Text × List Text
  | [] => ([], [])
  | line :: lines =>
      if lineValue line = [] then
        if (beforeComment line).length < (uncommented line).length then continued lines
        else ([] :: (continued lines).1, (continued lines).2)
      else if lineIndent line > 0 then (lineValue line :: (continued lines).1, (continued lines).2)
      else ([], line :: lines)

theorem readLines_option (earlier : List Item) (entry : Entry) (lines : List Text) :
    ((⟨earlier, some entry.parent, some entry, 0⟩ : Reader).readLines lines).map items =
      ((within (some entry.parent)).readLines (continued lines).2).map
        (fun after => earlier ++ (entry.extend (continued lines).1).item :: after.items) := by
  induction lines generalizing entry with
  | nil => simp [readLines, continued, items, Entry.extend, within]
  | cons line lines ih =>
    have extends_ (value : Text) (more : List Text) :
        (entry.extend [value]).extend more = entry.extend (value :: more) := by
      simp [Entry.extend]
    rw [continued]
    split
    · rename_i blank
      split
      · rename_i commented
        rw [readLines, readLine, if_pos blank, if_pos commented]
        exact ih entry
      · rename_i bare
        rw [readLines, readLine, if_pos blank, if_neg bare, ← extends_]
        exact ih (entry.extend [[]])
    · rename_i value
      split
      · rename_i indented
        rw [readLines, readLine, if_neg value, if_pos ⟨rfl, indented⟩, ← extends_]
        exact ih (entry.extend [lineValue line])
      · rename_i column
        have startsOver : StartsOver (line :: lines) := by
          rw [StartsOver, if_neg value]
          omega
        rw [readLines_startsOver _ startsOver]
        simp [items, Entry.extend]

theorem continued_blank_iff (lines : List Text) :
    (∀ value ∈ (continued lines).1, value = []) ↔ StartsOver lines := by
  induction lines with
  | nil => simp [continued, StartsOver]
  | cons line lines ih =>
    rw [continued, StartsOver]
    split
    · split
      · exact ih
      · simpa using ih
    · rename_i value
      split
      · rename_i indented
        simp [value]
        omega
      · rename_i column
        simpa using column

/-- If only blank lines continue a value, they need not be told from what follows. -/
theorem readLines_continued (cursect : Option Text) (startsOver : StartsOver lines) :
    (within cursect).readLines (continued lines).2 = (within cursect).readLines lines := by
  induction lines with
  | nil => rfl
  | cons line lines ih =>
    rw [StartsOver] at startsOver
    rw [continued]
    split
    · rename_i blank
      rw [if_pos blank] at startsOver
      rw [readLines, readLine_blank_within _ blank, bind_some]
      split
      · exact ih startsOver
      · exact ih startsOver
    · rename_i value
      rw [if_neg value] at startsOver
      rw [if_neg (by omega)]

theorem lineValue_stripped (line : Text) (space : rstrip isSpace (lineValue line) = []) :
    lineValue line = [] := by
  rw [lineValue, strip, rstrip_rstrip] at space
  exact space

theorem continued_stripped (lines : List Text) (isValue : value ∈ (continued lines).1)
    (space : rstrip isSpace value = []) : value = [] := by
  induction lines with
  | nil => cases isValue
  | cons line lines ih =>
    rw [continued] at isValue
    split at isValue
    · split at isValue
      · exact ih isValue
      · rcases mem_cons.mp isValue with rfl | isLater
        · rfl
        · exact ih isLater
    · split at isValue
      · rcases mem_cons.mp isValue with rfl | isLater
        · exact lineValue_stripped line space
        · exact ih isLater
      · cases isValue

/-- Only blank lines leave the value of an option as its first line has it. -/
theorem joined_eq_iff (stripped : rstrip isSpace value = value)
    (values : ∀ line ∈ more, rstrip isSpace line = [] → line = []) :
    rstrip isSpace (['\n'].intercalate (value :: more)) = value ↔ ∀ line ∈ more, line = [] := by
  induction more using reverseRecOn with
  | nil => simpa using stripped
  | append_singleton more last ih =>
    rw [forall_mem_append, forall_mem_singleton] at values ⊢
    rw [← cons_append, intercalate_concat, rstrip_append]
    by_cases blank : last = []
    · rw [blank, if_pos (by decide), ← ih values.1]
      simp only [and_true]
      have same := item_extend_nil ⟨[], [], value :: more⟩
      rw [Entry.item, Entry.item, Entry.extend] at same
      rw [intercalate_concat, append_nil] at same
      rw [(Item.option.inj same).2.2]
    · rw [if_neg (fun space => blank (values.2 space))]
      simp only [blank, and_false, iff_false]
      rw [closed_cons]
      intro same
      have lengths := congrArg length same
      simp at lengths

end Reading

/-- The value is read back from a line with the option alone. -/
def Readable (name value : Text) : Prop :=
  '\n' ∉ value ∧ '\r' ∉ value ∧
    parseOption (lineValue (name ++ ": ".toList ++ value)) = some (name, value)

instance (name value : Text) : Decidable (Readable name value) := inferInstanceAs (Decidable (_ ∧ _ ∧ _))

/-- The name starts at the first column with a character that has no meaning of its own. -/
def Plain (name : Text) : Prop :=
  ∃ c ∈ name.head?, isSpace c = false ∧ c ≠ '#' ∧ c ≠ ';' ∧ c ≠ '['

section Written

variable {name parent : Text} {reader : Reader}

theorem lineValue_cons {c : Char} (line : Text) (visible : isSpace c = false) (noHash : c ≠ '#')
    (noSemicolon : c ≠ ';') :
    lineIndent (c :: line) = 0 ∧ ∃ rest, lineValue (c :: line) = c :: rest := by
  have body : uncommented (c :: line) = c :: uncommented line := by simp [uncommented, noHash]
  constructor
  · rw [lineIndent, body]
    simp [visible]
  · refine ⟨rstrip isSpace (cutSemicolon (isSpace c) (uncommented line)), ?_⟩
    rw [lineValue, beforeComment, body, cutSemicolon, if_neg (fun comment => noSemicolon comment.1), strip,
      dropWhile_cons_of_neg (by simp [visible]), ← singleton_append, rstrip_append]
    split
    · rename_i empty
      rw [empty]
      simp [rstrip, visible]
    · rfl

theorem Plain.line (plain : Plain name) (value : Text) :
    lineIndent (name ++ value) = 0 ∧ lineValue (name ++ value) ≠ [] ∧
      parseHeader (lineValue (name ++ value)) = none := by
  obtain ⟨c, isHead, visible, noHash, noSemicolon, noBracket⟩ := plain
  obtain ⟨rest, rfl⟩ := head?_eq_some_iff.mp isHead
  obtain ⟨column, after, reads⟩ := lineValue_cons (rest ++ value) visible noHash noSemicolon
  rw [cons_append]
  refine ⟨column, ?_, ?_⟩
  · rw [reads]
    nofun
  · rw [reads, parseHeader]
    intro rest same
    exact noBracket (cons.inj same).1

theorem readLine_written (plain : Plain name) (readable : Readable name value)
    (inside : reader.cursect = some parent) :
    reader.readLine (name ++ ": ".toList ++ value) =
      some ⟨reader.items, some parent, some ⟨parent, name, [value]⟩, 0⟩ := by
  obtain ⟨column, isValue, noHeader⟩ := plain.line (": ".toList ++ value)
  rw [← append_assoc] at column isValue noHeader
  rw [readLine_start isValue column, Reader.start, noHeader]
  rw [inside, readable.2.2]

theorem readLine_written_none (plain : Plain name) (outside : reader.cursect = none) :
    reader.readLine (name ++ ": ".toList ++ value) = none := by
  obtain ⟨column, isValue, noHeader⟩ := plain.line (": ".toList ++ value)
  rw [← append_assoc] at column isValue noHeader
  rw [readLine_start isValue column, Reader.start, noHeader]
  rw [outside]

theorem Readable.stripped (readable : Readable name value) : rstrip isSpace value = value := by
  obtain ⟨-, -, reads⟩ := readable
  unfold parseOption at reads
  dsimp only at reads
  split at reads
  · cases reads
  · split at reads
    · cases reads
    · rw [← (Prod.mk.inj (some.inj reads)).2, strip, rstrip_rstrip]

/-- **A written option.** What is read behind it does not depend on the value. -/
theorem readLines_written (plain : Plain name) (inside : reader.cursect = some parent)
    (readable : Readable name value) (lines : List Text) :
    (reader.readLines ((name ++ ": ".toList ++ value) :: lines)).map Reader.items =
      ((Reader.within (some parent)).readLines (continued lines).2).map
        (fun after => reader.items ++
          (⟨parent, name, value :: (continued lines).1⟩ : Entry).item :: after.items) := by
  rw [Reader.readLines, readLine_written plain readable inside, bind_some]
  exact readLines_option reader.items ⟨parent, name, [value]⟩ lines

end Written

end MagnetoX.Host.ConfigFile
