import Mathlib.Data.List.DropRight
import Mathlib.Data.List.Flatten

/-!
Owns text as lines over any alphabet: lines that a mark closes, the lines of a
text, and how a reader that gets the text in chunks puts lines together with
the unfinished line it carries from one chunk to the next.
-/

namespace MagnetoX.Library.Lines

open List

universe u

variable {α : Type u}

def closed (mark : α) (lines : List (List α)) : List α :=
  lines.flatMap (fun line => line ++ [mark])

@[simp] theorem closed_nil (mark : α) : closed mark [] = [] := rfl

@[simp] theorem closed_cons (mark : α) (line : List α) (lines : List (List α)) :
    closed mark (line :: lines) = line ++ mark :: closed mark lines := by
  simp [closed]

@[simp] theorem closed_append (mark : α) (front back : List (List α)) :
    closed mark (front ++ back) = closed mark front ++ closed mark back :=
  flatMap_append

variable {mark symbol : α} {lines : List (List α)} {rest : List α}

theorem forall_mem_closed {property : α → Prop} (holds : property mark) :
    (∀ symbol ∈ closed mark lines, property symbol) ↔
      ∀ line ∈ lines, ∀ symbol ∈ line, property symbol := by
  induction lines with
  | nil => simp
  | cons line lines ih =>
    rw [closed_cons, forall_mem_append, forall_mem_cons, ih, forall_mem_cons]
    simp [holds]

theorem intercalate_concat (mark : α) (lines : List (List α)) (last : List α) :
    [mark].intercalate (lines ++ [last]) = closed mark lines ++ last := by
  induction lines with
  | nil => simp
  | cons line lines ih =>
    rw [cons_append, intercalate_cons_of_ne_nil (by simp), ih]
    simp

theorem mem_of_mem_intercalate (member : symbol ∈ [mark].intercalate lines) :
    symbol = mark ∨ ∃ line ∈ lines, symbol ∈ line := by
  cases lines using reverseRecOn with
  | nil => simp at member
  | append_singleton lines last =>
    rw [intercalate_concat, mem_append, closed, mem_flatMap] at member
    grind

theorem mem_intercalate_of_mem {line : List α} (isLine : line ∈ lines)
    (member : symbol ∈ line) : symbol ∈ [mark].intercalate lines := by
  cases lines using reverseRecOn with
  | nil => cases isLine
  | append_singleton lines last =>
    rw [intercalate_concat, mem_append, closed, mem_flatMap]
    grind

def Unbroken (mark : α) (lines : List (List α)) : Prop :=
  ∀ line ∈ lines, mark ∉ line

@[simp] theorem unbroken_nil (mark : α) : Unbroken mark [] := by simp [Unbroken]

@[simp] theorem unbroken_cons {line : List α} :
    Unbroken mark (line :: lines) ↔ mark ∉ line ∧ Unbroken mark lines :=
  forall_mem_cons

@[simp] theorem unbroken_append {front back : List (List α)} :
    Unbroken mark (front ++ back) ↔ Unbroken mark front ∧ Unbroken mark back :=
  forall_mem_append

def Terminated (mark : α) (text : List α) : Prop :=
  ∀ final ∈ text.getLast?, final = mark

instance (mark : α) [DecidableEq α] (text : List α) : Decidable (Terminated mark text) :=
  inferInstanceAs (Decidable (∀ final ∈ text.getLast?, final = mark))

/-- Only an empty rest leaves a text closed. -/
theorem terminated_closed_append (whole : mark ∉ rest) :
    Terminated mark (closed mark lines ++ rest) ↔ rest = [] := by
  constructor
  · intro terminated
    by_contra more
    apply whole
    rw [← terminated (rest.getLast more) (by simp [getLast?_append, getLast?_eq_some_getLast more])]
    exact getLast_mem more
  · rintro rfl final isLast
    cases lines using reverseRecOn with
    | nil => simp at isLast
    | append_singleton front line => simpa using isLast.symm

variable [DecidableEq α] {text : List α}

theorem splitOn_closed_append (unbroken : Unbroken mark lines) (whole : mark ∉ rest) :
    (closed mark lines ++ rest).splitOn mark = lines ++ [rest] := by
  induction lines with
  | nil => exact splitOn_eq_singleton whole
  | cons line lines ih =>
    obtain ⟨isWhole, unbroken⟩ := unbroken_cons.mp unbroken
    rw [closed_cons, append_assoc, cons_append,
      splitOn_append_cons_self_of_not_mem isWhole, ih unbroken, cons_append]

/-- Every text is closed lines and an unfinished one. -/
theorem exists_closed_append (mark : α) (text : List α) :
    ∃ lines rest, Unbroken mark lines ∧ mark ∉ rest ∧ text = closed mark lines ++ rest := by
  induction text with
  | nil => exact ⟨[], [], by simp, by simp, rfl⟩
  | cons symbol text ih =>
    obtain ⟨lines, rest, unbroken, whole, rfl⟩ := ih
    by_cases isMark : symbol = mark
    · exact ⟨[] :: lines, rest, by simpa using unbroken, whole, by simp [isMark]⟩
    · have other : mark ≠ symbol := fun same => isMark same.symm
      cases lines with
      | nil => exact ⟨[], symbol :: rest, by simp, by simp [other, whole], rfl⟩
      | cons line lines =>
        obtain ⟨isWhole, unbroken⟩ := unbroken_cons.mp unbroken
        exact ⟨(symbol :: line) :: lines, rest, by simp [other, isWhole, unbroken], whole, by simp⟩

theorem unbroken_splitOn (mark : α) (text : List α) : Unbroken mark (text.splitOn mark) := by
  obtain ⟨lines, rest, unbroken, whole, rfl⟩ := exists_closed_append mark text
  rw [splitOn_closed_append unbroken whole, unbroken_append]
  exact ⟨unbroken, by simpa using whole⟩

theorem mem_of_mem_splitOn {piece : List α}
    (isPiece : piece ∈ text.splitOn mark) (member : symbol ∈ piece) : symbol ∈ text := by
  obtain ⟨lines, rest, unbroken, whole, rfl⟩ := exists_closed_append mark text
  rw [splitOn_closed_append unbroken whole, mem_append, mem_singleton] at isPiece
  rw [mem_append, closed, mem_flatMap]
  grind

/-- The lines of a text: what follows the last mark is a line if there is anything. -/
def linesOf (mark : α) (text : List α) : List (List α) :=
  let pieces := text.splitOn mark
  if pieces.getLast? = some [] then pieces.dropLast else pieces

theorem linesOf_closed_append (unbroken : Unbroken mark lines) (whole : mark ∉ rest) :
    linesOf mark (closed mark lines ++ rest) = if rest = [] then lines else lines ++ [rest] := by
  simp [linesOf, splitOn_closed_append unbroken whole]

/-- Lines that open a text are the first lines of it. -/
theorem prefix_linesOf (unbroken : Unbroken mark lines)
    (opens : closed mark lines <+: text) : lines <+: linesOf mark text := by
  obtain ⟨rest, rfl⟩ := opens
  obtain ⟨more, last, moreUnbroken, whole, rfl⟩ := exists_closed_append mark rest
  rw [← append_assoc, ← closed_append,
    linesOf_closed_append (unbroken_append.mpr ⟨unbroken, moreUnbroken⟩) whole]
  split
  · exact prefix_append _ _
  · rw [append_assoc]
    exact prefix_append _ _

def closedPart (mark : α) (text : List α) : List α := text.rdropWhile (· ≠ mark)

def closedLines (mark : α) (text : List α) : List (List α) := (text.splitOn mark).dropLast

section Closed

variable {mark : α}

theorem closedLines_closed_append (unbroken : Unbroken mark lines)
    (whole : mark ∉ rest) : closedLines mark (closed mark lines ++ rest) = lines := by
  rw [closedLines, splitOn_closed_append unbroken whole, dropLast_concat]

theorem closedPart_concat_mark (text : List α) : closedPart mark (text ++ [mark]) = text ++ [mark] :=
  rdropWhile_concat_neg _ _ _ (by simp)

theorem closedPart_concat_of_ne (text : List α) {last : α} (other : last ≠ mark) :
    closedPart mark (text ++ [last]) = closedPart mark text :=
  rdropWhile_concat_pos _ _ _ (by simp [other])

theorem closedPart_append (front back : List α) :
    closedPart mark (front ++ back) = if mark ∈ back then front ++ closedPart mark back else closedPart mark front := by
  induction back using reverseRecOn with
  | nil => simp
  | append_singleton back last ih =>
    rw [← append_assoc]
    by_cases isMark : last = mark
    · rw [isMark, closedPart_concat_mark, closedPart_concat_mark, if_pos (by simp), append_assoc]
    · have other : mark ≠ last := fun same => isMark same.symm
      rw [closedPart_concat_of_ne _ isMark, closedPart_concat_of_ne _ isMark, ih]
      simp [other]

theorem closedPart_eq_nil : closedPart mark text = [] ↔ mark ∉ text := by
  rw [closedPart, rdropWhile_eq_nil_iff]
  grind

theorem closedPart_closed_append (lines : List (List α)) (whole : mark ∉ rest) :
    closedPart mark (closed mark lines ++ rest) = closed mark lines := by
  rw [closedPart_append, if_neg whole]
  cases lines using reverseRecOn with
  | nil => rfl
  | append_singleton front line =>
    rw [closed_append, closed_cons, closed_nil, ← append_assoc, closedPart_concat_mark]

/-- The closed lines are known from the closed part. -/
theorem closedLines_eq_iff (first second : List α) :
    closedLines mark first = closedLines mark second ↔ closedPart mark first = closedPart mark second := by
  obtain ⟨lines, rest, unbroken, whole, rfl⟩ := exists_closed_append mark first
  obtain ⟨others, end_, unbrokenOthers, wholeEnd, rfl⟩ := exists_closed_append mark second
  rw [closedLines_closed_append unbroken whole, closedLines_closed_append unbrokenOthers wholeEnd,
    closedPart_closed_append lines whole, closedPart_closed_append others wholeEnd]
  refine ⟨congrArg _, fun same => ?_⟩
  have splits := congrArg (fun text => closedLines mark (text ++ [])) same
  simpa only [closedLines_closed_append unbroken not_mem_nil,
    closedLines_closed_append unbrokenOthers not_mem_nil] using splits

theorem length_closedPart_le (text : List α) : (closedPart mark text).length ≤ text.length :=
  (List.rdropWhile_prefix _ _).length_le

/-- A mark behind closes everything in front of it. -/
theorem length_lt_closedPart_append (front : List α) {back : List α} (hasMark : mark ∈ back) :
    front.length < (closedPart mark (front ++ back)).length := by
  have filled : closedPart mark back ≠ [] := fun empty => closedPart_eq_nil.mp empty hasMark
  have positive := length_pos_iff.mpr filled
  rw [closedPart_append, if_pos hasMark, length_append]
  omega

theorem length_closedPart_le_of_sublist {first second : List α} (sublist : first.Sublist second) :
    (closedPart mark first).length ≤ (closedPart mark second).length := by
  induction sublist with
  | slnil => exact le_rfl
  | @cons first second symbol sublist ih =>
    refine ih.trans ?_
    rw [← singleton_append, closedPart_append]
    split
    · simp
    case isFalse whole => simp [closedPart_eq_nil.mpr whole]
  | @cons_cons first second symbol sublist ih =>
    rw [← singleton_append, ← singleton_append (l := second)]
    by_cases inSecond : mark ∈ second
    · by_cases inFirst : mark ∈ first
      · rw [closedPart_append, closedPart_append, if_pos inFirst, if_pos inSecond]
        simpa using ih
      · rw [closedPart_append _ first, if_neg inFirst]
        exact (length_closedPart_le [symbol]).trans (length_lt_closedPart_append [symbol] inSecond).le
    · rw [closedPart_append, closedPart_append, if_neg inSecond,
        if_neg (fun inFirst => inSecond (sublist.subset inFirst))]

theorem closedPart_append_eq_iff (front : List α) {first second : List α} (sublist : first.Sublist second) :
    closedPart mark (front ++ first) = closedPart mark (front ++ second) ↔
      closedPart mark first = closedPart mark second := by
  by_cases inFirst : mark ∈ first
  · rw [closedPart_append, closedPart_append, if_pos inFirst, if_pos (sublist.subset inFirst), append_right_inj]
  by_cases inSecond : mark ∈ second
  · have longer := length_lt_closedPart_append front inSecond
    have short : (closedPart mark front).length ≤ front.length := length_closedPart_le front
    rw [closedPart_append _ first, if_neg inFirst, closedPart_eq_nil.mpr inFirst]
    refine iff_of_false (fun same => ?_) (fun same => closedPart_eq_nil.mp same.symm inSecond)
    rw [← same] at longer
    omega
  · rw [closedPart_append, closedPart_append, if_neg inFirst, if_neg inSecond, closedPart_eq_nil.mpr inFirst,
      closedPart_eq_nil.mpr inSecond]
    simp

/-- A part in front is only dropped unseen if nothing is closed. -/
theorem closedPart_eq_append_iff {part first second : List α} (filled : part ≠ []) (sublist : first.Sublist second) :
    closedPart mark first = closedPart mark (part ++ second) ↔ mark ∉ part ++ second := by
  constructor
  · intro same hasMark
    by_cases inSecond : mark ∈ second
    · have shorter : (closedPart mark first).length ≤ (closedPart mark second).length :=
        length_closedPart_le_of_sublist sublist
      have positive := length_pos_iff.mpr filled
      rw [same, closedPart_append, if_pos inSecond, length_append] at shorter
      omega
    · rw [closedPart_eq_nil.mpr (fun inFirst => inSecond (sublist.subset inFirst))] at same
      exact closedPart_eq_nil.mp same.symm hasMark
  · intro whole
    rw [closedPart_eq_nil.mpr whole, closedPart_eq_nil]
    exact fun inFirst => whole (mem_append_right _ (sublist.subset inFirst))

/-- **Parts that are dropped.** If parts of a text are dropped, none of them empty, its
closed part stays the same exactly if they have no mark in them and none behind. -/
theorem closedPart_filter_iff (keep : List α → Bool) {parts : List (List α)}
    (filled : ∀ part ∈ parts, keep part = false → part ≠ []) :
    closedPart mark (parts.filter keep).flatten = closedPart mark parts.flatten ↔
      ∀ front part back, parts = front ++ part :: back → keep part = false → mark ∉ part ++ back.flatten := by
  induction parts with
  | nil => simp
  | cons part parts ih =>
    rw [forall_mem_cons] at filled
    have shorter : (parts.filter keep).flatten.Sublist parts.flatten := Sublist.flatten filter_sublist
    have split : (∀ front other back, part :: parts = front ++ other :: back → keep other = false →
        mark ∉ other ++ back.flatten) ↔
        (keep part = false → mark ∉ part ++ parts.flatten) ∧
          ∀ front other back, parts = front ++ other :: back → keep other = false →
            mark ∉ other ++ back.flatten := by
      constructor
      · intro all
        exact ⟨all [] part parts rfl, fun front other back same => all (part :: front) other back (by rw [same]; rfl)⟩
      · rintro ⟨first, rest⟩ front other back same
        cases front with
        | nil =>
          cases same
          exact first
        | cons head front =>
          cases same
          exact rest front other back rfl
    rw [split, ← ih filled.2]
    cases kept : keep part with
    | true =>
      rw [filter_cons_of_pos kept, flatten_cons, flatten_cons, closedPart_append_eq_iff part shorter]
      simp
    | false =>
      rw [filter_cons_of_neg (by simp [kept]), flatten_cons,
        closedPart_eq_append_iff (filled.1 kept) shorter]
      refine ⟨fun whole => ⟨fun _ => whole, ?_⟩, fun both => both.1 rfl⟩
      have wholeRest : mark ∉ parts.flatten := fun member => whole (mem_append_right _ member)
      rw [closedPart_eq_nil.mpr wholeRest, closedPart_eq_nil]
      exact fun member => wholeRest (shorter.subset member)

end Closed

/-- A chunk arrives while `carried` is unfinished: the lines it closes and what
is unfinished after it. -/
def feed (mark : α) (carried chunk : List α) : List (List α) × List α :=
  let pieces := (chunk.splitOn mark).modifyHead (carried ++ ·)
  (pieces.dropLast, pieces.getLast?.getD [])

/-- Nothing is lost between chunks. -/
theorem feed_spec {carried : List α} (chunk : List α) (whole : mark ∉ carried) :
    Unbroken mark (feed mark carried chunk).1 ∧ mark ∉ (feed mark carried chunk).2 ∧
      closed mark (feed mark carried chunk).1 ++ (feed mark carried chunk).2 = carried ++ chunk := by
  obtain ⟨lines, rest, unbroken, restWhole, rfl⟩ := exists_closed_append mark chunk
  rw [feed, splitOn_closed_append unbroken restWhole]
  cases lines with
  | nil => simp [whole, restWhole]
  | cons line lines =>
    obtain ⟨isWhole, unbroken⟩ := unbroken_cons.mp unbroken
    rw [cons_append, modifyHead_cons, ← cons_append, dropLast_concat,
      getLast?_concat]
    simp [whole, isWhole, unbroken, restWhole]

end MagnetoX.Library.Lines
