import Mathlib.Data.List.DropRight
import Mathlib.Data.List.Infix

/-!
Owns two operations on texts over any alphabet: cutting a text at the first
occurrence of a word, and stripping symbols off its ends.
-/

namespace MagnetoX.Library.Search

open List

universe u

variable {α : Type u} {symbol : α}

section Words

variable [DecidableEq α] {word text before after : List α}

/-- The text before and after the first occurrence of a word. -/
def cut (word : List α) : List α → Option (List α × List α)
  | [] => if word = [] then some ([], []) else none
  | symbol :: text =>
      if word.isPrefixOf (symbol :: text) then some ([], (symbol :: text).drop word.length)
      else (cut word text).map (fun parts => (symbol :: parts.1, parts.2))

theorem cut_of_isPrefix (begins : word <+: text) : cut word text = some ([], text.drop word.length) := by
  cases text with
  | nil => simp [cut, prefix_nil.mp begins]
  | cons symbol text => rw [cut, if_pos (List.isPrefixOf_iff_prefix.mpr begins)]

theorem cut_cons (later : ¬ word <+: symbol :: text) :
    cut word (symbol :: text) = (cut word text).map (fun parts => (symbol :: parts.1, parts.2)) := by
  rw [cut, if_neg (fun isPrefix => later (List.isPrefixOf_iff_prefix.mp isPrefix))]

theorem eq_of_cut (found : cut word text = some (before, after)) : text = before ++ (word ++ after) := by
  induction text generalizing before with
  | nil =>
    rw [cut] at found
    split at found
    · rename_i isNil
      cases found
      simp [isNil]
    · cases found
  | cons symbol text ih =>
    by_cases begins : word <+: symbol :: text
    · rw [cut_of_isPrefix begins] at found
      cases found
      exact (prefix_iff_eq_append.mp begins).symm
    · rw [cut_cons begins] at found
      obtain ⟨parts, foundLater, same⟩ := Option.map_eq_some_iff.mp found
      cases same
      rw [ih foundLater, cons_append]

/-- Where no occurrence starts earlier, the word is cut out. -/
theorem cut_append {rest : List α}
    (first : ∀ front back, before = front ++ back → back ≠ [] → ¬ word <+: back ++ (word ++ rest)) :
    cut word (before ++ (word ++ rest)) = some (before, rest) := by
  induction before with
  | nil =>
    rw [nil_append, cut_of_isPrefix (prefix_append _ _), drop_left]
  | cons symbol before ih =>
    have later : ¬ word <+: symbol :: (before ++ (word ++ rest)) :=
      first [] (symbol :: before) rfl nofun
    rw [cons_append, cut_cons later, ih]
    · rfl
    · intro front back same
      exact first (symbol :: front) back (by rw [same, cons_append])

def occurs (word text : List α) : Bool := (cut word text).isSome

theorem occurs_iff : occurs word text = true ↔ word <:+: text := by
  rw [occurs, Option.isSome_iff_exists]
  constructor
  · rintro ⟨⟨before, after⟩, found⟩
    exact ⟨before, after, by rw [eq_of_cut found, append_assoc]⟩
  · rintro ⟨before, after, rfl⟩
    induction before with
    | nil => exact ⟨_, cut_of_isPrefix ⟨after, by simp⟩⟩
    | cons symbol before ih =>
      by_cases begins : word <+: symbol :: (before ++ word ++ after)
      · exact ⟨_, cut_of_isPrefix begins⟩
      · obtain ⟨parts, found⟩ := ih
        exact ⟨_, by rw [cons_append, cons_append, cut_cons begins, found]; rfl⟩

theorem mem_of_occurs (found : occurs word text = true) (member : symbol ∈ word) :
    symbol ∈ text :=
  (occurs_iff.mp found).subset member

end Words

section Strip

variable (space : α → Bool)

/-- Without the symbols at its end that `space` holds of. -/
def rstrip (text : List α) : List α := text.rdropWhile space

/-- Without those at either end. -/
def strip (text : List α) : List α := rstrip space (text.dropWhile space)

variable {space}

theorem rstrip_isPrefix (text : List α) : rstrip space text <+: text := List.rdropWhile_prefix _ _

theorem rstrip_append (front back : List α) : rstrip space (front ++ back) =
    if rstrip space back = [] then rstrip space front else front ++ rstrip space back := by
  induction back using reverseRecOn with
  | nil => simp [rstrip]
  | append_singleton back symbol ih =>
    rw [← append_assoc, rstrip, rstrip]
    cases isSpace : space symbol with
    | true =>
      rw [rdropWhile_concat_pos _ _ _ isSpace, rdropWhile_concat_pos _ _ _ isSpace]
      exact ih
    | false =>
      rw [rdropWhile_concat_neg _ _ _ (by simp [isSpace]),
        rdropWhile_concat_neg _ _ _ (by simp [isSpace])]
      simp

theorem rstrip_rstrip (text : List α) : rstrip space (rstrip space text) = rstrip space text :=
  rdropWhile_idempotent _ _

theorem strip_concat (text : List α) (blank : space symbol = true) :
    strip space (text ++ [symbol]) = strip space text := by
  rw [strip, strip, dropWhile_append]
  split
  · rename_i empty
    rw [isEmpty_iff.mp empty]
    simp [blank]
  · rw [rstrip_append, if_pos]
    simp [rstrip, blank]

/-- Stripping takes no other symbols away. -/
theorem mem_strip {text : List α} (visible : space symbol = false) (member : symbol ∈ text) :
    symbol ∈ strip space text := by
  have kept (word : List α) (isSymbol : symbol ∈ word) : symbol ∈ word.dropWhile space := by
    rw [← takeWhile_append_dropWhile (p := space) (l := word), mem_append] at isSymbol
    rcases isSymbol with spaces | isKept
    · rw [mem_takeWhile_imp spaces] at visible
      cases visible
    · exact isKept
  rw [strip, rstrip, rdropWhile, mem_reverse]
  exact kept _ (mem_reverse.mpr (kept text member))

end Strip

end MagnetoX.Library.Search
