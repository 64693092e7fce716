import Mathlib.Order.Bounds.Basic

/-!
Owns the two least values of a list and the place of the least, found in one pass
that starts from a bound `never`.

Contract: the pass tells for each place the least of the values at the other places
and the bound.
-/

namespace MagnetoX.Library

open List

variable {α : Type*} [LinearOrder α]

/-- The least value so far, the least of the others, and the place of the first. -/
structure Minima (α : Type*) where
  least : α
  next : α
  place : Option Nat
deriving DecidableEq, Repr

namespace Minima

def start (never : α) : Minima α := ⟨never, never, none⟩

def note (found : Minima α) (place : Nat) (value : α) : Minima α :=
  if value < found.next then
    if value < found.least then ⟨value, found.least, some place⟩
    else { found with next := value }
  else found

def scan : Nat → List α → Minima α → Minima α
  | _, [], found => found
  | place, value :: rest, found => scan (place + 1) rest (found.note place value)

/-- The least value at the places other than this one. -/
def leastOther (found : Minima α) (place : Nat) : α :=
  if found.place = some place then found.next else found.least

structure Finds (never : α) (seen : List α) (found : Minima α) : Prop where
  ordered : found.least ≤ found.next
  early : found.next ≤ never
  bounded : ∀ (i : Nat) (value : α), seen[i]? = some value → found.least ≤ value
  boundedOther : ∀ (i : Nat) (value : α), seen[i]? = some value → found.place ≠ some i → found.next ≤ value
  least : found.least = never ∧ found.place = none ∨
    ∃ i : Nat, found.place = some i ∧ seen[i]? = some found.least
  next : found.next = never ∨ ∃ i : Nat, found.place ≠ some i ∧ seen[i]? = some found.next

variable {never : α} {seen : List α} {found : Minima α}

theorem finds_start (never : α) : Finds never [] (start never) :=
  ⟨le_rfl, le_rfl, nofun, nofun, .inl ⟨rfl, rfl⟩, .inl rfl⟩

section Concat

omit [LinearOrder α]

variable {value entry : α}

theorem forall_concat {holds : Nat → α → Prop} (early : ∀ i entry, seen[i]? = some entry → holds i entry)
    (last : holds seen.length value) : ∀ i entry, (seen ++ [value])[i]? = some entry → holds i entry := by
  intro i entry read
  rcases lt_or_ge i seen.length with old | new
  · rw [getElem?_append_left old] at read
    exact early i entry read
  · rw [getElem?_append_right new, getElem?_singleton] at read
    split at read
    · cases read
      rwa [show i = seen.length by omega]
    · cases read

theorem exists_concat {holds : Nat → Prop} :
    (∃ i : Nat, holds i ∧ seen[i]? = some entry) → ∃ i : Nat, holds i ∧ (seen ++ [value])[i]? = some entry := by
  rintro ⟨i, isPlace, read⟩
  refine ⟨i, isPlace, ?_⟩
  rw [getElem?_append_left (List.getElem?_eq_some_iff.mp read).1, read]

end Concat

theorem Finds.note (finds : Finds never seen found) (value : α) :
    Finds never (seen ++ [value]) (found.note seen.length value) := by
  have isLast : (seen ++ [value])[seen.length]? = some value := by simp
  have old : ∀ {i}, found.place = some i → i ≠ seen.length := by
    intro i isPlace
    rcases finds.least with ⟨-, noPlace⟩ | ⟨j, isLeast, read⟩
    · rw [noPlace] at isPlace
      cases isPlace
    · rw [isPlace] at isLeast
      cases isLeast
      exact Nat.ne_of_lt (List.getElem?_eq_some_iff.mp read).1
  unfold Minima.note
  split
  case isFalse large =>
    have above := not_lt.mp large
    exact ⟨finds.ordered, finds.early, forall_concat finds.bounded (finds.ordered.trans above),
      forall_concat finds.boundedOther (fun _ => above), finds.least.imp_right exists_concat,
      finds.next.imp_right exists_concat⟩
  case isTrue small =>
    split
    case isTrue smallest =>
      refine ⟨smallest.le, finds.ordered.trans finds.early, forall_concat ?_ le_rfl,
        forall_concat (fun i entry read _ => finds.bounded i entry read) (fun other => absurd rfl other),
        .inr ⟨_, rfl, isLast⟩, ?_⟩
      · exact fun i entry read => smallest.le.trans (finds.bounded i entry read)
      · rcases finds.least with ⟨none, -⟩ | ⟨i, isPlace, read⟩
        · exact .inl none
        · refine .inr (exists_concat ⟨i, ?_, read⟩)
          intro same
          exact old isPlace (Option.some.inj same).symm
    case isFalse notSmallest =>
      have above := not_lt.mp notSmallest
      refine ⟨above, small.le.trans finds.early, forall_concat finds.bounded above,
        forall_concat ?_ (fun _ => le_rfl), finds.least.imp_right exists_concat,
        .inr ⟨seen.length, fun isPlace => old isPlace rfl, isLast⟩⟩
      exact fun i entry read other => small.le.trans (finds.boundedOther i entry read other)

theorem Finds.scan (finds : Finds never seen found) (rest : List α) :
    Finds never (seen ++ rest) (scan seen.length rest found) := by
  induction rest generalizing seen found with
  | nil =>
    rw [append_nil]
    exact finds
  | cons value rest ih =>
    have later := ih (finds.note value)
    rw [append_assoc, singleton_append, length_append, length_singleton] at later
    exact later

/-- **The least of the others.** -/
theorem Finds.isLeast_leastOther (finds : Finds never seen found) (place : Nat) :
    IsLeast (insert never {value | ∃ i : Nat, i ≠ place ∧ seen[i]? = some value})
      (found.leastOther place) := by
  unfold leastOther
  split
  case isTrue isPlace =>
    constructor
    · rcases finds.next with none | ⟨i, apart, isNext⟩
      · exact .inl none
      · refine .inr ⟨i, ?_, isNext⟩
        rintro rfl
        exact apart isPlace
    · rintro value (rfl | ⟨i, apart, isValue⟩)
      · exact finds.early
      · refine finds.boundedOther i value isValue ?_
        rw [isPlace]
        exact fun same => apart (Option.some.inj same).symm
  case isFalse notPlace =>
    constructor
    · rcases finds.least with ⟨none, -⟩ | ⟨i, isPlace, isLeast⟩
      · exact .inl none
      · refine .inr ⟨i, ?_, isLeast⟩
        rintro rfl
        exact notPlace isPlace
    · rintro value (rfl | ⟨i, -, isValue⟩)
      · exact finds.ordered.trans finds.early
      · exact finds.bounded i value isValue

theorem isLeast_foldr_min (never : α) (values : List α) :
    IsLeast (insert never {value | value ∈ values}) (values.foldr min never) := by
  induction values with
  | nil => exact ⟨.inl rfl, by simp [lowerBounds]⟩
  | cons value values ih =>
    obtain ⟨isEntry, isLower⟩ := ih
    rw [foldr_cons]
    constructor
    · rcases le_total value (values.foldr min never) with below | below
      · rw [min_eq_left below]
        exact .inr (.head _)
      · rw [min_eq_right below]
        exact isEntry.imp_right (.tail _)
    · rintro other (rfl | isOther)
      · exact (min_le_right _ _).trans (isLower (.inl rfl))
      · rcases mem_cons.mp isOther with rfl | isOther
        · exact min_le_left _ _
        · exact (min_le_right _ _).trans (isLower (.inr isOther))

/-- The pass, against the list without the place. -/
theorem Finds.leastOther_eq (finds : Finds never seen found) (place : Nat) :
    found.leastOther place = (seen.eraseIdx place).foldr min never := by
  refine (finds.isLeast_leastOther place).unique ?_
  have others : {value | value ∈ seen.eraseIdx place} =
      {value | ∃ i : Nat, i ≠ place ∧ seen[i]? = some value} :=
    Set.ext (fun value => mem_eraseIdx_iff_getElem?)
  rw [← others]
  exact isLeast_foldr_min never _

end Minima

end MagnetoX.Library
