import Mathlib.Order.BoundedOrder.Lattice

/-!
Owns the binary min-heap in a list, with the replacement of its root by sifting
down. A missing child counts as `⊤`.

Contract: replacing the root keeps the heap order and the other entries, and the
root of a heap is its least entry.
-/

namespace MagnetoX.Library.MinHeap

open List

variable {α : Type*} [LinearOrder α] [OrderTop α]

/-- The entry at a position, `⊤` outside the heap. -/
def entry (heap : List α) (pos : Nat) : α := heap.getD pos ⊤

/-- Move the hole at `pos` down until `value` fits, and put `value` there. Each
move at least doubles `pos`, so that `heap.length` moves are enough. -/
def siftDown (value : α) : Nat → List α → Nat → List α
  | 0, heap, pos => heap.set pos value
  | fuel + 1, heap, pos =>
      if value ≤ entry heap (2 * pos + 1) ∧ value ≤ entry heap (2 * pos + 2) then
        heap.set pos value
      else if entry heap (2 * pos + 1) < entry heap (2 * pos + 2) then
        siftDown value fuel (heap.set pos (entry heap (2 * pos + 1))) (2 * pos + 1)
      else
        siftDown value fuel (heap.set pos (entry heap (2 * pos + 2))) (2 * pos + 2)

def replaceRoot (heap : List α) (value : α) : List α := siftDown value heap.length heap 0

def IsChild (pos child : Nat) : Prop := child = 2 * pos + 1 ∨ child = 2 * pos + 2

def IsHeap (heap : List α) : Prop :=
  ∀ pos child, IsChild pos child → entry heap pos ≤ entry heap child

variable {heap : List α} {pos child other : Nat} {value : α}

theorem entry_of_le (outside : heap.length ≤ pos) : entry heap pos = ⊤ := by
  rw [entry, getD_eq_getElem?_getD, getElem?_eq_none outside, Option.getD_none]

theorem entry_of_lt (inside : pos < heap.length) : entry heap pos = heap[pos] := by
  rw [entry, getD_eq_getElem?_getD, getElem?_eq_getElem inside, Option.getD_some]

theorem entry_set_self (inside : pos < heap.length) (value : α) :
    entry (heap.set pos value) pos = value := by
  rw [entry_of_lt (by rwa [length_set]), getElem_set_self]

theorem entry_set_ne (heap : List α) (distinct : other ≠ pos) (value : α) :
    entry (heap.set pos value) other = entry heap other := by
  rw [entry, entry, getD_eq_getElem?_getD, getD_eq_getElem?_getD,
    getElem?_set_ne (Ne.symm distinct)]

theorem siftDown_length (value : α) (fuel : Nat) (heap : List α) (pos : Nat) :
    (siftDown value fuel heap pos).length = heap.length := by
  induction fuel generalizing heap pos with
  | zero => exact length_set
  | succ fuel ih =>
    rw [siftDown]
    split_ifs
    · exact length_set
    · rw [ih, length_set]
    · rw [ih, length_set]

theorem replaceRoot_length (heap : List α) (value : α) :
    (replaceRoot heap value).length = heap.length :=
  siftDown_length ..

theorem IsHeap.root_le (isHeap : IsHeap heap) (pos : Nat) : entry heap 0 ≤ entry heap pos := by
  induction pos using Nat.strong_induction_on with
  | _ pos ih =>
    by_cases root : pos = 0
    · rw [root]
    · have above : (pos - 1) / 2 < pos := by omega
      have child : IsChild ((pos - 1) / 2) pos := by
        unfold IsChild
        omega
      exact (ih _ above).trans (isHeap _ _ child)

/-- **The root is the minimum.** -/
theorem IsHeap.root_le_of_mem (isHeap : IsHeap heap) (member : value ∈ heap) :
    entry heap 0 ≤ value := by
  obtain ⟨pos, inside, rfl⟩ := mem_iff_getElem.mp member
  rw [← entry_of_lt inside]
  exact isHeap.root_le pos

theorem isHeap_replicate (size : Nat) (value : α) : IsHeap (List.replicate size value) := by
  intro pos child isChild
  unfold IsChild at isChild
  by_cases inside : child < size
  · rw [entry_of_lt (by rw [length_replicate]; omega),
      entry_of_lt (by rwa [length_replicate]), getElem_replicate, getElem_replicate]
  · have outside : (replicate size value).length ≤ child := by
      rw [length_replicate]
      omega
    rw [entry_of_le outside]
    exact le_top

/-- The order of a heap with a hole at `hole` that `value` is to fill: the pairs
off the hole are in order, and what is above the hole is at most `value` and at
most what is below the hole. -/
structure HoleOrder (heap : List α) (hole : Nat) (value : α) : Prop where
  inside : hole < heap.length
  off : ∀ pos child, IsChild pos child → pos ≠ hole → child ≠ hole →
    entry heap pos ≤ entry heap child
  above : ∀ pos, IsChild pos hole → entry heap pos ≤ value
  across : ∀ pos child, IsChild pos hole → IsChild hole child → entry heap pos ≤ entry heap child

theorem isChild_lt (isChild : IsChild pos child) : pos < child := by
  unfold IsChild at isChild
  omega

theorem isChild_unique (isChild : IsChild pos child)
    (isOther : IsChild other child) : pos = other := by
  unfold IsChild at isChild isOther
  omega

theorem HoleOrder.close {hole : Nat} (order : HoleOrder heap hole value)
    (below : ∀ child, IsChild hole child → value ≤ entry heap child) :
    IsHeap (heap.set hole value) := by
  intro pos child isChild
  have apart := isChild_lt isChild
  by_cases posHole : pos = hole
  · subst posHole
    rw [entry_set_self order.inside, entry_set_ne _ (by omega)]
    exact below child isChild
  · rw [entry_set_ne _ posHole]
    by_cases childHole : child = hole
    · subst childHole
      rw [entry_set_self order.inside]
      exact order.above pos isChild
    · rw [entry_set_ne _ childHole]
      exact order.off pos child isChild posHole childHole

theorem HoleOrder.descend {hole next : Nat} (order : HoleOrder heap hole value)
    (isNext : IsChild hole next) (inside : next < heap.length)
    (least : ∀ child, IsChild hole child → entry heap next ≤ entry heap child)
    (less : entry heap next ≤ value) : HoleOrder (heap.set hole (entry heap next)) next value := by
  have apart := isChild_lt isNext
  refine ⟨by rwa [length_set], ?_, ?_, ?_⟩
  · intro pos child isChild posNext childNext
    by_cases posHole : pos = hole
    · subst posHole
      have := isChild_lt isChild
      rw [entry_set_self order.inside, entry_set_ne _ (by omega)]
      exact least child isChild
    · rw [entry_set_ne _ posHole]
      by_cases childHole : child = hole
      · subst childHole
        rw [entry_set_self order.inside]
        exact order.across pos next isChild isNext
      · rw [entry_set_ne _ childHole]
        exact order.off pos child isChild posHole childHole
  · intro pos isChild
    rw [isChild_unique isChild isNext, entry_set_self order.inside]
    exact less
  · intro pos child isChild isGrandchild
    have := isChild_lt isGrandchild
    rw [isChild_unique isChild isNext, entry_set_self order.inside, entry_set_ne _ (by omega)]
    exact order.off next child isGrandchild (by omega) (by omega)

/-- A child below `value` is inside the heap. -/
theorem inside_of_not_le (notLe : ¬ value ≤ entry heap child) : child < heap.length := by
  by_contra outside
  rw [entry_of_le (not_lt.mp outside)] at notLe
  exact notLe le_top

/-- What one round of the sift does: it stops where the value fits, or moves the
lesser child up. -/
theorem siftDown_succ (value : α) (fuel : Nat) (heap : List α) (pos : Nat) :
    ((∀ child, IsChild pos child → value ≤ entry heap child) ∧
        siftDown value (fuel + 1) heap pos = heap.set pos value) ∨
      ∃ next, IsChild pos next ∧ next < heap.length ∧
        (∀ child, IsChild pos child → entry heap next ≤ entry heap child) ∧
        entry heap next ≤ value ∧
        siftDown value (fuel + 1) heap pos =
          siftDown value fuel (heap.set pos (entry heap next)) next := by
  rw [siftDown]
  by_cases fits : value ≤ entry heap (2 * pos + 1) ∧ value ≤ entry heap (2 * pos + 2)
  · rw [if_pos fits]
    refine .inl ⟨?_, rfl⟩
    rintro child (rfl | rfl)
    · exact fits.1
    · exact fits.2
  · rw [if_neg fits]
    right
    by_cases first : entry heap (2 * pos + 1) < entry heap (2 * pos + 2)
    · have less : ¬ value ≤ entry heap (2 * pos + 1) := fun le => fits ⟨le, le.trans first.le⟩
      refine ⟨2 * pos + 1, .inl rfl, inside_of_not_le less, ?_, (not_le.mp less).le,
        if_pos first⟩
      rintro child (rfl | rfl)
      · exact le_rfl
      · exact first.le
    · have second := not_lt.mp first
      have less : ¬ value ≤ entry heap (2 * pos + 2) := fun le => fits ⟨le.trans second, le⟩
      refine ⟨2 * pos + 2, .inr rfl, inside_of_not_le less, ?_, (not_le.mp less).le,
        if_neg first⟩
      rintro child (rfl | rfl)
      · exact second
      · exact le_rfl

/-- Moving the child up and filling its place is filling the hole and swapping. -/
theorem set_descend_perm {next : Nat} (value : α) (inside : pos < heap.length)
    (nextInside : next < heap.length) (distinct : next ≠ pos) :
    ((heap.set pos (entry heap next)).set next value).Perm (heap.set pos value) := by
  have place : ∀ {other}, other < heap.length → other < (heap.set pos value).length := by
    intro other within
    rwa [length_set]
  have swap := set_set_perm (place inside) (place nextInside)
  rw [getElem_set_self, getElem_set_ne (Ne.symm distinct), set_set,
    ← entry_of_lt nextInside] at swap
  exact swap

/-- **Sifting down** ends in a heap with the entries that filling the hole gives. -/
theorem siftDown_spec {fuel : Nat} (order : HoleOrder heap pos value)
    (enough : heap.length ≤ fuel + pos) :
    IsHeap (siftDown value fuel heap pos) ∧
      (siftDown value fuel heap pos).Perm (heap.set pos value) := by
  induction fuel generalizing heap pos with
  | zero => exact absurd order.inside (by omega)
  | succ fuel ih =>
    rcases siftDown_succ value fuel heap pos with
      ⟨fits, stop⟩ | ⟨next, isNext, inside, least, less, move⟩
    · rw [stop]
      exact ⟨order.close fits, Perm.refl _⟩
    · have apart := isChild_lt isNext
      obtain ⟨isHeap, perm⟩ := ih (order.descend isNext inside least less)
        (by rw [length_set]; omega)
      rw [move]
      exact ⟨isHeap, perm.trans (set_descend_perm value order.inside inside (by omega))⟩

theorem replaceRoot_spec (isHeap : IsHeap heap) (nonempty : 0 < heap.length) (value : α) :
    IsHeap (replaceRoot heap value) ∧ (replaceRoot heap value).Perm (heap.set 0 value) := by
  apply siftDown_spec _ (by omega)
  refine ⟨nonempty, fun pos child isChild _ _ => isHeap pos child isChild, ?_, ?_⟩
  · intro pos isChild
    exact absurd (isChild_lt isChild) (by omega)
  · intro pos child isChild
    exact absurd (isChild_lt isChild) (by omega)

end MagnetoX.Library.MinHeap
