import Mathlib.Order.BoundedOrder.Basic
import Mathlib.Order.MinMax
import Mathlib.Tactic.Common

/-!
Owns the bookkeeping of a fixed number of slots by their release times. Each
grant may start when the slot it takes is released; grants go out in order, so
that none starts before an earlier one. A grant without a release time takes no
slot.

Contract: if every grant that takes a slot replaces the release time that it
was allowed to start at, then at no time are more slots in use than there are.
-/

namespace MagnetoX.Library.SlotSchedule

open List

structure Grant (α : Type*) where
  available : α
  release : Option α
deriving DecidableEq, Repr

variable {α : Type*} [LinearOrder α] [OrderBot α]

/-- The earliest time at which the last grant of the list can start. -/
def earliest (grants : List (Grant α)) : α :=
  grants.foldl (fun bound grant => max bound grant.available) ⊥

/-- The grant at `position` can have started at `time` and still holds a slot. -/
def HoldsSlot (grants : List (Grant α)) (time : α) (position : Nat) : Prop :=
  ∃ grant ∈ grants[position]?, ∃ release ∈ grant.release,
    earliest (grants.take (position + 1)) ≤ time ∧ time < release

instance (grants : List (Grant α)) (time : α) : DecidablePred (HoldsSlot grants time) :=
  fun _ => inferInstanceAs (Decidable (∃ _ ∈ _, ∃ _ ∈ _, _ ∧ _))

def inUse (grants : List (Grant α)) (time : α) : Nat :=
  (List.range grants.length).countP (fun position => HoldsSlot grants time position)

theorem earliest_append (grants : List (Grant α)) (grant : Grant α) :
    earliest (grants ++ [grant]) = max (earliest grants) grant.available := by
  rw [earliest, foldl_append]
  rfl

variable {grants : List (Grant α)}

theorem holdsSlot_append_of_lt {position : Nat} (old : position < grants.length) (grant : Grant α)
    (time : α) : HoldsSlot (grants ++ [grant]) time position ↔ HoldsSlot grants time position := by
  unfold HoldsSlot
  rw [getElem?_append_left old, take_append_of_le_length (by omega)]

theorem holdsSlot_append_last (grants : List (Grant α)) (grant : Grant α) (time : α) :
    HoldsSlot (grants ++ [grant]) time grants.length ↔
      ∃ release ∈ grant.release, max (earliest grants) grant.available ≤ time ∧ time < release := by
  unfold HoldsSlot
  rw [take_of_length_le (by simp), earliest_append]
  simp

theorem inUse_append (grants : List (Grant α)) (grant : Grant α) (time : α) :
    inUse (grants ++ [grant]) time = inUse grants time +
      if HoldsSlot (grants ++ [grant]) time grants.length then 1 else 0 := by
  have old : (range grants.length).countP
      (fun position => HoldsSlot (grants ++ [grant]) time position) = inUse grants time := by
    apply countP_congr
    intro position member
    rw [decide_eq_true_iff, decide_eq_true_iff]
    exact holdsSlot_append_of_lt (mem_range.mp member) grant time
  rw [inUse, length_append, length_singleton, range_succ, countP_append, old,
    countP_singleton]
  by_cases last : HoldsSlot (grants ++ [grant]) time grants.length <;> simp [last]

/-- The slots carry the release times of the grants: from the time on at which
the last grant can start, every slot in use shows a later release. -/
structure Scheduled (size : Nat) (slots : List α) (grants : List (Grant α)) : Prop where
  length : slots.length = size
  covered : ∀ time, earliest grants ≤ time →
    inUse grants time ≤ slots.countP (fun release => time < release)
  bounded : ∀ time, inUse grants time ≤ size

theorem scheduled_nil (slots : List α) : Scheduled slots.length slots [] :=
  ⟨rfl, fun _ _ => Nat.zero_le _, fun _ => Nat.zero_le _⟩

theorem Scheduled.pass {size : Nat} {slots : List α} (scheduled : Scheduled size slots grants)
    (available : α) : Scheduled size slots (grants ++ [⟨available, none⟩]) := by
  have same : ∀ time, inUse (grants ++ [⟨available, none⟩]) time = inUse grants time := by
    intro time
    rw [inUse_append, if_neg]
    · rfl
    · rw [holdsSlot_append_last]
      rintro ⟨release, none, -⟩
      cases none
  refine ⟨scheduled.length, ?_, ?_⟩
  · intro time after
    rw [earliest_append, max_le_iff] at after
    rw [same]
    exact scheduled.covered time after.1
  · intro time
    rw [same]
    exact scheduled.bounded time

/-- A grant that takes the slot released at `available`. While grants can still
start by `time`, the slot taken counts as free at `time`, and it counts as used
afterwards exactly if the grant does. Once they cannot, nothing is added. -/
theorem Scheduled.take {size : Nat} {available : α} {others slots : List α}
    (scheduled : Scheduled size (available :: others) grants) (release : α)
    (replaced : slots.Perm (release :: others)) :
    Scheduled size slots (grants ++ [⟨available, some release⟩]) := by
  have length : slots.length = size := by
    rw [← scheduled.length, replaced.length_eq, length_cons, length_cons]
  have covered : ∀ time, earliest (grants ++ [⟨available, some release⟩]) ≤ time →
      inUse (grants ++ [⟨available, some release⟩]) time ≤
        slots.countP (fun release => time < release) := by
    intro time after
    rw [earliest_append] at after
    obtain ⟨before, free⟩ := max_le_iff.mp after
    have old := scheduled.covered time before
    rw [countP_cons_of_neg (by simpa using free)] at old
    rw [inUse_append, replaced.countP_eq]
    by_cases later : time < release
    · rw [if_pos ((holdsSlot_append_last ..).mpr ⟨release, rfl, after, later⟩),
        countP_cons_of_pos (by simpa using later)]
      omega
    · rw [if_neg, countP_cons_of_neg (by simpa using later)]
      · exact old
      · rw [holdsSlot_append_last]
        rintro ⟨other, isRelease, -, early⟩
        obtain rfl := Option.some.inj (Option.mem_def.mp isRelease)
        exact later early
  refine ⟨length, covered, ?_⟩
  intro time
  by_cases after : earliest (grants ++ [⟨available, some release⟩]) ≤ time
  · calc inUse (grants ++ [⟨available, some release⟩]) time
        ≤ slots.countP (fun release => time < release) := covered time after
      _ ≤ slots.length := countP_le_length
      _ = size := length
  · rw [inUse_append, if_neg]
    · exact scheduled.bounded time
    · rw [holdsSlot_append_last, ← earliest_append]
      rintro ⟨-, -, started, -⟩
      exact after started

/-- Actual times that respect the grants: each one arrives no earlier than it
can start, and gives its slot back no later than its release time. -/
structure Timely (grants : List (Grant α)) (arrives gone : Nat → α) : Prop where
  late : ∀ position < grants.length, earliest (grants.take (position + 1)) ≤ arrives position
  punctual : ∀ position, ∀ grant ∈ grants[position]?, ∀ release ∈ grant.release,
    gone position ≤ release

def holding (grants : List (Grant α)) (arrives gone : Nat → α) (time : α) : Nat :=
  (List.range grants.length).countP (fun position =>
    (∃ grant ∈ grants[position]?, grant.release.isSome) ∧
      arrives position ≤ time ∧ time < gone position)

theorem Timely.holding_le {arrives gone : Nat → α} (timely : Timely grants arrives gone)
    (time : α) : holding grants arrives gone time ≤ inUse grants time := by
  apply countP_mono_left
  intro position member holds
  rw [decide_eq_true_iff] at holds ⊢
  obtain ⟨⟨grant, found, takes⟩, arrived, notGone⟩ := holds
  obtain ⟨release, isRelease⟩ := Option.isSome_iff_exists.mp takes
  exact ⟨grant, found, release, isRelease,
    (timely.late position (mem_range.mp member)).trans arrived,
    notGone.trans_le (timely.punctual position grant found release isRelease)⟩

end MagnetoX.Library.SlotSchedule
