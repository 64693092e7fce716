import Mathlib.Order.Lattice
import Mathlib.Tactic.Common

/-!
Owns the order in which a queue of timed entries is kept: by time, and first in,
first out among entries of one time. `arrivals` lists the entries in the order
in which they came.
-/

namespace MagnetoX.Library

open List

variable {α κ : Type*} [LinearOrder κ]

/-- The queue holds the arrived entries by time, those of one time in order of
arrival. -/
structure FifoOrder (time : α → κ) (arrivals queue : List α) : Prop where
  sorted : queue.Pairwise (fun ahead behind => time ahead ≤ time behind)
  fifo : ∀ moment, queue.filter (fun entry => time entry = moment) =
    arrivals.filter (fun entry => time entry = moment)

namespace FifoOrder

variable {time : α → κ} {arrivals queue : List α} {entry : α}

theorem mem_iff (order : FifoOrder time arrivals queue) (entry : α) :
    entry ∈ queue ↔ entry ∈ arrivals := by
  have same : entry ∈ queue.filter (fun other => time other = time entry) ↔
      entry ∈ arrivals.filter (fun other => time other = time entry) := by
    rw [order.fifo]
  simpa only [mem_filter, decide_true, and_true] using same

theorem arrivals_eq_singleton (order : FifoOrder time arrivals [entry]) : arrivals = [entry] := by
  have same := order.fifo (time entry)
  rw [filter_eq_self.mpr, filter_eq_self.mpr] at same
  · exact same.symm
  · intro other member
    rw [mem_singleton.mp ((order.mem_iff other).mpr member)]
    exact decide_eq_true rfl
  · intro other member
    rw [mem_singleton.mp member]
    exact decide_eq_true rfl

theorem filter (order : FifoOrder time arrivals queue) (stays : α → Bool) :
    FifoOrder time (arrivals.filter stays) (queue.filter stays) where
  sorted := order.sorted.sublist filter_sublist
  fifo moment := by
    have swap : ∀ entries : List α,
        (entries.filter stays).filter (fun entry => time entry = moment) =
          (entries.filter (fun entry => time entry = moment)).filter stays := by
      intro entries
      simp only [filter_filter, Bool.and_comm]
    rw [swap, order.fifo, swap]

theorem split (order : FifoOrder time arrivals queue) (moment : κ) :
    ∃ front back, queue = front ++ back ∧ (∀ entry ∈ front, time entry ≤ moment) ∧
      ∀ entry ∈ back, moment < time entry := by
  have sorted := order.sorted
  clear order
  induction queue with
  | nil => exact ⟨[], [], rfl, by simp, by simp⟩
  | cons first queue ih =>
    obtain ⟨behind, sorted⟩ := pairwise_cons.mp sorted
    by_cases early : time first ≤ moment
    · obtain ⟨front, back, rfl, before, after⟩ := ih sorted
      refine ⟨first :: front, back, rfl, ?_, after⟩
      intro entry member
      rcases mem_cons.mp member with rfl | later
      · exact early
      · exact before entry later
    · refine ⟨[], first :: queue, rfl, by simp, ?_⟩
      intro entry member
      rcases mem_cons.mp member with rfl | later
      · exact not_le.mp early
      · exact (not_le.mp early).trans_le (behind entry later)

/-- An entry arrives, and goes behind those that are not later. -/
theorem insert (front : List α) {back : List α} (order : FifoOrder time arrivals (front ++ back))
    (before : ∀ other ∈ front, time other ≤ time entry)
    (after : ∀ other ∈ back, time entry < time other) :
    FifoOrder time (arrivals ++ [entry]) (front ++ entry :: back) where
  sorted := by
    obtain ⟨inFront, inBack, across⟩ := pairwise_append.mp order.sorted
    refine pairwise_append.mpr ⟨inFront, ?_, ?_⟩
    · exact pairwise_cons.mpr ⟨fun other member => (after other member).le, inBack⟩
    · intro ahead member behind inRest
      rcases mem_cons.mp inRest with rfl | later
      · exact before ahead member
      · exact across ahead member behind later
  fifo moment := by
    have same := order.fifo moment
    rw [filter_append] at same
    rw [filter_append, filter_append, ← same, append_assoc]
    by_cases here : time entry = moment
    · have none : back.filter (fun other => time other = moment) = [] := by
        apply filter_eq_nil_iff.mpr
        intro other member
        rw [decide_eq_true_eq, ← here]
        exact (after other member).ne'
      rw [filter_cons_of_pos (by simpa using here), none, nil_append,
        filter_cons_of_pos (by simpa using here), filter_nil]
    · rw [filter_cons_of_neg (by simpa using here),
        filter_cons_of_neg (by simpa using here), filter_nil, append_nil]

end FifoOrder

end MagnetoX.Library
