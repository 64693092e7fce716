import MagnetoX.Host.StepCompress.Check

/-!
Owns `add_move` and `queue_flush`: a move that fits ends on the last step of its
sequence, and what is left of the queue is again a queue behind that step.

The main result is that the search never returns a move that `check_line`
refuses, so that a flush of such a queue cannot fail.
-/

namespace MagnetoX.Host.StepCompress

open Library.QuadraticSequence Library.Word List

section Move

variable {sc : Stepcompress} {clocks : List Int} {nonempty : clocks ≠ []} {move : StepMove}
  {k : Nat}

structure Covers (queued : Queued sc clocks) (nonempty : clocks ≠ []) (move : StepMove)
    (k : Nat) : Prop where
  count : move.count = k
  positive : 1 ≤ k
  inside : k ≤ clocks.length
  fits : Fits (queued.windows nonempty) move.interval move.add k

variable {queued : Queued sc clocks}

variable (covers : Covers queued nonempty move k)
include covers

theorem Covers.not_late {j : Nat} (inside : j < k) (small : j < clocks.length) :
    sc.lastStepClock + position move.interval move.add (j + 1) ≤ clocks[j] := by
  have window : position move.interval move.add (j + 1) ≤
      relative sc.lastStepClock clocks (j + 1) := (covers.fits (j + 1) (by omega) inside).2
  rw [relative, getD_eq_getElem _ _ small] at window
  omega

theorem Covers.not_wrapped {j : Nat} (inside : j < k) :
    sc.lastStepClock + position move.interval move.add (j + 1) < 2 ^ 64 := by
  have small : j < clocks.length := inside.trans_le covers.inside
  have bounded := queued.bounded _ (getElem_mem small)
  exact (covers.not_late inside small).trans_lt bounded

theorem Covers.interval_le : move.interval ≤ position move.interval move.add k := by
  have positive := covers.positive
  have first := (covers.fits 1 le_rfl positive).2
  rw [position_one] at first
  rcases Nat.lt_or_ge 1 k with further | single
  · have above := (queued.windows nonempty).maxp_lt_minp le_rfl further covers.inside
    have last := (covers.fits k positive (Nat.le_refl k)).1
    omega
  · obtain rfl : k = 1 := by omega
    rw [position_one]

theorem Covers.ticks_exact :
    u32 (i32 (move.add * addFactor move.count) + u32 (move.interval * (move.count - 1))) =
      position move.interval move.add k - move.interval := by
  have range := covers.fits.position_range covers.positive covers.inside
  have first := (covers.fits.of_le covers.positive).position_range le_rfl
    (covers.positive.trans covers.inside)
  have ordered := covers.interval_le
  rw [CLOCK_DIFF_MAX] at range first
  rw [position_one] at first
  rw [covers.count, mul_addFactor covers.fits covers.positive covers.inside (by omega)]
  have split : position move.interval move.add k =
      move.add * triangle k + move.interval * (k - 1) + move.interval := by
    rw [position]
    ring
  generalize move.add * triangle k = quadratic at *
  generalize move.interval * ((k : Int) - 1) = linear at *
  simp only [i32, u32, signed, unsigned]
  omega

theorem Covers.lastStepClock :
    (addMove sc (u64 (sc.lastStepClock + move.interval)) move).lastStepClock =
      sc.lastStepClock + position move.interval move.add k := by
  have nonneg := queued.lastStepClock
  have positive := covers.positive
  have first := (covers.fits.of_le positive).position_range le_rfl
    (positive.trans covers.inside)
  have firstSmall := covers.not_wrapped (j := 0) positive
  have range := covers.fits.position_range positive covers.inside
  have lastSmall := covers.not_wrapped (j := k - 1) (by omega)
  rw [Nat.sub_add_cancel positive] at lastSmall
  rw [Nat.zero_add, position_one] at firstSmall
  rw [position_one] at first
  show u64 (u64 (sc.lastStepClock + move.interval) +
    u32 (i32 (move.add * addFactor move.count) + u32 (move.interval * (move.count - 1)))) = _
  have firstClock : u64 (sc.lastStepClock + move.interval) = sc.lastStepClock + move.interval :=
    unsigned_of_range (by omega) firstSmall
  have lastClock : sc.lastStepClock + move.interval +
      (position move.interval move.add k - move.interval) =
        sc.lastStepClock + position move.interval move.add k := by ring
  rw [covers.ticks_exact, firstClock, lastClock]
  exact unsigned_of_range (by omega) lastSmall

theorem Covers.queued_rest {after : Stepcompress}
    (isQueue : after.queue = sc.queue.drop k) (isMaxError : after.maxError = sc.maxError)
    (isClock : after.lastStepClock =
      (addMove sc (u64 (sc.lastStepClock + move.interval)) move).lastStepClock) :
    Queued after (clocks.drop k) := by
  rw [covers.lastStepClock] at isClock
  have nonneg := queued.lastStepClock
  have positive := covers.positive
  have range := covers.fits.position_range positive covers.inside
  have inside := covers.inside
  have late := covers.not_late (j := k - 1) (by omega) (by omega)
  rw [Nat.sub_add_cancel positive] at late
  constructor
  · rw [isQueue, queued.queue, map_drop]
  · omega
  · rw [isMaxError]
    exact queued.maxError
  · exact Pairwise.sublist (drop_sublist k clocks) queued.increasing
  · intro clock member
    obtain ⟨i, small, rfl⟩ := getElem_of_mem member
    rw [getElem_drop]
    rw [length_drop] at small
    have ordered := pairwise_iff_getElem.mp queued.increasing (k - 1) (k + i) (by omega)
      (by omega) (by omega)
    omega
  · intro clock member
    have near := queued.near clock (mem_of_mem_drop member)
    omega
  · intro clock member
    exact queued.bounded clock (mem_of_mem_drop member)

end Move

section Search

variable {sc : Stepcompress} {clocks : List Int}

theorem Queued.hasWindows (queued : Queued sc clocks) (nonempty : clocks ≠ [])
    (small : sc.maxError < 1048576) :
    HasWindows sc ((queued.windows nonempty).take (min_le_left clocks.length 65535)) where
  points k inside := queued.minmaxPoint_eq (by omega)
  width := by
    show relative sc.lastStepClock clocks 1 - (relative sc.lastStepClock clocks 1 -
      allowance sc.maxError sc.lastStepClock clocks 1) ≤ sc.maxError
    have atMost : allowance sc.maxError sc.lastStepClock clocks 1 ≤ sc.maxError := min_le_right _ _
    omega
  maxError := small
  short := min_le_right _ _

theorem Queued.length (queued : Queued sc clocks) : sc.queue.length = clocks.length := by
  rw [queued.queue, length_map]

theorem Queued.search_covers (queued : Queued sc clocks) (nonempty : clocks ≠ [])
    (small : sc.maxError < 1048576) :
    ∃ move k, compressBisectAdd sc = some move ∧ Covers queued nonempty move k ∧
      k ≤ 65535 ∧ Short move.add := by
  have some : 0 < clocks.length := length_pos_iff.mpr nonempty
  obtain ⟨move, found, k, count, positive, inside, fits, short⟩ :=
    compressBisectAdd_accepted (queued.hasWindows nonempty small) (by rw [queued.length]) (by omega)
  exact ⟨move, k, found, ⟨count, positive, by omega, fits⟩, by omega, short⟩

theorem Covers.accepted {nonempty : clocks ≠ []} {queued : Queued sc clocks} {move : StepMove}
    {k : Nat} (covers : Covers queued nonempty move k) (short : Short move.add) :
    checkLine sc move = true := by
  have first := (covers.fits.of_le covers.positive).position_range le_rfl
    (covers.positive.trans covers.inside)
  rw [position_one] at first
  apply (checkLine_iff queued nonempty covers.count covers.inside short (by omega)).mpr
  exact ⟨covers.positive, covers.fits⟩

/-- The loop of `queue_flush` ends without an error: every round takes steps from
the queue. -/
theorem queueFlushLoop_ok (moveClock : Int) {fuel : Nat} (queued : Queued sc clocks)
    (nonempty : clocks ≠ []) (small : sc.maxError < 1048576) (enough : clocks.length ≤ fuel) :
    ∃ after, queueFlushLoop moveClock fuel sc = .ok after := by
  induction fuel generalizing sc clocks with
  | zero => exact absurd (length_eq_zero_iff.mp (Nat.le_zero.mp enough)) nonempty
  | succ fuel ih =>
    obtain ⟨move, k, found, covers, -, short⟩ := queued.search_covers nonempty small
    have positive := covers.positive
    rw [queueFlushLoop]
    split
    · rw [found]
      simp only [covers.accepted short, if_true]
      split
      · exact ⟨_, rfl⟩
      · rename_i left
        rw [covers.count, queued.length] at left
        rw [covers.count, Int.toNat_natCast]
        have rest : clocks.drop k ≠ [] := by
          rw [ne_eq, drop_eq_nil_iff]
          omega
        apply @ih _ (clocks.drop k)
        · exact covers.queued_rest rfl rfl rfl
        · exact rest
        · exact small
        · rw [length_drop]
          omega
    · exact ⟨sc, rfl⟩

theorem queueFlush_ok (moveClock : Int) (queued : Queued sc clocks)
    (small : sc.maxError < 1048576) : ∃ after, queueFlush sc moveClock = .ok after := by
  unfold queueFlush
  split
  · exact ⟨sc, rfl⟩
  · rename_i some
    have nonempty : clocks ≠ [] := by
      intro none
      apply some
      rw [queued.queue, none, map_nil]
    have enough : clocks.length ≤ sc.queue.length + 1 := by
      rw [queued.length]
      omega
    obtain ⟨after, ends⟩ := queueFlushLoop_ok moveClock queued nonempty small enough
    rw [ends]
    exact ⟨_, rfl⟩

/-- **The compressor never produces a move that its own check refuses.** On a queue
of increasing step clocks not far behind the last step, the search ends with a move
for at least one step. Every step of the move lies in the window of its point, every
interval is a positive signed word, `check_line` accepts the move, and no flush of
the queue fails. -/
theorem compressBisectAdd_checked (queued : Queued sc clocks) (nonempty : clocks ≠ [])
    (small : sc.maxError < 2 ^ 20) :
    ∃ move, compressBisectAdd sc = some move ∧
      1 ≤ move.count ∧ move.count ≤ min sc.queue.length 65535 ∧
      (∀ k : Nat, k < move.count →
        (minmaxPoint sc k).minp ≤ position move.interval move.add (k + 1) ∧
        position move.interval move.add (k + 1) ≤ (minmaxPoint sc k).maxp ∧
        0 ≤ move.interval + move.add * k ∧ move.interval + move.add * k < 2 ^ 31) ∧
      checkLine sc move = true ∧
      ∀ moveClock, ∃ after, queueFlush sc moveClock = .ok after := by
  obtain ⟨move, count, found, covers, short, shortAdd⟩ := queued.search_covers nonempty small
  have positive := covers.positive
  have inside := covers.inside
  have isCount := covers.count
  refine ⟨move, found, by omega, by rw [queued.length]; omega, ?_, covers.accepted shortAdd, ?_⟩
  · intro k isStep
    have isStep : k < count := by omega
    obtain ⟨lower, upper⟩ := covers.fits (k + 1) (by omega) isStep
    have increment := covers.fits.increment_pos inside isStep
    have range := (covers.fits.of_le (j := k + 1) isStep).position_range (by omega) (by omega)
    have before : 0 ≤ position move.interval move.add k := by
      cases k with
      | zero => simp [position, triangle]
      | succ k =>
        have own := (covers.fits.of_le isStep.le).position_range (by omega) (by omega)
        omega
    have next := position_succ move.interval move.add k
    rw [CLOCK_DIFF_MAX] at range
    rw [queued.minmaxPoint_eq (by omega)]
    exact ⟨lower, upper, by omega, by omega⟩
  · intro moveClock
    exact queueFlush_ok moveClock queued small

def acceleratingQueue : Stepcompress :=
  { queue := [1400, 1750, 2060, 2330, 2570], queuePos := 0, queueSize := 1024, maxError := 25
    lastStepClock := 1000, msgQueue := [], sdir := some true, invertSdir := false
    nextStepClock := 0, nextStepDir := true, lastPosition := 0, historyList := []
    sdsFilter := 0, historyExpire := 0 }

theorem acceleratingQueue_queued : Queued acceleratingQueue [1400, 1750, 2060, 2330, 2570] := by
  constructor <;> decide

theorem compressBisectAdd_checked_accelerating :
    ∃ move, compressBisectAdd acceleratingQueue = some move ∧ 1 ≤ move.count ∧ move.count ≤ 5 ∧
      checkLine acceleratingQueue move = true ∧
      ∃ after, queueFlush acceleratingQueue UINT64_MAX = .ok after := by
  obtain ⟨move, found, positive, short, -, accepted, flushes⟩ :=
    compressBisectAdd_checked acceleratingQueue_queued (by decide) (by decide)
  exact ⟨move, found, positive, short, accepted, flushes UINT64_MAX⟩

end Search

end MagnetoX.Host.StepCompress
