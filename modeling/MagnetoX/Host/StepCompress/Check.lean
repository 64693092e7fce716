import Mathlib.Data.List.GetD
import MagnetoX.Host.StepCompress.Bisect

/-!
Owns the windows of a queue of step times, and `check_line`: it accepts exactly
the moves whose steps lie in their windows, with positive intervals.
-/

namespace MagnetoX.Host.StepCompress

open Library.QuadraticSequence Library.Word List

/-- The queue holds the low words of these clocks, which are increasing, behind
the last step and not far from it. -/
structure Queued (sc : Stepcompress) (clocks : List Int) : Prop where
  queue : sc.queue = clocks.map u32
  lastStepClock : 0 ≤ sc.lastStepClock
  maxError : 0 ≤ sc.maxError
  increasing : clocks.Pairwise (· < ·)
  after : ∀ clock ∈ clocks, sc.lastStepClock < clock
  near : ∀ clock ∈ clocks, clock ≤ sc.lastStepClock + CLOCK_DIFF_MAX
  bounded : ∀ clock ∈ clocks, clock < 2 ^ 64

/-- The time of step `k` relative to the last step; step 0 is the last step. -/
def relative (lastStepClock : Int) (clocks : List Int) : Nat → Int
  | 0 => 0
  | k + 1 => clocks.getD k 0 - lastStepClock

/-- How much earlier than requested step `k` may come. -/
def allowance (maxError lastStepClock : Int) (clocks : List Int) (k : Nat) : Int :=
  min ((relative lastStepClock clocks k - relative lastStepClock clocks (k - 1)) / 2) maxError

section Queue

variable {sc after : Stepcompress} {clocks : List Int}

theorem Queued.congr (queued : Queued sc clocks)
    (isQueue : after.queue = sc.queue) (isClock : after.lastStepClock = sc.lastStepClock)
    (isMaxError : after.maxError = sc.maxError) : Queued after clocks where
  queue := isQueue.trans queued.queue
  lastStepClock := by
    rw [isClock]
    exact queued.lastStepClock
  maxError := by
    rw [isMaxError]
    exact queued.maxError
  increasing := queued.increasing
  after := by
    rw [isClock]
    exact queued.after
  near := by
    rw [isClock]
    exact queued.near
  bounded := queued.bounded

variable {k : Nat}

section

variable (queued : Queued sc clocks)
include queued

theorem Queued.relative_lt (inside : k < clocks.length) :
    relative sc.lastStepClock clocks k < relative sc.lastStepClock clocks (k + 1) := by
  have member := getElem_mem inside
  have own : relative sc.lastStepClock clocks (k + 1) = clocks[k] - sc.lastStepClock := by
    rw [relative, getD_eq_getElem _ _ inside]
  cases k with
  | zero =>
    have after := queued.after _ member
    rw [own, relative]
    omega
  | succ k =>
    have before : k < clocks.length := by omega
    have ordered := pairwise_iff_getElem.mp queued.increasing k (k + 1) before inside
      (Nat.lt_succ_self k)
    rw [own, relative, getD_eq_getElem _ _ before]
    omega

theorem Queued.relative_range (positive : 1 ≤ k) (inside : k ≤ clocks.length) :
    1 ≤ relative sc.lastStepClock clocks k ∧
      relative sc.lastStepClock clocks k ≤ CLOCK_DIFF_MAX := by
  obtain ⟨j, rfl⟩ : ∃ j, k = j + 1 := ⟨k - 1, by omega⟩
  have small : j < clocks.length := by omega
  have member := getElem_mem small
  have after := queued.after _ member
  have near := queued.near _ member
  rw [relative, getD_eq_getElem _ _ small]
  omega

theorem Queued.allowance_range (inside : k < clocks.length) :
    0 ≤ allowance sc.maxError sc.lastStepClock clocks (k + 1) ∧
      2 * allowance sc.maxError sc.lastStepClock clocks (k + 1) ≤
        relative sc.lastStepClock clocks (k + 1) - relative sc.lastStepClock clocks k := by
  have grows := queued.relative_lt inside
  have error := queued.maxError
  unfold allowance
  rw [Nat.add_sub_cancel]
  omega

def Queued.windows (queued : Queued sc clocks) (nonempty : clocks ≠ []) :
    Windows clocks.length CLOCK_DIFF_MAX where
  minp k := relative sc.lastStepClock clocks k -
    allowance sc.maxError sc.lastStepClock clocks k
  maxp k := relative sc.lastStepClock clocks k
  first := by
    have some : 0 < clocks.length := List.length_pos_iff.mpr nonempty
    have range := queued.allowance_range some
    have grows := queued.relative_lt some
    have zero : relative sc.lastStepClock clocks 0 = 0 := rfl
    rw [Nat.zero_add] at range grows
    omega
  nonempty k positive inside := by
    obtain ⟨j, rfl⟩ : ∃ j, k = j + 1 := ⟨k - 1, by omega⟩
    have range := queued.allowance_range (k := j) (by omega)
    omega
  bounded k positive inside := (queued.relative_range positive inside).2
  apart k positive inside := by
    have range := queued.allowance_range inside
    have grows := queued.relative_lt inside
    omega

theorem Queued.minmaxPoint_eq (inside : k < clocks.length) : minmaxPoint sc k =
      ⟨relative sc.lastStepClock clocks (k + 1) -
          allowance sc.maxError sc.lastStepClock clocks (k + 1),
        relative sc.lastStepClock clocks (k + 1)⟩ := by
  have point : ∀ j < clocks.length, u32 (sc.queue.getD j 0 - u32 sc.lastStepClock) =
      relative sc.lastStepClock clocks (j + 1) := by
    intro j small
    obtain ⟨atLeast, atMost⟩ := queued.relative_range (k := j + 1) (by omega) (by omega)
    rw [CLOCK_DIFF_MAX] at atMost
    rw [queued.queue, getD_eq_getElem _ _ (by rwa [length_map]), getElem_map]
    rw [relative, getD_eq_getElem _ _ small] at atLeast atMost ⊢
    simp only [u32, unsigned] at *
    omega
  have previous : (if k > 0 then u32 (sc.queue.getD (k - 1) 0 - u32 sc.lastStepClock) else 0) =
      relative sc.lastStepClock clocks k := by
    cases k with
    | zero => rfl
    | succ k => exact (if_pos (Nat.succ_pos k)).trans (point k (by omega))
  have range := queued.allowance_range inside
  obtain ⟨atLeast, atMost⟩ := queued.relative_range (k := k + 1) (by omega) (by omega)
  have prevNonneg : 0 ≤ relative sc.lastStepClock clocks k := by
    cases k with
    | zero => exact Int.le_refl 0
    | succ k =>
      have own := (queued.relative_range (k := k + 1) (by omega) (by omega)).1
      omega
  rw [CLOCK_DIFF_MAX] at atMost
  have gap : u32 (relative sc.lastStepClock clocks (k + 1) - relative sc.lastStepClock clocks k) =
      relative sc.lastStepClock clocks (k + 1) - relative sc.lastStepClock clocks k :=
    unsigned_of_range (by omega) (by norm_num; omega)
  have error : (if u32 (relative sc.lastStepClock clocks (k + 1) -
        relative sc.lastStepClock clocks k) / 2 > sc.maxError then sc.maxError
      else u32 (relative sc.lastStepClock clocks (k + 1) -
        relative sc.lastStepClock clocks k) / 2) =
      allowance sc.maxError sc.lastStepClock clocks (k + 1) := by
    rw [gap, allowance, Nat.add_sub_cancel]
    split <;> omega
  unfold minmaxPoint
  simp only [point k inside, previous, error]
  have low : u32 (relative sc.lastStepClock clocks (k + 1) -
      allowance sc.maxError sc.lastStepClock clocks (k + 1)) =
      relative sc.lastStepClock clocks (k + 1) -
        allowance sc.maxError sc.lastStepClock clocks (k + 1) :=
    unsigned_of_range (by omega) (by norm_num; omega)
  rw [low, i32_of_range (by omega) (by omega), i32_of_range (by omega) (by omega)]

theorem Queued.window_exact (nonempty : clocks ≠ []) (inside : k < clocks.length) :
    u32 (minmaxPoint sc k).minp = (queued.windows nonempty).minp (k + 1) ∧
      u32 (minmaxPoint sc k).maxp = (queued.windows nonempty).maxp (k + 1) := by
  have lower := (queued.windows nonempty).minp_pos (k := k + 1) (by omega) inside
  have window := (queued.windows nonempty).nonempty (k + 1) (by omega) inside
  have upper : (queued.windows nonempty).maxp (k + 1) ≤ 805306368 :=
    (queued.windows nonempty).bounded (k + 1) (by omega) inside
  rw [queued.minmaxPoint_eq inside]
  show u32 ((queued.windows nonempty).minp (k + 1)) = _ ∧
    u32 ((queued.windows nonempty).maxp (k + 1)) = _
  constructor
  · exact unsigned_of_range (by omega) (by norm_num; omega)
  · exact unsigned_of_range (by omega) (by norm_num; omega)

end

variable {interval add : Int}

section

variable (queued : Queued sc clocks) (nonempty : clocks ≠ [])
include queued nonempty

theorem checkPoints_of_fits {i remaining : Nat} (inside : i + remaining ≤ clocks.length)
    (fits : Fits (queued.windows nonempty) interval add (i + remaining)) :
    checkPoints sc add remaining i (u32 (interval + add * i)) (position interval add i) = true := by
  induction remaining generalizing i with
  | zero => rfl
  | succ remaining ih =>
    obtain ⟨exactMin, exactMax⟩ := queued.window_exact nonempty (k := i) (by omega)
    obtain ⟨lower, upper⟩ := fits (i + 1) (by omega) (by omega)
    have small : (queued.windows nonempty).maxp (i + 1) ≤ 805306368 :=
      (queued.windows nonempty).bounded (i + 1) (by omega) (by omega)
    have increment := fits.increment_pos inside (by omega : i < i + (remaining + 1))
    have before : 0 ≤ position interval add i := by
      cases i with
      | zero => simp [position, triangle]
      | succ i =>
        have range := (fits.of_le (by omega : i + 1 ≤ _)).position_range (by omega) (by omega)
        omega
    have next := position_succ interval add i
    have exactInterval : u32 (interval + add * i) = interval + add * i :=
      unsigned_of_range (by omega) (by norm_num; omega)
    have exactPosition : u32 (position interval add i + (interval + add * i)) =
        position interval add (i + 1) := by
      rw [← next]
      exact unsigned_of_range (by omega) (by norm_num; omega)
    have following : interval + add * i + add = interval + add * (i + 1 : Nat) := by
      push_cast
      ring
    rw [checkPoints]
    simp only [exactMin, exactMax, exactInterval, exactPosition]
    rw [if_neg (by omega), if_neg (by omega), following]
    apply ih (by omega)
    rw [show i + 1 + remaining = i + (remaining + 1) by omega]
    exact fits

theorem fits_of_checkPoints (short : Short add)
    {i remaining : Nat} (inside : i + remaining ≤ clocks.length)
    (fits : Fits (queued.windows nonempty) interval add i)
    (lower : -32768 ≤ interval + add * i) (upper : interval + add * i < 2147516416)
    (accepts : checkPoints sc add remaining i (u32 (interval + add * i))
      (position interval add i) = true) :
    Fits (queued.windows nonempty) interval add (i + remaining) := by
  induction remaining generalizing i with
  | zero => exact fits
  | succ remaining ih =>
    obtain ⟨addLower, addUpper⟩ := short
    obtain ⟨exactMin, exactMax⟩ := queued.window_exact nonempty (k := i) (by omega)
    have before : 0 ≤ position interval add i ∧ position interval add i ≤ 805306368 := by
      cases i with
      | zero => simp [position, triangle]
      | succ i =>
        have range := fits.position_range (by omega) (by omega)
        rw [CLOCK_DIFF_MAX] at range
        omega
    rw [checkPoints] at accepts
    split at accepts
    · cases accepts
    · rename_i inWindow
      split at accepts
      · cases accepts
      · rename_i short
        -- A negative interval would have been a large word.
        have nonneg : 0 ≤ interval + add * i := by
          by_contra negative
          have word : u32 (interval + add * i) = interval + add * i + 4294967296 := by
            simp only [u32, unsigned]
            omega
          omega
        have exactInterval : u32 (interval + add * i) = interval + add * i :=
          unsigned_of_range nonneg (by norm_num; omega)
        rw [exactInterval] at short inWindow accepts
        have exactPosition : u32 (position interval add i + (interval + add * i)) =
            position interval add (i + 1) := by
          rw [position_succ]
          exact unsigned_of_range (by omega) (by norm_num; omega)
        have following : interval + add * i + add = interval + add * (i + 1 : Nat) := by
          push_cast
          ring
        rw [exactPosition] at inWindow accepts
        rw [following] at accepts
        have further := ih (i := i + 1) (by omega)
          (fits.succ ⟨by omega, by omega⟩) (by omega) (by omega) accepts
        rw [show i + 1 + remaining = i + (remaining + 1) by omega] at further
        exact further

/-- **`check_line` accepts exactly the moves that fit.** -/
theorem checkLine_iff {move : StepMove}
    (count : move.count = k) (inside : k ≤ clocks.length) (short : Short move.add)
    (interval : 0 ≤ move.interval) :
    checkLine sc move = true ↔ 1 ≤ k ∧ Fits (queued.windows nonempty) move.interval move.add k := by
  have zero : Fits (queued.windows nonempty) move.interval move.add 0 :=
    fun j positive small => absurd positive (by omega)
  have start : move.interval + move.add * (0 : Nat) = move.interval := by simp
  have origin : position move.interval move.add 0 = 0 := by simp [position, triangle]
  unfold checkLine
  rw [count, Int.toNat_natCast]
  constructor
  · intro accepts
    split at accepts
    · cases accepts
    · rename_i valid
      have exact : u32 move.interval = move.interval :=
        unsigned_of_range interval (by norm_num; omega)
      refine ⟨by omega, ?_⟩
      have fits := fits_of_checkPoints queued nonempty short (by omega : 0 + k ≤ _) zero
        (by rw [start]; omega) (by rw [start]; omega)
        (by rw [start, origin, exact]; exact accepts)
      rwa [Nat.zero_add] at fits
  · rintro ⟨positive, fits⟩
    have first := (fits.of_le positive).position_range le_rfl (by omega)
    rw [position_one, CLOCK_DIFF_MAX] at first
    have exact : u32 move.interval = move.interval :=
      unsigned_of_range interval (by norm_num; omega)
    rw [if_neg (by omega)]
    have accepts := checkPoints_of_fits queued nonempty (by omega : 0 + k ≤ _)
      (by rw [Nat.zero_add]; exact fits)
    rwa [start, origin, exact] at accepts

end

end Queue

end MagnetoX.Host.StepCompress
