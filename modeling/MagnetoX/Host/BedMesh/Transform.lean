import MagnetoX.Host.BedMesh.Model

/-!
Owns the fade of the bed mesh as a map between heights: where the toolhead goes
for a commanded height, when that map is increasing, and when `get_position`
inverts it.
-/

namespace MagnetoX.Host.Bed

open Option

variable {fade : Fade} {target maxAdj z value : ℚ}

theorem constrain_of_nonpos (small : value ≤ 0) : constrain value 0 1 = 0 := by
  rw [constrain, max_eq_left small]
  exact min_eq_right zero_le_one

theorem constrain_of_one_le (large : 1 ≤ value) : constrain value 0 1 = 1 :=
  min_eq_left (large.trans (le_max_right _ _))

theorem constrain_of_mem (nonneg : 0 ≤ value) (atMost : value ≤ 1) : constrain value 0 1 = value := by
  rw [constrain, max_eq_right nonneg, min_eq_right atMost]

theorem constrain_pos (positive : 0 < value) : 0 < constrain value 0 1 :=
  lt_min one_pos (positive.trans_le (le_max_right _ _))

namespace Fade

theorem zFactor_above (above : fade.finish ≤ z) : fade.zFactor z = 0 := if_pos above

theorem zFactor_within (inside : z < fade.finish) (started : fade.start ≤ z) :
    fade.zFactor z = (fade.finish - z) / fade.dist := by
  rw [zFactor, if_neg (not_le.mpr inside), if_pos started]

theorem zFactor_below (inside : z < fade.finish) (before : z < fade.start) : fade.zFactor z = 1 := by
  rw [zFactor, if_neg (not_le.mpr inside), if_neg (not_le.mpr before)]

theorem zFactor_eq (positive : 0 < fade.dist) (width : fade.dist = fade.finish - fade.start) (z : ℚ) :
    fade.zFactor z = constrain ((fade.finish - z) / fade.dist) 0 1 := by
  by_cases above : fade.finish ≤ z
  · rw [zFactor_above above, constrain_of_nonpos]
    exact div_nonpos_of_nonpos_of_nonneg (by linarith) positive.le
  · rw [not_le] at above
    by_cases started : fade.start ≤ z
    · rw [zFactor_within above started, constrain_of_mem]
      · exact div_nonneg (by linarith) positive.le
      · rw [div_le_one positive]
        linarith
    · rw [not_le] at started
      rw [zFactor_below above started, constrain_of_one_le]
      rw [one_le_div positive]
      linarith

theorem zFactor_mem (positive : 0 < fade.dist) (width : fade.dist = fade.finish - fade.start) (z : ℚ) :
    0 ≤ fade.zFactor z ∧ fade.zFactor z ≤ 1 := by
  rw [zFactor_eq positive width]
  exact ⟨le_min zero_le_one (le_max_left _ _), min_le_left _ _⟩

theorem zFactor_disabled (isStart : fade.start = fadeDisable) (isFinish : fade.finish = fadeDisable)
    (z : ℚ) : fade.zFactor z = if fadeDisable ≤ z then 0 else 1 := by
  by_cases above : fadeDisable ≤ z
  · rw [if_pos above, zFactor_above (isFinish.le.trans above)]
  · rw [if_neg above]
    rw [not_le] at above
    exact zFactor_below (above.trans_eq isFinish.symm) (above.trans_eq isStart.symm)

/-- The height of the toolhead for the commanded height `z`, where the mesh has
the height `maxAdj`. -/
def toolheadZ (fade : Fade) (target maxAdj z : ℚ) : ℚ :=
  z + (fade.zFactor z * (maxAdj - target) + target)

/-- What makes the map increasing: the mesh is less than the fade distance above
the fade target. Without fade, the mesh is dropped at the height that stands for
infinity. -/
def Increasing (fade : Fade) (target maxAdj : ℚ) : Prop :=
  if 0 < fade.dist then maxAdj - target < fade.dist else maxAdj ≤ 0

instance : Decidable (fade.Increasing target maxAdj) :=
  inferInstanceAs (Decidable (if 0 < fade.dist then maxAdj - target < fade.dist else maxAdj ≤ 0))

theorem zFactor_falls (positive : 0 < fade.dist) (width : fade.dist = fade.finish - fade.start)
    {low high : ℚ} (less : low < high) :
    0 ≤ fade.zFactor low - fade.zFactor high ∧
      (fade.zFactor low - fade.zFactor high) * fade.dist ≤ high - low := by
  rw [zFactor_eq positive width, zFactor_eq positive width]
  have order : (fade.finish - high) / fade.dist ≤ (fade.finish - low) / fade.dist :=
    div_le_div_of_nonneg_right (by linarith) positive.le
  have gap : ((fade.finish - low) / fade.dist - (fade.finish - high) / fade.dist) * fade.dist =
      high - low := by
    field_simp
    ring
  have shrinks : constrain ((fade.finish - low) / fade.dist) 0 1 -
      constrain ((fade.finish - high) / fade.dist) 0 1 ≤
        (fade.finish - low) / fade.dist - (fade.finish - high) / fade.dist := by
    unfold constrain
    grind
  constructor
  · rw [sub_nonneg]
    exact min_le_min_left _ (max_le_max_left _ order)
  · rw [← gap]
    exact mul_le_mul_of_nonneg_right shrinks positive.le

theorem strictMono_of_enabled (positive : 0 < fade.dist)
    (width : fade.dist = fade.finish - fade.start) (small : maxAdj - target < fade.dist) :
    StrictMono (fade.toolheadZ target maxAdj) := by
  intro low high less
  obtain ⟨nonneg, falls⟩ := zFactor_falls positive width less
  have slower : (fade.zFactor low - fade.zFactor high) * (maxAdj - target) < high - low := by
    rcases nonneg.eq_or_lt with same | more
    · rw [← same, zero_mul]
      linarith
    · exact (mul_lt_mul_of_pos_left small more).trans_le falls
  rw [toolheadZ, toolheadZ]
  linarith

theorem toolheadZ_strictMono_iff (resets : fade.dist ≤ 0 → target = 0) :
    StrictMono (fade.toolheadZ target maxAdj) ↔ fade.Increasing target maxAdj := by
  rw [Increasing]
  rcases fade.consistent with ⟨disabled, isStart, isFinish⟩ | ⟨positive, width⟩
  · rw [if_neg (not_lt.mpr disabled), resets disabled]
    constructor
    · intro increasing
      by_contra above
      have less := increasing (show fadeDisable - maxAdj / 2 < fadeDisable by linarith)
      rw [toolheadZ, toolheadZ, zFactor_disabled isStart isFinish, zFactor_disabled isStart isFinish,
        if_neg (by linarith), if_pos le_rfl] at less
      linarith
    · intro below low high less
      rw [toolheadZ, toolheadZ, zFactor_disabled isStart isFinish, zFactor_disabled isStart isFinish]
      split <;> split <;> linarith
  · rw [if_pos positive]
    constructor
    · intro increasing
      have less := increasing (show fade.start < fade.finish by linarith)
      have low : fade.zFactor fade.start = 1 := by
        rw [zFactor_within (by linarith) le_rfl, ← width, div_self positive.ne']
      rw [toolheadZ, toolheadZ, low, zFactor_above le_rfl] at less
      linarith
    · exact strictMono_of_enabled positive width

def recoveredZ (fade : Fade) (target maxAdj z : ℚ) : Option ℚ :=
  (fade.findFactor target maxAdj z).map (fun factor => z - (factor * (maxAdj - target) + target))

/-- What makes every height recoverable: the map is increasing, and a fade target
above the bed is not above the mesh. -/
def Recoverable (fade : Fade) (target maxAdj : ℚ) : Prop :=
  fade.Increasing target maxAdj ∧ (0 < fade.dist → 0 < target → target ≤ maxAdj)

instance : Decidable (fade.Recoverable target maxAdj) :=
  inferInstanceAs (Decidable (_ ∧ (0 < fade.dist → 0 < target → target ≤ maxAdj)))

/-- A height is recovered if the factor is, as far as it matters. -/
theorem recoveredZ_eq_iff : fade.recoveredZ target maxAdj (fade.toolheadZ target maxAdj z) = some z ↔
    ∃ factor, fade.findFactor target maxAdj (fade.toolheadZ target maxAdj z) = some factor ∧
      factor * (maxAdj - target) = fade.zFactor z * (maxAdj - target) := by
  rw [recoveredZ, map_eq_some_iff]
  refine exists_congr (fun factor => and_congr_right (fun _ => ?_))
  conv_lhs => rw [toolheadZ]
  constructor
  · intro same
    linarith
  · intro same
    rw [same]
    ring

theorem toolheadZ_sub_maxAdj (fade : Fade) (target maxAdj z : ℚ) :
    fade.toolheadZ target maxAdj z - maxAdj = z - (1 - fade.zFactor z) * (maxAdj - target) := by
  rw [toolheadZ]
  ring

section Enabled

variable (positive : 0 < fade.dist) (width : fade.dist = fade.finish - fade.start)

include positive width

theorem adjustment_of_complete (low : 0 < target → target ≤ maxAdj)
    (complete : fade.finish ≤ min (fade.toolheadZ target maxAdj z)
      (fade.toolheadZ target maxAdj z - maxAdj)) :
    fade.zFactor z * (maxAdj - target) = 0 := by
  obtain ⟨nonneg, atMost⟩ := zFactor_mem positive width z
  obtain ⟨height, rest⟩ := le_min_iff.mp complete
  by_cases above : fade.finish ≤ z
  · rw [zFactor_above above, zero_mul]
  · rw [toolheadZ_sub_maxAdj] at rest
    rw [toolheadZ] at height
    -- an adjustment that lifts the way back is downwards, so the target lifted the toolhead
    have downwards : maxAdj - target < 0 := by
      by_contra upwards
      rw [not_lt] at upwards
      have lifts := mul_nonneg (sub_nonneg.mpr atMost) upwards
      linarith
    have lowers := mul_nonpos_of_nonneg_of_nonpos nonneg downwards.le
    have lifted : 0 < target := by linarith
    linarith [low lifted]

section

variable (small : maxAdj - target < fade.dist)
include small

/-- In the process of fading out, the algebra finds the factor. -/
theorem factor_of_fading (z : ℚ) :
    constrain ((fade.finish + target - fade.toolheadZ target maxAdj z) /
      (fade.dist - (maxAdj - target))) 0 1 = fade.zFactor z := by
  have divisor : 0 < fade.dist - (maxAdj - target) := sub_pos.mpr small
  by_cases above : fade.finish ≤ z
  · rw [toolheadZ, zFactor_above above, constrain_of_nonpos]
    exact div_nonpos_of_nonpos_of_nonneg (by linarith) divisor.le
  · rw [not_le] at above
    by_cases started : fade.start ≤ z
    · have product : fade.zFactor z * fade.dist = fade.finish - z := by
        rw [zFactor_within above started, div_mul_cancel₀ _ positive.ne']
      have quotient : (fade.finish + target - fade.toolheadZ target maxAdj z) /
          (fade.dist - (maxAdj - target)) = fade.zFactor z := by
        rw [div_eq_iff divisor.ne', toolheadZ]
        linarith
      obtain ⟨nonneg, atMost⟩ := zFactor_mem positive width z
      rw [quotient, constrain_of_mem nonneg atMost]
    · rw [not_le] at started
      rw [toolheadZ, zFactor_below above started, constrain_of_one_le]
      rw [one_le_div divisor]
      linarith

theorem adjustment_of_before
    (before : max (fade.toolheadZ target maxAdj z) (fade.toolheadZ target maxAdj z - maxAdj) < fade.start) :
    fade.zFactor z * (maxAdj - target) = maxAdj - target := by
  have rest := (max_lt_iff.mp before).2
  rw [toolheadZ_sub_maxAdj] at rest
  by_cases above : fade.finish ≤ z
  · rw [zFactor_above above] at rest
    linarith
  · rw [not_le] at above
    by_cases started : fade.start ≤ z
    · exfalso
      have product : (1 - fade.zFactor z) * fade.dist = z - fade.start := by
        rw [sub_mul, zFactor_within above started, div_mul_cancel₀ _ positive.ne']
        linarith
      obtain ⟨-, atMost⟩ := zFactor_mem positive width z
      have part := mul_le_mul_of_nonneg_left small.le (sub_nonneg.mpr atMost)
      linarith
    · rw [not_le] at started
      rw [zFactor_below above started, one_mul]

theorem recovers_of_enabled (low : 0 < target → target ≤ maxAdj) (z : ℚ) :
    fade.recoveredZ target maxAdj (fade.toolheadZ target maxAdj z) = some z := by
  rw [recoveredZ_eq_iff]
  unfold findFactor
  split
  · rename_i complete
    exact ⟨0, rfl, by rw [zero_mul, adjustment_of_complete positive width low complete]⟩
  · split
    · rw [if_neg (sub_pos.mpr small).ne']
      exact ⟨_, rfl, by rw [factor_of_fading positive width small]⟩
    · rename_i before
      exact ⟨1, rfl, by
        rw [one_mul, adjustment_of_before positive width small (not_le.mp before)]⟩

end

omit width in
/-- Just above the fade zone, a mesh that is too high is not dropped. -/
theorem small_of_recovers
    (recovers : ∀ z, fade.recoveredZ target maxAdj (fade.toolheadZ target maxAdj z) = some z) :
    maxAdj - target < fade.dist := by
  by_contra large
  rw [not_lt] at large
  have high : 0 < maxAdj - target := positive.trans_le large
  obtain ⟨factor, found, same⟩ := recoveredZ_eq_iff.mp (recovers (fade.finish + (maxAdj - target) / 2))
  have isZero : fade.zFactor (fade.finish + (maxAdj - target) / 2) = 0 := zFactor_above (by linarith)
  rw [isZero, zero_mul, mul_eq_zero, or_iff_left high.ne'] at same
  subst same
  rw [toolheadZ, isZero] at found
  simp only [findFactor] at found
  split at found
  · rename_i complete
    have rest := (le_min_iff.mp complete).2
    linarith
  · split at found
    · split at found
      · cases found
      · rename_i divisor
        have negative : fade.dist - (maxAdj - target) < 0 := lt_of_le_of_ne (by linarith) divisor
        have found := some.inj found
        refine absurd found (constrain_pos ?_).ne'
        exact div_pos_of_neg_of_neg (by linarith) negative
    · exact absurd (some.inj found) one_ne_zero

/-- Just below the end of the fade zone, a target above the bed and above the mesh
passes for a completed fade. -/
theorem low_of_recovers (small : maxAdj - target < fade.dist)
    (recovers : ∀ z, fade.recoveredZ target maxAdj (fade.toolheadZ target maxAdj z) = some z)
    (lifted : 0 < target) : target ≤ maxAdj := by
  by_contra above
  rw [not_le] at above
  -- the height at which the factor `part` is left
  let least := min (target - maxAdj) target
  let part := least / (fade.dist - (maxAdj - target))
  have divisor : 0 < fade.dist - (maxAdj - target) := sub_pos.mpr small
  have leastPos : 0 < least := lt_min (sub_pos.mpr above) lifted
  have partPos : 0 < part := div_pos leastPos divisor
  have atMost : part ≤ 1 := by
    rw [div_le_one divisor]
    exact (min_le_left _ _).trans (by linarith)
  have product : part * (fade.dist - (maxAdj - target)) = least := div_mul_cancel₀ _ divisor.ne'
  have isPart : fade.zFactor (fade.finish - part * fade.dist) = part := by
    have inside := mul_pos partPos positive
    have atMost := mul_le_mul_of_nonneg_right atMost positive.le
    rw [zFactor_within (by linarith) (by linarith), sub_sub_cancel, mul_div_cancel_right₀ _ positive.ne']
  obtain ⟨factor, found, same⟩ := recoveredZ_eq_iff.mp (recovers (fade.finish - part * fade.dist))
  have complete : fade.finish ≤ min (fade.toolheadZ target maxAdj (fade.finish - part * fade.dist))
      (fade.toolheadZ target maxAdj (fade.finish - part * fade.dist) - maxAdj) := by
    rw [toolheadZ, isPart]
    have belowGap : least ≤ target - maxAdj := min_le_left _ _
    have belowTarget : least ≤ target := min_le_right _ _
    exact le_min (by linarith) (by linarith)
  rw [findFactor, if_pos complete] at found
  rw [← some.inj found, zero_mul, isPart, eq_comm, mul_eq_zero] at same
  rcases same with isZero | isZero
  · exact partPos.ne' isZero
  · linarith

end Enabled

section Disabled

variable (disabled : fade.dist ≤ 0) (isStart : fade.start = fadeDisable)
  (isFinish : fade.finish = fadeDisable)

include disabled isStart isFinish

omit disabled in
theorem recovers_of_disabled (low : maxAdj ≤ 0) (z : ℚ) :
    fade.recoveredZ 0 maxAdj (fade.toolheadZ 0 maxAdj z) = some z := by
  rw [recoveredZ_eq_iff]
  have height : fade.toolheadZ 0 maxAdj z = z + fade.zFactor z * maxAdj := by
    rw [toolheadZ]
    ring
  simp only [findFactor, height, isStart, isFinish]
  rw [zFactor_disabled isStart isFinish]
  by_cases above : fadeDisable ≤ z
  · rw [if_pos above, if_pos (le_min (by linarith) (by linarith))]
    exact ⟨0, rfl, rfl⟩
  · rw [if_neg above]
    rw [if_neg (fun complete => by linarith [(le_min_iff.mp complete).2]),
      if_neg (not_le.mpr (max_lt (by linarith) (by linarith)))]
    exact ⟨1, rfl, rfl⟩

theorem low_of_recovers_disabled
    (recovers : ∀ z, fade.recoveredZ 0 maxAdj (fade.toolheadZ 0 maxAdj z) = some z) : maxAdj ≤ 0 := by
  by_contra above
  obtain ⟨factor, found, same⟩ := recoveredZ_eq_iff.mp (recovers (fadeDisable + maxAdj / 2))
  have isZero : fade.zFactor (fadeDisable + maxAdj / 2) = 0 := zFactor_above (by linarith)
  rw [isZero, zero_mul, mul_eq_zero, or_iff_left (by linarith)] at same
  subst same
  rw [toolheadZ, isZero] at found
  simp only [findFactor, isStart, isFinish] at found
  rw [if_neg (fun complete => by linarith [(le_min_iff.mp complete).2]),
    if_pos (le_max_of_le_left (by linarith)), if_neg (by linarith)] at found
  refine absurd (some.inj found) (constrain_pos ?_).ne'
  exact div_pos_of_neg_of_neg (by linarith) (by linarith)

end Disabled

/-- Every height is recovered exactly if the mesh and the fade options allow it. -/
theorem recoveredZ_iff (resets : fade.dist ≤ 0 → target = 0) :
    (∀ z, fade.recoveredZ target maxAdj (fade.toolheadZ target maxAdj z) = some z) ↔
      fade.Recoverable target maxAdj := by
  rw [Recoverable, Increasing]
  rcases fade.consistent with ⟨disabled, isStart, isFinish⟩ | ⟨positive, width⟩
  · rw [if_neg (not_lt.mpr disabled), resets disabled]
    constructor
    · intro recovers
      exact ⟨low_of_recovers_disabled disabled isStart isFinish recovers,
        fun positive => absurd positive (not_lt.mpr disabled)⟩
    · exact fun recoverable => recovers_of_disabled isStart isFinish recoverable.1
  · rw [if_pos positive]
    constructor
    · intro recovers
      have small := small_of_recovers positive recovers
      exact ⟨small, fun _ => low_of_recovers positive width small recovers⟩
    · exact fun recoverable => recovers_of_enabled positive width recoverable.1 (recoverable.2 positive)

end Fade

end MagnetoX.Host.Bed
