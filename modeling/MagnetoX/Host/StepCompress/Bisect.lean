import MagnetoX.Host.StepCompress.Search

/-!
Owns the outer loop of `compress_bisect_add`: it ends, and the sequence it
returns stays in the windows of all its points.

Every candidate was validated by the search for its `add`. What is left to show
is that the bounds carried between the rounds stay in the first window, that the
range of `add` shrinks, and that no 32-bit value lies: behind the test for more
than `0x200` steps, products are bounded by those of the current sequence and
the error allowed.
-/

namespace MagnetoX.Host.StepCompress

open Library.QuadraticSequence Library.Word

variable {sc : Stepcompress} {available : Nat} {w : Windows available CLOCK_DIFF_MAX}
  {add interval : Int}

def Candidate (w : Windows available CLOCK_DIFF_MAX) (interval count add : Int) : Prop :=
  ∃ k : Nat, count = k ∧ 1 ≤ k ∧ k ≤ available ∧ Fits w interval add k ∧ Short add

structure Found (w : Windows available CLOCK_DIFF_MAX) (s : Search) : Prop where
  best : Candidate w s.bestinterval s.bestcount s.bestadd
  zero : Candidate w s.zerointerval s.zerocount 0

/-- After the first round, the best sequence is short and `best_reach` is not
behind its last point. -/
structure Known (w : Windows available CLOCK_DIFF_MAX) (s : Search) : Prop where
  found : Found w s
  short : ∃ k : Nat, 1 ≤ k ∧ k ≤ 0x200 ∧ k ≤ available ∧ s.bestreach ≤ w.maxp k

structure Searching (w : Windows available CLOCK_DIFF_MAX) (s : Search) : Prop where
  low : w.minp 1 ≤ s.outerMininterval
  nonempty : s.outerMininterval ≤ s.outerMaxinterval
  high : s.outerMaxinterval ≤ w.maxp 1
  minadd : -32768 ≤ s.minadd
  addLower : s.minadd ≤ s.add
  addUpper : s.add ≤ s.maxadd
  maxadd : s.maxadd ≤ 32767
  /-- In the first round there is no best sequence. -/
  known : (s.add = 0 ∧ s.bestreach = INT32_MIN) ∨ Known w s

/-! ### Results -/

/-- What `compress_bisect_add` returns. -/
def Accepted (w : Windows available CLOCK_DIFF_MAX) (move : StepMove) : Prop :=
  Candidate w move.interval move.count move.add

theorem Fitting.interval_range {k : Nat} (fitting : Fitting w interval add k) :
    1 ≤ interval ∧ interval ≤ 805306368 := by
  have first := (fitting.fits.of_le fitting.positive).position_range (Nat.le_refl 1)
    (fitting.positive.trans fitting.inside)
  rwa [position_one] at first

theorem accepted_stepMove (few : available ≤ 65535) {count : Int}
    (candidate : Candidate w interval count add) : Accepted w (stepMove interval count add) := by
  obtain ⟨k, rfl, positive, inside, fits, short⟩ := candidate
  obtain ⟨atLeast, atMost⟩ := Fitting.interval_range ⟨fits, positive, inside, short⟩
  obtain ⟨lower, upper⟩ := short
  have sameInterval : u32 interval = interval := unsigned_of_range (by omega) (by norm_num; omega)
  have sameCount : u16 (k : Int) = k := unsigned_of_range (by omega) (by norm_num; omega)
  have sameAdd : i16 add = add := i16_of_range lower (by omega)
  refine ⟨k, sameCount, positive, inside, ?_, ?_⟩
  · rw [stepMove, sameInterval, sameAdd]
    exact fits
  · rw [stepMove, sameAdd]
    exact ⟨lower, upper⟩

open Search

theorem Found.result {s : Search} (found : Found w s) (few : available ≤ 65535) : Accepted w s.result := by
  unfold Search.result
  split
  · exact accepted_stepMove few found.zero
  · exact accepted_stepMove few found.best

/-! ### Recording a sequence -/

section Round

variable {s : Search} {nextmin nextmax maxError : Int} {k fuel : Nat}

theorem Fitting.reach_exact (fitting : Fitting w interval add k) :
    i32 (i32 (add * addFactor k) + i32 (interval * k)) = position interval add k := by
  obtain ⟨least, most⟩ := fitting.add_triangle_range
  obtain ⟨atLeast, atMost⟩ := fitting.position_range
  obtain ⟨product, -⟩ := fitting.next_product_lt
  have own := fitting.interval_pos
  have linear : 1 * (k : Int) ≤ interval * k := mul_le_mul_of_nonneg_right own (by omega)
  have next : interval * (k + 1 : Nat) = interval * k + interval := by
    push_cast
    ring
  rw [mul_addFactor fitting.fits fitting.positive fitting.inside (by omega)]
  have quadratic : i32 (add * triangle k) = add * triangle k :=
    i32_of_range (by omega) (by omega)
  have linearPart : i32 (interval * k) = interval * k := i32_of_range (by omega) (by omega)
  rw [quadratic, linearPart, add_comm]
  exact i32_of_range (by rw [← position]; omega) (by rw [← position]; omega)

theorem Fitting.nextreach_exact (fitting : Fitting w interval add k) :
    i32 (i32 (add * addFactor (k + 1 : Nat)) + i32 (interval * (k + 1 : Nat))) =
      position interval add (k + 1) := by
  obtain ⟨exact, -, -⟩ := fitting.next_add_exact
  obtain ⟨product, -⟩ := fitting.next_product_lt
  obtain ⟨atLeast, atMost⟩ := fitting.position_range
  obtain ⟨lower, upper⟩ := fitting.add_mul_range
  obtain ⟨own, first⟩ := fitting.interval_range
  have linear : 1 * ((k + 1 : Nat) : Int) ≤ interval * (k + 1 : Nat) :=
    mul_le_mul_of_nonneg_right own (by omega)
  have linearPart : i32 (interval * (k + 1 : Nat)) = interval * (k + 1 : Nat) :=
    i32_of_range (by omega) (by omega)
  have next := position_succ interval add k
  rw [exact, linearPart, add_comm]
  exact i32_of_range (by rw [← position]; omega) (by rw [← position]; omega)

theorem Searching.better_of_long (searching : Searching w s) (fitting : Fitting w interval s.add k)
    (long : 0x200 < k) : s.better interval (position interval s.add k) = true := by
  have atLeast := (fitting.fits k fitting.positive (Nat.le_refl k)).1
  unfold better
  rw [Bool.or_eq_true, decide_eq_true_eq]
  left
  rcases searching.known with ⟨-, fresh⟩ | ⟨-, n, nPositive, nShort, nInside, reach⟩
  · have pos := w.minp_pos fitting.positive fitting.inside
    rw [fresh, INT32_MIN]
    omega
  · have apart := w.maxp_lt_minp nPositive (by omega : n < k) fitting.inside
    omega

theorem Searching.short_add (searching : Searching w s) : Short s.add := by
  obtain ⟨-, -, -, minadd, lower, upper, maxadd, -⟩ := searching
  exact ⟨by omega, by omega⟩

theorem Searching.record (searching : Searching w s) (fitting : Fitting w interval s.add k)
    (reach : Int) : Found w (s.record interval k reach) := by
  have candidate : Candidate w interval k s.add :=
    ⟨k, rfl, fitting.positive, fitting.inside, fitting.fits, fitting.short⟩
  refine ⟨candidate, ?_⟩
  unfold Search.record
  by_cases zero : s.add = 0
  · rw [if_pos zero, if_pos zero, ← zero]
    exact candidate
  · rw [if_neg zero, if_neg zero]
    rcases searching.known with ⟨fresh, -⟩ | ⟨found, -⟩
    · exact absurd fresh zero
    · exact found.zero

/-- Whether it is recorded or not, a short sequence leaves a known best one. -/
theorem Searching.consider (searching : Searching w s) (fitting : Fitting w interval s.add k)
    (short : k ≤ 0x200) :
    let reach := position interval s.add k
    Known w (if s.better interval reach then s.record interval k reach else s) := by
  intro reach
  split
  · refine ⟨searching.record fitting reach, k, fitting.positive, short, fitting.inside, ?_⟩
    exact (fitting.fits k fitting.positive (Nat.le_refl k)).2
  · rename_i notBetter
    rcases searching.known with ⟨-, fresh⟩ | known
    · have atLeast := fitting.position_range.1
      refine absurd ?_ notBetter
      unfold better
      rw [Bool.or_eq_true, decide_eq_true_eq, fresh, INT32_MIN]
      left
      omega
    · exact known

/-! ### Narrowing the range -/

/-- The range of `add` shrinks and nothing else of the search changes but the
bounds of the interval. -/
structure Narrowed (before after : Search) : Prop where
  add : after.add = before.add
  bestinterval : after.bestinterval = before.bestinterval
  bestcount : after.bestcount = before.bestcount
  bestadd : after.bestadd = before.bestadd
  bestreach : after.bestreach = before.bestreach
  zerointerval : after.zerointerval = before.zerointerval
  zerocount : after.zerocount = before.zerocount
  minadd : before.minadd ≤ after.minadd
  maxadd : after.maxadd ≤ before.maxadd

theorem Narrowed.known {after : Search} (narrowed : Narrowed s after) (known : Known w s) :
    Known w after := by
  obtain ⟨⟨best, zero⟩, short⟩ := known
  refine ⟨⟨?_, ?_⟩, ?_⟩
  · rw [narrowed.bestinterval, narrowed.bestcount, narrowed.bestadd]
    exact best
  · rw [narrowed.zerointerval, narrowed.zerocount]
    exact zero
  · rw [narrowed.bestreach]
    exact short

theorem exclude_spec (searching : Searching w s) (fitting : Fitting w interval s.add k)
    (atLeast : s.outerMininterval ≤ interval) (atMost : interval ≤ s.outerMaxinterval)
    (early : position interval s.add (k + 1) < w.minp (k + 1) → nextmax = interval)
    (reached : w.minp (k + 1) ≤ position interval s.add (k + 1) →
      s.outerMininterval ≤ nextmin ∧ nextmin ≤ interval) :
    let after := s.exclude interval nextmin nextmax (k + 1) ⟨w.minp (k + 1), w.maxp (k + 1)⟩
    Narrowed s after ∧ w.minp 1 ≤ after.outerMininterval ∧ after.outerMininterval ≤ interval ∧
      interval ≤ after.outerMaxinterval ∧ after.outerMaxinterval ≤ w.maxp 1 ∧
      after.minadd ≤ s.add + 1 ∧ s.add - 1 ≤ after.maxadd ∧
      after.maxadd - after.minadd < s.maxadd - s.minadd := by
  obtain ⟨low, nonempty, high, minadd, addLower, addUpper, maxadd, -⟩ := searching
  dsimp only
  generalize isAfter : s.exclude interval nextmin nextmax (k + 1)
    ⟨w.minp (k + 1), w.maxp (k + 1)⟩ = after
  simp only [exclude, fitting.nextreach_exact] at isAfter
  split at isAfter
  · rename_i less
    have bound : i32 (s.add + 1) = s.add + 1 := i32_of_range (by omega) (by omega)
    rw [bound, early less] at isAfter
    subst isAfter
    refine ⟨⟨rfl, rfl, rfl, rfl, rfl, rfl, rfl, ?_, le_refl _⟩, low, atLeast, le_refl _, ?_, ?_, ?_,
      ?_⟩ <;> dsimp only <;> omega
  · rename_i notLess
    obtain ⟨raised, notAbove⟩ := reached (not_lt.mp notLess)
    have bound : i32 (s.add - 1) = s.add - 1 := i32_of_range (by omega) (by omega)
    rw [bound] at isAfter
    subst isAfter
    refine ⟨⟨rfl, rfl, rfl, rfl, rfl, rfl, rfl, le_refl _, ?_⟩, ?_, notAbove, atMost, high, ?_, ?_,
      ?_⟩ <;> dsimp only <;> omega

theorem square_le (short : k ≤ 0x200) : (k : Int) * k ≤ 0x200 * 0x200 :=
  mul_le_mul (by omega) (by omega) (by omega) (by omega)

theorem errdelta_range (nonneg : 0 ≤ maxError) (small : maxError < 1048576)
    (positive : 2 ≤ k) (short : k ≤ 0x200) :
    let errdelta := i32 (u32 (maxError * QUADRATIC_DEV) / u32 (i32 ((k : Int) * k)))
    0 ≤ errdelta ∧ errdelta * (k * k) ≤ 11534325 := by
  have square : (2 : Int) * 2 ≤ k * k := mul_le_mul (by omega) (by omega) (by omega) (by omega)
  have squareLe := square_le short
  have product : u32 (maxError * QUADRATIC_DEV) = maxError * 11 :=
    unsigned_of_range (by rw [QUADRATIC_DEV]; omega) (by rw [QUADRATIC_DEV]; norm_num; omega)
  have divisor : u32 (i32 ((k : Int) * k)) = k * k := by
    rw [i32_of_range (by omega) (by omega)]
    exact unsigned_of_range (by omega) (by norm_num; omega)
  have quotient := Int.ediv_mul_le (maxError * 11) (show (k : Int) * k ≠ 0 by omega)
  have quotientNonneg : 0 ≤ maxError * 11 / (k * k) := Int.ediv_nonneg (by omega) (by omega)
  have quotientLe : maxError * 11 / (k * k) * 1 ≤ maxError * 11 / (k * k) * (k * k) :=
    mul_le_mul_of_nonneg_left (by omega) quotientNonneg
  rw [product, divisor, i32_of_range (by omega) (by omega)]
  constructor <;> omega

/-- What a product of an `add` near the current one with the factor of the next
point can be. -/
theorem Fitting.near_product {other errdelta : Int} (fitting : Fitting w interval add k)
    (short : k ≤ 0x200) (nonneg : 0 ≤ errdelta) (deviation : errdelta * (k * k) ≤ 11534325) (lower : add - errdelta - 1 ≤ other)
    (upper : other ≤ add + errdelta + 1) :
    -2147483648 ≤ other * triangle (k + 1) ∧ other * triangle (k + 1) < 2147483648 := by
  obtain ⟨-, least, most⟩ := fitting.next_add_exact
  have double := two_mul_triangle_succ k
  have positive := fitting.positive
  have squareLe := square_le short
  have linearLe : (k : Int) * 1 ≤ k * k := mul_le_mul_of_nonneg_left (by omega) (by omega)
  have factorLe : triangle (k + 1) ≤ k * k := by omega
  have factorNonneg := triangle_nonneg (k + 1)
  have deviated : errdelta * triangle (k + 1) ≤ errdelta * (k * k) :=
    mul_le_mul_of_nonneg_left factorLe nonneg
  have below : (add - errdelta - 1) * triangle (k + 1) ≤ other * triangle (k + 1) :=
    mul_le_mul_of_nonneg_right lower factorNonneg
  have above : other * triangle (k + 1) ≤ (add + errdelta + 1) * triangle (k + 1) :=
    mul_le_mul_of_nonneg_right upper factorNonneg
  have spreadBelow : (add - errdelta - 1) * triangle (k + 1) =
      add * triangle (k + 1) - errdelta * triangle (k + 1) - triangle (k + 1) := by ring
  have spreadAbove : (add + errdelta + 1) * triangle (k + 1) =
      add * triangle (k + 1) + errdelta * triangle (k + 1) + triangle (k + 1) := by ring
  constructor <;> omega

/-- The range of `add` is limited to the neighbourhood of the current one, so that
its products with the factor of the next point fit. -/
theorem limitDeviation_spec (isAdd : s.add = add) (fitting : Fitting w interval add k)
    (short : k ≤ 0x200) (nonneg : 0 ≤ maxError) (small : maxError < 1048576)
    (minLower : -32768 ≤ s.minadd) (minUpper : s.minadd ≤ add + 1)
    (maxLower : add - 1 ≤ s.maxadd) (maxUpper : s.maxadd ≤ 32767) :
    let after := s.limitDeviation maxError k
    Narrowed s after ∧ after.outerMininterval = s.outerMininterval ∧
      after.outerMaxinterval = s.outerMaxinterval ∧
      (-2147483648 ≤ after.minadd * triangle (k + 1) ∧
        after.minadd * triangle (k + 1) < 2147483648) ∧
      (-2147483648 ≤ after.maxadd * triangle (k + 1) ∧
        after.maxadd * triangle (k + 1) < 2147483648) := by
  dsimp only
  generalize isAfter : s.limitDeviation maxError k = after
  obtain ⟨addLower, addUpper⟩ := fitting.short
  have positive := fitting.positive
  unfold limitDeviation at isAfter
  split at isAfter
  · rename_i several
    obtain ⟨deltaNonneg, deviation⟩ := errdelta_range nonneg small (by omega : 2 ≤ k) short
    simp only at isAfter
    generalize i32 (u32 (maxError * QUADRATIC_DEV) / u32 (i32 ((k : Int) * k))) = errdelta
      at isAfter deltaNonneg deviation
    have square : (1 : Int) * 1 ≤ k * k := mul_le_mul (by omega) (by omega) (by omega) (by omega)
    have deltaLe : errdelta * 1 ≤ errdelta * (k * k) :=
      mul_le_mul_of_nonneg_left square deltaNonneg
    have below : i32 (s.add - errdelta) = add - errdelta := by
      rw [isAdd]
      exact i32_of_range (by omega) (by omega)
    have above : i32 (s.add + errdelta) = add + errdelta := by
      rw [isAdd]
      exact i32_of_range (by omega) (by omega)
    rw [below, above] at isAfter
    have minNear : add - errdelta - 1 ≤ after.minadd ∧ after.minadd ≤ add + errdelta + 1 ∧
        s.minadd ≤ after.minadd := by
      rw [← isAfter]
      dsimp only
      split <;> omega
    have maxNear : add - errdelta - 1 ≤ after.maxadd ∧ after.maxadd ≤ add + errdelta + 1 ∧
        after.maxadd ≤ s.maxadd := by
      rw [← isAfter]
      dsimp only
      split <;> omega
    have minProduct := fitting.near_product short deltaNonneg deviation minNear.1 minNear.2.1
    have maxProduct := fitting.near_product short deltaNonneg deviation maxNear.1 maxNear.2.1
    subst isAfter
    exact ⟨⟨rfl, rfl, rfl, rfl, rfl, rfl, rfl, minNear.2.2, maxNear.2.2⟩, rfl, rfl, minProduct,
      maxProduct⟩
  · rename_i single
    obtain rfl : k = 1 := by omega
    subst isAfter
    have factor : triangle (1 + 1) = 1 := rfl
    rw [factor]
    refine ⟨⟨rfl, rfl, rfl, rfl, rfl, rfl, rfl, le_refl _, le_refl _⟩, rfl, rfl, ?_, ?_⟩ <;>
      constructor <;> omega

/-- How far the next point is from the bounds of the interval, in 32 bits. The
product with the greatest interval may not fit; the difference does. -/
theorem distance_exact (fitting : Fitting w interval add k) (inside : k < available)
    (short : k ≤ 0x200) (has : HasWindows sc w) {low high : Int} (lowInside : w.minp 1 ≤ low) (atLeast : low ≤ interval)
    (atMost : interval ≤ high) (highInside : high ≤ w.maxp 1) :
    i32 (w.minp (k + 1) - i32 (high * (k + 1 : Nat))) = w.minp (k + 1) - high * (k + 1 : Nat) ∧
      i32 (w.maxp (k + 1) - i32 (low * (k + 1 : Nat))) = w.maxp (k + 1) - low * (k + 1 : Nat) ∧
      -2000000000 ≤ w.minp (k + 1) - high * (k + 1 : Nat) ∧
      w.minp (k + 1) - high * (k + 1 : Nat) ≤ 805306368 ∧
      -2000000000 ≤ w.maxp (k + 1) - low * (k + 1 : Nat) ∧
      w.maxp (k + 1) - low * (k + 1 : Nat) ≤ 805306368 := by
  have positive := fitting.positive
  obtain ⟨product, few⟩ := fitting.next_product_lt
  obtain ⟨least, -⟩ := fitting.add_triangle_range
  have own := fitting.interval_pos
  have first := w.first
  have firstHigh : w.maxp 1 ≤ 805306368 := w.bounded 1 (Nat.le_refl 1) (by omega)
  have last := (fitting.fits k positive (Nat.le_refl k)).2
  have apart := w.apart k positive inside
  have window := w.nonempty (k + 1) (by omega) inside
  have windowHigh : w.maxp (k + 1) ≤ 805306368 := w.bounded (k + 1) (by omega) inside
  have width := has.width
  have maxError := has.maxError
  have linear : interval * (k + 1 : Nat) = position interval add k - add * triangle k + interval := by
    unfold position
    push_cast
    ring
  have lowProduct : low * ((k + 1 : Nat) : Int) ≤ interval * (k + 1 : Nat) :=
    mul_le_mul_of_nonneg_right atLeast (by omega)
  have lowPositive : 1 * ((k + 1 : Nat) : Int) ≤ low * (k + 1 : Nat) :=
    mul_le_mul_of_nonneg_right (by omega) (by omega)
  have highProduct : high * ((k + 1 : Nat) : Int) ≤ (interval + 1048575) * (k + 1 : Nat) :=
    mul_le_mul_of_nonneg_right (by omega) (by omega)
  have highPositive : 1 * ((k + 1 : Nat) : Int) ≤ high * (k + 1 : Nat) :=
    mul_le_mul_of_nonneg_right (by omega) (by omega)
  rw [add_mul] at highProduct
  -- A short sequence has a small error, a longer one a small interval.
  have minRange : -2000000000 ≤ w.minp (k + 1) - high * (k + 1 : Nat) := by
    rcases Nat.lt_or_ge k 4 with small | large
    · omega
    · have shortInterval := few large
      omega
  rw [i32_sub_i32, i32_sub_i32]
  refine ⟨i32_of_range ?_ ?_, i32_of_range ?_ ?_, minRange, ?_, ?_, ?_⟩ <;> omega

/-- The next point limits the range of `add` further. -/
theorem limitNext_spec {low high : Int} (small : k ≤ 0x200) (positive : 1 ≤ k)
    (isLow : i32 (w.minp (k + 1) - i32 (s.outerMaxinterval * (k + 1 : Nat))) = low)
    (isHigh : i32 (w.maxp (k + 1) - i32 (s.outerMininterval * (k + 1 : Nat))) = high)
    (lowRange : -2000000000 ≤ low ∧ low ≤ 805306368)
    (highRange : -2000000000 ≤ high ∧ high ≤ 805306368)
    (minProduct : -2147483648 ≤ s.minadd * triangle (k + 1) ∧
      s.minadd * triangle (k + 1) < 2147483648)
    (maxProduct : -2147483648 ≤ s.maxadd * triangle (k + 1) ∧
      s.maxadd * triangle (k + 1) < 2147483648) :
    let after := s.limitNext (k + 1) ⟨w.minp (k + 1), w.maxp (k + 1)⟩
    Narrowed s after ∧ after.outerMininterval = s.outerMininterval ∧
      after.outerMaxinterval = s.outerMaxinterval := by
  dsimp only
  generalize isAfter : s.limitNext (k + 1) ⟨w.minp (k + 1), w.maxp (k + 1)⟩ = after
  have factor : addFactor (k + 1 : Nat) = triangle (k + 1) := addFactor_eq (by omega)
  have double := two_mul_triangle_succ k
  have squareLe := square_le small
  have squareNonneg : (0 : Int) ≤ k * k := mul_nonneg (by omega) (by omega)
  have factorPositive : 0 < triangle (k + 1) := by omega
  simp only [limitNext, factor, isLow, isHigh, i32_of_range minProduct.1 minProduct.2,
    i32_of_range maxProduct.1 maxProduct.2] at isAfter
  obtain ⟨reaches, -⟩ :=
    @idivUp_spec low (triangle (k + 1)) factorPositive (by omega) (by omega)
  obtain ⟨below, -⟩ :=
    @idivDown_spec high (triangle (k + 1)) factorPositive (by omega)
  subst isAfter
  refine ⟨⟨rfl, rfl, rfl, rfl, rfl, rfl, rfl, ?_, ?_⟩, rfl, rfl⟩
  · dsimp only
    split
    · rename_i short
      exact (lt_of_mul_lt_mul_right (short.trans_le reaches) factorPositive.le).le
    · exact le_refl _
  · dsimp only
    split
    · rename_i far
      exact (lt_of_mul_lt_mul_right (below.trans_lt far) factorPositive.le).le
    · exact le_refl _

def Search.narrow (s : Search) (maxError interval nextmin nextmax : Int) (k : Nat)
    (nextpoint : Points) : Search :=
  ((s.exclude interval nextmin nextmax (k + 1) nextpoint).limitDeviation maxError k).limitNext
    (k + 1) nextpoint

theorem narrow_spec (has : HasWindows sc w) (searching : Searching w s)
    (fitting : Fitting w interval s.add k) (inside : k < available)
    (short : k ≤ 0x200) (atLeast : s.outerMininterval ≤ interval)
    (atMost : interval ≤ s.outerMaxinterval)
    (early : position interval s.add (k + 1) < w.minp (k + 1) → nextmax = interval)
    (reached : w.minp (k + 1) ≤ position interval s.add (k + 1) →
      s.outerMininterval ≤ nextmin ∧ nextmin ≤ interval) :
    let after := s.narrow sc.maxError interval nextmin nextmax k
      ⟨w.minp (k + 1), w.maxp (k + 1)⟩
    (Known w s → Known w after) ∧ w.minp 1 ≤ after.outerMininterval ∧
      after.outerMininterval ≤ after.outerMaxinterval ∧ after.outerMaxinterval ≤ w.maxp 1 ∧
      -32768 ≤ after.minadd ∧ after.maxadd ≤ 32767 ∧
      after.maxadd - after.minadd < s.maxadd - s.minadd := by
  obtain ⟨excluded, low, enclosesLow, enclosesHigh, high, minUpper, maxLower, fewer⟩ :=
    exclude_spec searching fitting atLeast atMost early reached
  have minadd := searching.minadd
  have maxadd := searching.maxadd
  have errorNonneg : 0 ≤ sc.maxError := by
    have window := w.nonempty 1 (Nat.le_refl 1) (by omega)
    have width := has.width
    omega
  dsimp only
  generalize isAfter : s.narrow sc.maxError interval nextmin nextmax k
    ⟨w.minp (k + 1), w.maxp (k + 1)⟩ = after
  unfold narrow at isAfter
  generalize s.exclude interval nextmin nextmax (k + 1) ⟨w.minp (k + 1), w.maxp (k + 1)⟩ = middle
    at isAfter excluded low enclosesLow enclosesHigh high minUpper maxLower fewer
  have minGrows := excluded.minadd
  have maxShrinks := excluded.maxadd
  obtain ⟨limited, sameLow, sameHigh, minProduct, maxProduct⟩ := limitDeviation_spec excluded.add
    fitting short errorNonneg has.maxError (by omega) minUpper maxLower (by omega)
  generalize middle.limitDeviation sc.maxError k = late
    at isAfter limited sameLow sameHigh minProduct maxProduct
  rw [← sameLow] at low enclosesLow
  rw [← sameHigh] at high enclosesHigh
  obtain ⟨exactLow, exactHigh, lowLeast, lowMost, highLeast, highMost⟩ := distance_exact fitting
    inside short has low enclosesLow enclosesHigh high
  obtain ⟨last, lastLow, lastHigh⟩ := limitNext_spec short fitting.positive exactLow exactHigh
    ⟨lowLeast, lowMost⟩ ⟨highLeast, highMost⟩ minProduct maxProduct
  rw [isAfter] at last lastLow lastHigh
  have minGrows' := limited.minadd
  have maxShrinks' := limited.maxadd
  have minGrows'' := last.minadd
  have maxShrinks'' := last.maxadd
  refine ⟨fun known => last.known (limited.known (excluded.known known)), ?_, ?_, ?_, ?_, ?_, ?_⟩
  · rw [lastLow]
    exact low
  · rw [lastLow, lastHigh]
    exact enclosesLow.trans enclosesHigh
  · rw [lastHigh]
    exact high
  all_goals omega

@[simp] theorem bisect_minadd (s : Search) : s.bisect.minadd = s.minadd := rfl

@[simp] theorem bisect_maxadd (s : Search) : s.bisect.maxadd = s.maxadd := rfl

theorem bisect_searching (known : Known w s) (low : w.minp 1 ≤ s.outerMininterval)
    (nonempty : s.outerMininterval ≤ s.outerMaxinterval) (high : s.outerMaxinterval ≤ w.maxp 1)
    (minadd : -32768 ≤ s.minadd) (maxadd : s.maxadd ≤ 32767) (range : s.minadd ≤ s.maxadd) :
    Searching w s.bisect := by
  have difference : i32 (s.maxadd - s.minadd) = s.maxadd - s.minadd :=
    i32_of_range (by omega) (by omega)
  have quarter : (s.maxadd - s.minadd).tdiv 4 = (s.maxadd - s.minadd) / 4 :=
    Int.tdiv_eq_ediv_of_nonneg (by omega)
  have isAdd : s.bisect.add = s.maxadd - (s.maxadd - s.minadd) / 4 := by
    simp only [bisect, difference, quarter]
    exact i32_of_range (by omega) (by omega)
  refine ⟨low, nonempty, high, minadd, ?_, ?_, maxadd, .inr ⟨{ known.found with },
    known.short⟩⟩
  · change s.minadd ≤ s.bisect.add
    omega
  · change s.bisect.add ≤ s.maxadd
    omega

def Search.considered (s : Search) (interval : Int) (k : Nat) : Search :=
  if s.better interval (position interval s.add k) then
    s.record interval k (position interval s.add k)
  else s

theorem Searching.considered (searching : Searching w s) (fitting : Fitting w interval s.add k)
    (short : k ≤ 0x200) :
    Searching w (s.considered interval k) ∧ Known w (s.considered interval k) ∧
      (s.considered interval k).add = s.add ∧
      (s.considered interval k).outerMininterval = s.outerMininterval ∧
      (s.considered interval k).outerMaxinterval = s.outerMaxinterval ∧
      (s.considered interval k).minadd = s.minadd ∧
      (s.considered interval k).maxadd = s.maxadd := by
  have known : Known w (s.considered interval k) :=
    searching.consider fitting short
  obtain ⟨low, nonempty, high, minadd, addLower, addUpper, maxadd, -⟩ := searching
  unfold Search.considered at known ⊢
  split
  · rename_i better
    rw [if_pos better] at known
    exact ⟨⟨low, nonempty, high, minadd, addLower, addUpper, maxadd, .inr known⟩, known, rfl, rfl,
      rfl, rfl, rfl⟩
  · rename_i notBetter
    rw [if_neg notBetter] at known
    exact ⟨⟨low, nonempty, high, minadd, addLower, addUpper, maxadd, .inr known⟩, known, rfl, rfl,
      rfl, rfl, rfl⟩

/-- One round in which the sequence stops before the end of the queue. -/
theorem bisectLoop_stops {nextpoint : Points}
    (finds : findLongest sc available s.add (available + 1) s.outerMininterval s.outerMaxinterval
      s.outerMaxinterval 1 = some (.stops interval nextmin nextmax (k + 1) nextpoint))
    (fitting : Fitting w interval s.add k) :
    bisectLoop sc available (fuel + 1) s =
      let better := s.better interval (position interval s.add k)
      let after := (s.considered interval k).narrow sc.maxError interval nextmin nextmax k nextpoint
      if better ∧ (k : Int) > 0x200 then some (s.considered interval k).result
      else if after.minadd > after.maxadd then some after.result
      else bisectLoop sc available fuel after.bisect := by
  have count : ((k + 1 : Nat) : Int) - 1 = k := by omega
  rw [bisectLoop, finds]
  simp only [count, fitting.reach_exact]
  rfl

/-- **The outer loop ends with a valid sequence.** -/
theorem bisectLoop_accepted (has : HasWindows sc w) (nonempty : 1 ≤ available)
    (searching : Searching w s) (enough : s.maxadd - s.minadd < fuel) :
    ∃ move, bisectLoop sc available fuel s = some move ∧ Accepted w move := by
  induction fuel generalizing s with
  | zero =>
    have lower := searching.addLower
    have upper := searching.addUpper
    omega
  | succ fuel ih =>
    have shortAdd := searching.short_add
    have fitsFirst : ∀ i, s.outerMininterval ≤ i → i ≤ s.outerMaxinterval →
        Fits w i s.add 1 := by
      intro i atLeast atMost j positive small
      obtain rfl : j = 1 := by omega
      rw [position_one]
      exact ⟨searching.low.trans atLeast, atMost.trans searching.high⟩
    obtain ⟨longest, finds, sound⟩ := findLongest_sound has shortAdd (Nat.le_refl 1) nonempty
      searching.nonempty fitsFirst (by omega : available < available + 1 + 1)
    cases longest with
    | coversQueue interval count =>
      obtain ⟨rfl, fits⟩ := sound
      rw [bisectLoop, finds]
      exact ⟨_, rfl, accepted_stepMove has.short
        ⟨count, rfl, nonempty, Nat.le_refl _, fits, shortAdd⟩⟩
    | stops interval nextmin nextmax nextcount nextpoint =>
      obtain ⟨k, rfl, positive, inside, rfl, fits, atLeast, atMost, early, reached⟩ := sound
      have fitting : Fitting w interval s.add k := ⟨fits, positive, inside.le, shortAdd⟩
      rw [bisectLoop_stops finds fitting]
      dsimp only
      rcases Nat.lt_or_ge 0x200 k with long | short
      · have better := searching.better_of_long fitting long
        rw [if_pos ⟨better, by omega⟩, considered, if_pos better]
        exact ⟨_, rfl, (searching.record fitting _).result has.short⟩
      · rw [if_neg (by omega)]
        obtain ⟨considered, known, sameAdd, sameLow, sameHigh, sameMin, sameMax⟩ :=
          searching.considered fitting short
        rw [← sameLow] at atLeast reached
        rw [← sameHigh] at atMost
        rw [← sameAdd] at fitting early reached
        obtain ⟨keeps, low, enclosed, high, minadd, maxadd, fewer⟩ := narrow_spec has considered
          fitting inside short atLeast atMost early reached
        split
        · exact ⟨_, rfl, (keeps known).found.result has.short⟩
        · rename_i range
          apply ih
          · exact bisect_searching (keeps known) low enclosed high minadd maxadd
              (not_lt.mp range)
          · rw [bisect_maxadd, bisect_minadd]
            omega

end Round

theorem compressBisectAdd_accepted (has : HasWindows sc w)
    (isAvailable : available = min sc.queue.length 65535) (nonempty : 1 ≤ available) :
    ∃ move, compressBisectAdd sc = some move ∧ Accepted w move := by
  have window := w.nonempty 1 (Nat.le_refl 1) nonempty
  unfold compressBisectAdd
  rw [← isAvailable, has.points 0 nonempty]
  apply bisectLoop_accepted has nonempty
  · exact ⟨le_refl _, window, le_refl _, by norm_num, by norm_num, by norm_num, by norm_num,
      .inl ⟨rfl, rfl⟩⟩
  · norm_num [bisectLimit]

end MagnetoX.Host.StepCompress
