import MagnetoX.Host.StepCompress.Model
import MagnetoX.Library.QuadraticSequence

/-!
Owns the search of `compress_bisect_add` for one `add`: the longest sequence it
finds stays in the windows of all its points.

The search computes in 32 bits. As long as a sequence stays in its windows, its
parts are bounded by `CLOCK_DIFF_MAX`, and a product for the next point can
exceed them only by little. The one value that does overflow, `count*(count-1)`
for a long queue, is multiplied by an `add` of zero.
-/

namespace MagnetoX.Host.StepCompress

open Library.QuadraticSequence Library.Word

theorem idivUp_spec {n d : Int} (positive : 0 < d) (lower : -2147483648 ≤ n)
    (upper : n + d < 2147483648) :
    n ≤ idivUp n d * d ∧ ∀ i, n ≤ i * d → idivUp n d ≤ i := by
  unfold idivUp
  split
  · rename_i nonneg
    have sum : i32 (n + d) = n + d := i32_of_range (by omega) (by omega)
    rw [sum, i32_of_range (by omega) (by omega), Int.tdiv_eq_ediv_of_nonneg (by omega)]
    have floor := Int.mul_ediv_add_emod (n + d - 1) d
    have remainder := Int.emod_lt_of_pos (n + d - 1) positive
    have commuted := mul_comm d ((n + d - 1) / d)
    constructor
    · omega
    · intro i enough
      apply Int.le_of_lt_add_one
      apply Int.ediv_lt_of_lt_mul positive
      rw [add_mul]
      omega
  · rename_i negative
    have flipped : n.tdiv d = -((-n) / d) := by
      rw [← Int.tdiv_eq_ediv_of_nonneg (by omega), Int.neg_tdiv, neg_neg]
    rw [flipped]
    have floor := Int.mul_ediv_add_emod (-n) d
    have remainder := Int.emod_nonneg (-n) (by omega : d ≠ 0)
    have commuted := mul_comm d ((-n) / d)
    constructor
    · rw [neg_mul]
      omega
    · intro i enough
      have bound : -i ≤ (-n) / d := by
        apply (Int.le_ediv_iff_mul_le positive).mpr
        rw [neg_mul]
        omega
      omega

theorem idivDown_spec {n d : Int} (positive : 0 < d) (lower : -2147483648 ≤ n - d) :
    idivDown n d * d ≤ n ∧ ∀ i, i * d ≤ n → i ≤ idivDown n d := by
  unfold idivDown
  split
  · rename_i nonneg
    rw [Int.tdiv_eq_ediv_of_nonneg (by omega)]
    constructor
    · exact Int.ediv_mul_le n (by omega)
    · intro i enough
      exact (Int.le_ediv_iff_mul_le positive).mpr enough
  · rename_i negative
    have difference : i32 (n - d) = n - d := i32_of_range (by omega) (by omega)
    rw [difference, i32_of_range (by omega) (by omega)]
    have flipped : (n - d + 1).tdiv d = -((-(n - d + 1)) / d) := by
      rw [← Int.tdiv_eq_ediv_of_nonneg (by omega), Int.neg_tdiv, neg_neg]
    rw [flipped]
    have floor := Int.mul_ediv_add_emod (-(n - d + 1)) d
    have remainder := Int.emod_lt_of_pos (-(n - d + 1)) positive
    have commuted := mul_comm d ((-(n - d + 1)) / d)
    constructor
    · rw [neg_mul]
      omega
    · intro i enough
      have bound : (-(n - d + 1)) / d < -i + 1 := by
        apply Int.ediv_lt_of_lt_mul positive
        rw [add_mul, neg_mul]
        omega
      omega

section Bounds

variable {available count : Nat} {w : Windows available CLOCK_DIFF_MAX} {interval add : Int}
  {k : Nat}

structure Short (add : Int) : Prop where
  lower : -32768 ≤ add
  upper : add ≤ 32767

structure Fitting (w : Windows available CLOCK_DIFF_MAX) (interval add : Int) (k : Nat) : Prop where
  fits : Fits w interval add k
  positive : 1 ≤ k
  inside : k ≤ available
  short : Short add

section

variable (fitting : Fitting w interval add k)
include fitting

theorem Fitting.interval_pos : 1 ≤ interval := by
  have first := fitting.fits.increment_pos fitting.inside
    (Nat.lt_of_lt_of_le Nat.zero_lt_one fitting.positive)
  simpa using first

theorem Fitting.position_range :
    1 ≤ position interval add k ∧ position interval add k ≤ 805306368 :=
  fitting.fits.position_range fitting.positive fitting.inside

theorem Fitting.add_triangle_range : -805306368 ≤ add * triangle k ∧ add * triangle k ≤ 805306368 :=
  fitting.fits.add_triangle_range fitting.positive fitting.inside

theorem Fitting.add_mul_range : -33554432 ≤ add * k ∧ add * k ≤ 33554432 := by
  obtain ⟨lower, upper⟩ := fitting.short
  rcases Nat.lt_or_ge 1024 k with long | small
  · obtain ⟨least, most⟩ := fitting.add_triangle_range
    have double : add * k * (k - 1) = 2 * (add * triangle k) := by
      have regroup : 2 * (add * triangle k) = add * (2 * triangle k) := by ring
      rw [regroup, two_mul_triangle]
      ring
    rcases le_total 0 (add * k) with up | down
    · have scaled : add * k * 1023 ≤ add * k * (k - 1) :=
        mul_le_mul_of_nonneg_left (by omega) up
      omega
    · have scaled : add * k * (k - 1) ≤ add * k * 1023 :=
        mul_le_mul_of_nonpos_left (by omega) down
      omega
  · have atMost : add * k ≤ 32767 * k := mul_le_mul_of_nonneg_right upper (by omega)
    have atLeast : -32768 * k ≤ add * k := mul_le_mul_of_nonneg_right lower (by omega)
    omega

end

theorem addFactor_eq (small : count ≤ 46341) :
    addFactor count = triangle count := by
  have double := two_mul_triangle count
  have nonneg := triangle_nonneg count
  have product : (count : Int) * (count - 1) ≤ 46341 * 46340 := by
    rcases Nat.eq_zero_or_pos count with rfl | positive
    · simp
    · exact mul_le_mul (by omega) (by omega) (by omega) (by omega)
  unfold addFactor
  rw [← double] at product ⊢
  rw [i32_of_range (by omega) (by omega), Int.tdiv_eq_ediv_of_nonneg (by omega)]
  omega

theorem count_le_of_add_ne_zero (fits : Fits w interval add k) (positive : 1 ≤ k)
    (inside : k ≤ available) (nonzero : add ≠ 0) : k ≤ 46339 := by
  by_contra long
  obtain ⟨least, most⟩ := fits.add_triangle_range positive inside
  rw [CLOCK_DIFF_MAX] at least most
  have double := two_mul_triangle k
  have product : (46340 : Int) * 46339 ≤ k * (k - 1) :=
    mul_le_mul (by omega) (by omega) (by omega) (by omega)
  have nonneg := triangle_nonneg k
  rcases lt_or_gt_of_ne nonzero with negative | positive
  · have scaled : add * triangle k ≤ -1 * triangle k :=
      mul_le_mul_of_nonneg_right (by omega) nonneg
    omega
  · have scaled : 1 * triangle k ≤ add * triangle k :=
      mul_le_mul_of_nonneg_right (by omega) nonneg
    omega

/-- The quadratic parts of the last point covered and of the next one are
exact. -/
theorem mul_addFactor (fits : Fits w interval add k) (positive : 1 ≤ k) (inside : k ≤ available)
    (near : count ≤ k + 1) : add * addFactor count = add * triangle count := by
  by_cases zero : add = 0
  · rw [zero, zero_mul, zero_mul]
  · have small := count_le_of_add_ne_zero fits positive inside zero
    rw [addFactor_eq (by omega)]

theorem Fitting.next_product_lt (fitting : Fitting w interval add k) :
    interval * (k + 1 : Nat) ≤ 2013265920 ∧ (4 ≤ k → interval ≤ 402653184) := by
  have own := fitting.interval_pos
  have positive := fitting.positive
  obtain ⟨least, most⟩ := fitting.add_triangle_range
  obtain ⟨-, atMost⟩ := fitting.position_range
  rw [position] at atMost
  obtain ⟨lower, upper⟩ := fitting.short
  have next : interval * (k + 1 : Nat) = interval * k + interval := by
    push_cast
    ring
  rw [next]
  rcases Nat.lt_or_ge k 4 with few | many
  · refine ⟨?_, fun many => absurd many (by omega)⟩
    obtain rfl | rfl | rfl : k = 1 ∨ k = 2 ∨ k = 3 := by omega
    all_goals
      simp only [triangle] at atMost
      push_cast at atMost ⊢
      omega
  · have scaled : interval * 4 ≤ interval * k :=
      mul_le_mul_of_nonneg_left (by omega) (by omega)
    omega

end Bounds

theorem raiseMin_spec {nextmininterval c minp : Int} {nextcount : Nat} (positive : 0 < nextcount)
    (productLower : -2147483648 ≤ nextmininterval * nextcount)
    (productUpper : nextmininterval * nextcount < 2147483648) (lower : -2147483648 ≤ minp - c)
    (upper : minp - c + nextcount < 2147483648) :
    nextmininterval ≤ raiseMin nextmininterval c minp nextcount ∧
      minp - c ≤ raiseMin nextmininterval c minp nextcount * nextcount ∧
      ∀ i, nextmininterval ≤ i → minp - c ≤ i * nextcount →
        raiseMin nextmininterval c minp nextcount ≤ i := by
  have exact : i32 (minp - c) = minp - c := i32_of_range lower (by omega)
  obtain ⟨reaches, least⟩ :=
    @idivUp_spec (minp - c) nextcount (by omega) lower upper
  unfold raiseMin
  rw [exact, i32_of_range productLower productUpper]
  split
  · rename_i short
    refine ⟨?_, reaches, fun i _ enough => least i enough⟩
    have more : nextmininterval * nextcount < idivUp (minp - c) nextcount * nextcount := by omega
    exact (lt_of_mul_lt_mul_right more (by omega)).le
  · rename_i enough
    exact ⟨le_refl _, not_lt.mp enough, fun i atLeast _ => atLeast⟩

theorem lowerMax_spec {nextmaxinterval c maxp : Int} {nextcount : Nat} (positive : 0 < nextcount)
    (productLower : -2147483648 ≤ nextmaxinterval * nextcount)
    (productUpper : nextmaxinterval * nextcount < 2147483648)
    (lower : -2147483648 ≤ maxp - c - nextcount) (upper : maxp - c < 2147483648) :
    lowerMax nextmaxinterval c maxp nextcount ≤ nextmaxinterval ∧
      lowerMax nextmaxinterval c maxp nextcount * nextcount ≤ maxp - c ∧
      ∀ i, i ≤ nextmaxinterval → i * nextcount ≤ maxp - c →
        i ≤ lowerMax nextmaxinterval c maxp nextcount := by
  have exact : i32 (maxp - c) = maxp - c := i32_of_range (by omega) upper
  obtain ⟨below, greatest⟩ := @idivDown_spec (maxp - c) nextcount (by omega) lower
  unfold lowerMax
  rw [exact, i32_of_range productLower productUpper]
  split
  · rename_i far
    refine ⟨?_, below, fun i _ enough => greatest i enough⟩
    have less : idivDown (maxp - c) nextcount * nextcount < nextmaxinterval * nextcount := by omega
    exact (lt_of_mul_lt_mul_right less (by omega)).le
  · rename_i enough
    exact ⟨le_refl _, not_lt.mp enough, fun i atMost _ => atMost⟩

structure HasWindows (sc : Stepcompress) {available : Nat}
    (w : Windows available CLOCK_DIFF_MAX) : Prop where
  points : ∀ k, k < available → minmaxPoint sc k = ⟨w.minp (k + 1), w.maxp (k + 1)⟩
  /-- The first window is not wider than the error allowed. -/
  width : w.maxp 1 - w.minp 1 ≤ sc.maxError
  maxError : sc.maxError < 1048576
  short : available ≤ 65535

/-- What the search returns: the sequence fits and its interval lies between the
given bounds. If it stops, the bounds that it leaves are not past the interval on
the side on which the next point is missed. -/
def Longest.Sound {available : Nat} (w : Windows available CLOCK_DIFF_MAX) (add low high : Int) :
    Longest → Prop
  | .coversQueue interval count => count = available ∧ Fits w interval add available
  | .stops interval nextmininterval nextmaxinterval nextcount nextpoint =>
      ∃ k, nextcount = k + 1 ∧ 1 ≤ k ∧ k < available ∧
        nextpoint = ⟨w.minp (k + 1), w.maxp (k + 1)⟩ ∧ Fits w interval add k ∧
        low ≤ interval ∧ interval ≤ high ∧
        (position interval add (k + 1) < w.minp (k + 1) → nextmaxinterval = interval) ∧
        (w.minp (k + 1) ≤ position interval add (k + 1) →
          low ≤ nextmininterval ∧ nextmininterval ≤ interval)

section Longest

variable {sc : Stepcompress} {available : Nat} {w : Windows available CLOCK_DIFF_MAX}
  {add low high : Int} {k : Nat}

theorem Fitting.next_add_exact {interval : Int} (fitting : Fitting w interval add k) :
    i32 (add * addFactor (k + 1 : Nat)) = add * triangle (k + 1) ∧
      -838860800 ≤ add * triangle (k + 1) ∧ add * triangle (k + 1) ≤ 838860800 := by
  obtain ⟨least, most⟩ := fitting.add_triangle_range
  obtain ⟨lower, upper⟩ := fitting.add_mul_range
  have split : add * triangle (k + 1) = add * triangle k + add * k := by
    rw [triangle]
    ring
  rw [mul_addFactor fitting.fits fitting.positive fitting.inside (Nat.le_refl _)]
  refine ⟨i32_of_range ?_ ?_, ?_, ?_⟩ <;> omega

/-- One round of the search: the bounds of the interval for the next point. -/
theorem next_bounds (inside : k < available) (few : available ≤ 65535) (nonempty : low ≤ high)
    (fitsLow : Fitting w low add k) (fitsHigh : Fitting w high add k) :
    let c := i32 (add * addFactor (k + 1 : Nat))
    let nextmin := raiseMin low c (w.minp (k + 1)) (k + 1)
    let nextmax := lowerMax high c (w.maxp (k + 1)) (k + 1)
    low ≤ nextmin ∧ nextmax ≤ high ∧
      (∀ i, nextmin ≤ i → i ≤ nextmax → w.minp (k + 1) ≤ position i add (k + 1) ∧
        position i add (k + 1) ≤ w.maxp (k + 1)) ∧
      (position high add (k + 1) < w.minp (k + 1) → nextmax = high) ∧
      (w.minp (k + 1) ≤ position high add (k + 1) → nextmin ≤ high) := by
  obtain ⟨exact, addLower, addUpper⟩ := fitsHigh.next_add_exact
  have lowPositive := fitsLow.interval_pos
  obtain ⟨productHigh, -⟩ := fitsHigh.next_product_lt
  have productLow : 1 * ((k + 1 : Nat) : Int) ≤ low * (k + 1 : Nat) :=
    mul_le_mul_of_nonneg_right lowPositive (by omega)
  have productLe : low * ((k + 1 : Nat) : Int) ≤ high * (k + 1 : Nat) :=
    mul_le_mul_of_nonneg_right nonempty (by omega)
  have window := w.nonempty (k + 1) (by omega) inside
  have windowLow := w.minp_pos (k := k + 1) (by omega) inside
  have windowHigh : w.maxp (k + 1) ≤ 805306368 := w.bounded (k + 1) (by omega) inside
  intro c nextmin nextmax
  have isC : c = add * triangle (k + 1) := exact
  obtain ⟨minLe, minReaches, minLeast⟩ := @raiseMin_spec low c (w.minp (k + 1)) (k + 1)
    (by omega) (by omega) (by omega) (by omega) (by omega)
  obtain ⟨maxLe, maxBelow, maxGreatest⟩ := @lowerMax_spec high c (w.maxp (k + 1)) (k + 1)
    (by omega) (by omega) (by omega) (by omega) (by omega)
  change w.minp (k + 1) - c ≤ nextmin * (k + 1 : Nat) at minReaches
  change nextmax * (k + 1 : Nat) ≤ w.maxp (k + 1) - c at maxBelow
  refine ⟨minLe, maxLe, ?_, ?_, ?_⟩
  · intro i atLeast atMost
    have productMin : nextmin * ((k + 1 : Nat) : Int) ≤ i * (k + 1 : Nat) :=
      mul_le_mul_of_nonneg_right atLeast (by omega)
    have productMax : i * ((k + 1 : Nat) : Int) ≤ nextmax * (k + 1 : Nat) :=
      mul_le_mul_of_nonneg_right atMost (by omega)
    unfold position
    constructor <;> omega
  · intro early
    unfold position at early
    exact le_antisymm maxLe (maxGreatest high (le_refl _) (by omega))
  · intro reached
    unfold position at reached
    exact minLeast high nonempty (by omega)

theorem Longest.Sound.widen {low' high' : Int} {longest : Longest}
    (sound : longest.Sound w add low' high') (lower : low ≤ low') (upper : high' ≤ high) :
    longest.Sound w add low high := by
  cases longest with
  | coversQueue interval count => exact sound
  | stops interval nextmininterval nextmaxinterval nextcount nextpoint =>
    obtain ⟨k, next, positive, inside, point, fits, atLeast, atMost, early, reached⟩ := sound
    refine ⟨k, next, positive, inside, point, fits, lower.trans atLeast, atMost.trans upper, early,
      ?_⟩
    intro reaches
    exact ⟨lower.trans (reached reaches).1, (reached reaches).2⟩

/-- **The longest sequence with one `add`.** If every interval between the bounds
fits the points covered so far, the search ends, and its result is sound. -/
theorem findLongest_sound (has : HasWindows sc w) (short : Short add) {fuel : Nat}
    (positive : 1 ≤ k) (inside : k ≤ available) (nonempty : low ≤ high)
    (fits : ∀ i, low ≤ i → i ≤ high → Fits w i add k) (enough : available < fuel + k) :
    ∃ longest, findLongest sc available add fuel low high high k = some longest ∧
      longest.Sound w add low high := by
  induction fuel generalizing low high k with
  | zero => omega
  | succ fuel ih =>
    have fitsHigh := fits high nonempty (le_refl _)
    rw [findLongest]
    rcases Nat.lt_or_ge k available with more | done
    · obtain ⟨minLe, maxLe, covers, early, reached⟩ := next_bounds more has.short nonempty
        ⟨fits low (le_refl _) nonempty, positive, inside, short⟩ ⟨fitsHigh, positive, inside, short⟩
      rw [if_neg (by omega), has.points k more]
      dsimp only
      split
      · refine ⟨_, rfl, k, rfl, positive, more, rfl, fitsHigh, nonempty, le_refl _, early, ?_⟩
        exact fun reaches => ⟨minLe, reached reaches⟩
      · rename_i stillNonempty
        obtain ⟨longest, finds, sound⟩ := ih (k := k + 1) (by omega) more
          (not_lt.mp stillNonempty)
          (fun i atLeast atMost =>
            (fits i (minLe.trans atLeast) (atMost.trans maxLe)).succ (covers i atLeast atMost))
          (by omega)
        exact ⟨longest, finds, sound.widen minLe maxLe⟩
    · rw [if_pos done]
      obtain rfl : k = available := by omega
      exact ⟨_, rfl, rfl, fitsHigh⟩

end Longest

end MagnetoX.Host.StepCompress
