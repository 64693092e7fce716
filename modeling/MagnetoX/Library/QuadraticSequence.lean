import Mathlib.Tactic.Linarith
import Mathlib.Tactic.Ring

/-!
Owns sequences of positions whose increments change by a constant: the position
after `k` steps, sequences that stay in given windows, and how far the parameters
of a sequence can go while it does.
-/

namespace MagnetoX.Library.QuadraticSequence

def triangle : Nat → Int
  | 0 => 0
  | k + 1 => triangle k + k

theorem two_mul_triangle (k : Nat) : 2 * triangle k = k * (k - 1) := by
  induction k with
  | zero => rfl
  | succ k ih =>
    rw [triangle, mul_add, ih]
    push_cast
    ring

theorem two_mul_triangle_succ (k : Nat) : 2 * triangle (k + 1) = k * k + k := by
  rw [two_mul_triangle]
  push_cast
  ring

theorem triangle_nonneg (k : Nat) : 0 ≤ triangle k := by
  induction k with
  | zero => exact le_refl 0
  | succ k ih =>
    rw [triangle]
    omega

/-- The position after `k` steps; step `k` has the increment
`interval + add * (k - 1)`. -/
def position (interval add : Int) (k : Nat) : Int := interval * k + add * triangle k

theorem position_succ (interval add : Int) (k : Nat) :
    position interval add (k + 1) = position interval add k + (interval + add * k) := by
  simp only [position, triangle]
  push_cast
  ring

theorem position_one (interval add : Int) : position interval add 1 = interval := by
  simp [position, triangle]

/-- Windows for the first `count` positions: they are apart, in order, and none is
above `limit`. -/
structure Windows (count : Nat) (limit : Int) where
  minp : Nat → Int
  maxp : Nat → Int
  first : 1 ≤ minp 1
  nonempty : ∀ k, 1 ≤ k → k ≤ count → minp k ≤ maxp k
  bounded : ∀ k, 1 ≤ k → k ≤ count → maxp k ≤ limit
  apart : ∀ k, 1 ≤ k → k < count → maxp k < minp (k + 1)

variable {count : Nat} {limit : Int} (w : Windows count limit)

def Windows.take {few : Nat} (le : few ≤ count) : Windows few limit where
  minp := w.minp
  maxp := w.maxp
  first := w.first
  nonempty k positive inside := w.nonempty k positive (inside.trans le)
  bounded k positive inside := w.bounded k positive (inside.trans le)
  apart k positive inside := w.apart k positive (inside.trans_le le)

def Fits (interval add : Int) (k : Nat) : Prop :=
  ∀ j, 1 ≤ j → j ≤ k → w.minp j ≤ position interval add j ∧ position interval add j ≤ w.maxp j

variable {w} {interval add : Int} {k j : Nat}

theorem Fits.of_le (fits : Fits w interval add k) (le : j ≤ k) :
    Fits w interval add j :=
  fun i positive small => fits i positive (small.trans le)

theorem Fits.succ (fits : Fits w interval add k)
    (next : w.minp (k + 1) ≤ position interval add (k + 1) ∧
      position interval add (k + 1) ≤ w.maxp (k + 1)) : Fits w interval add (k + 1) := by
  intro j positive small
  rcases Nat.lt_or_ge k j with last | earlier
  · obtain rfl : j = k + 1 := by omega
    exact next
  · exact fits j positive earlier

theorem Windows.maxp_lt_minp (positive : 1 ≤ j) (below : j < k) (inside : k ≤ count) :
    w.maxp j < w.minp k := by
  induction k with
  | zero => omega
  | succ k ih =>
    have step := w.apart k (by omega) (by omega)
    rcases Nat.lt_or_ge j k with further | same
    · have before := ih further (by omega)
      have nonempty := w.nonempty k (by omega) (by omega)
      omega
    · obtain rfl : j = k := by omega
      exact step

theorem Windows.minp_pos (w : Windows count limit) (positive : 1 ≤ k) (inside : k ≤ count) :
    1 ≤ w.minp k := by
  have first := w.first
  rcases Nat.lt_or_ge 1 k with further | same
  · have above := w.maxp_lt_minp le_rfl further inside
    have nonempty := w.nonempty 1 le_rfl (by omega)
    omega
  · obtain rfl : k = 1 := by omega
    exact first

theorem Fits.increment_pos (fits : Fits w interval add k) (inside : k ≤ count)
    (small : j < k) : 1 ≤ interval + add * j := by
  cases j with
  | zero =>
    have own := (fits 1 le_rfl small).1
    have first := w.first
    rw [position_one] at own
    simp only [Nat.cast_zero, mul_zero, add_zero]
    omega
  | succ j =>
    have before := (fits (j + 1) (by omega) (by omega)).2
    have after := (fits (j + 1 + 1) (by omega) (by omega)).1
    have apart := w.apart (j + 1) (by omega) (by omega)
    rw [position_succ interval add (j + 1)] at after
    omega

theorem Fits.position_range (fits : Fits w interval add k) (positive : 1 ≤ k) (inside : k ≤ count) :
    1 ≤ position interval add k ∧ position interval add k ≤ limit := by
  obtain ⟨lower, upper⟩ := fits k positive (Nat.le_refl k)
  have bounded := w.bounded k positive inside
  have atLeast := w.minp_pos positive inside
  constructor
  · exact atLeast.trans lower
  · exact upper.trans bounded

theorem Fits.add_triangle_range (fits : Fits w interval add k) (positive : 1 ≤ k)
    (inside : k ≤ count) :
    -limit ≤ add * triangle k ∧ add * triangle k ≤ limit := by
  obtain ⟨atLeast, atMost⟩ := fits.position_range positive inside
  have double := two_mul_triangle k
  unfold position at atLeast atMost
  have first := fits.increment_pos inside (Nat.lt_of_lt_of_le Nat.zero_lt_one positive)
  simp only [Nat.cast_zero, mul_zero, add_zero] at first
  have linear : 1 * (k : Int) ≤ interval * k := mul_le_mul_of_nonneg_right first (by omega)
  have nonneg := triangle_nonneg k
  rcases le_total 0 add with up | down
  · have product : 0 ≤ add * triangle k := mul_nonneg up nonneg
    constructor <;> omega
  · have product : add * triangle k ≤ 0 := mul_nonpos_of_nonpos_of_nonneg down nonneg
    -- The last increment is positive, so the first is at least `1 - add * (k - 1)`.
    obtain ⟨j, rfl⟩ : ∃ j, k = j + 1 := ⟨k - 1, by omega⟩
    have last := fits.increment_pos inside (Nat.lt_succ_self j)
    have scaled : 1 * ((j + 1 : Nat) : Int) ≤ (interval + add * j) * (j + 1 : Nat) :=
      mul_le_mul_of_nonneg_right last (by omega)
    have split : (interval + add * j) * ((j + 1 : Nat) : Int) =
        interval * (j + 1 : Nat) + 2 * (add * triangle (j + 1)) := by
      have regroup : 2 * (add * triangle (j + 1)) = add * (2 * triangle (j + 1)) := by ring
      rw [regroup, double]
      push_cast
      ring
    constructor <;> omega

end MagnetoX.Library.QuadraticSequence
