import Mathlib.Algebra.Order.Ring.Int
import Mathlib.Tactic.Ring

/-!
Owns positional notation with one signed leading digit. A number is written by
its `count + 1` digits in base `base`, most significant first. The reader takes
the leading digit as negative from `threshold` on and accumulates the others.

Contract: the digits of `value` are read back as `value` exactly when
`value / base ^ count`, the part that the leading digit has to carry, lies
between `threshold - base` and `threshold`.
-/

namespace MagnetoX.Library.SignedDigits

/-- The low `count` digits of `value`, most significant first. -/
def digits (base value : Int) : Nat → List Int
  | 0 => []
  | count + 1 => value / base ^ count % base :: digits base value count

def accumulate (base : Int) : Int → List Int → Int
  | value, [] => value
  | value, digit :: rest => accumulate base (value * base + digit) rest

/-- The value of a leading digit. -/
def leading (base threshold digit : Int) : Int :=
  if threshold ≤ digit then digit - base else digit

variable {base threshold value : Int}

theorem digits_range (positive : 0 < base) (count : Nat) :
    ∀ digit ∈ digits base value count, 0 ≤ digit ∧ digit < base := by
  induction count with
  | zero => simp [digits]
  | succ count ih =>
    intro digit member
    rw [digits, List.mem_cons] at member
    rcases member with rfl | member
    · exact ⟨Int.emod_nonneg _ (ne_of_gt positive), Int.emod_lt_of_pos _ positive⟩
    · exact ih digit member

/-- Appending the low digits of `value` to its high part gives `value`. -/
theorem accumulate_digits (positive : 0 < base) (value : Int) (count : Nat) :
    accumulate base (value / base ^ count) (digits base value count) = value := by
  induction count with
  | zero => simp [digits, accumulate]
  | succ count ih =>
    have split : value / base ^ (count + 1) * base + value / base ^ count % base =
        value / base ^ count := by
      rw [pow_succ, ← Int.ediv_ediv_of_nonneg (le_of_lt (pow_pos positive count))]
      exact Int.ediv_mul_add_emod _ _
    rw [digits, accumulate, split, ih]

theorem leading_emod (below : threshold - base ≤ value) (above : value < threshold)
    (atMost : threshold ≤ base) (nonneg : 0 ≤ threshold) :
    leading base threshold (value % base) = value := by
  unfold leading
  rcases lt_or_ge value 0 with negative | positive
  · have shifted : value % base = value + base := by
      rw [← Int.add_emod_right, Int.emod_eq_of_lt (by omega) (by omega)]
    rw [shifted, if_pos (by omega)]
    omega
  · rw [Int.emod_eq_of_lt positive (by omega), if_neg (by omega)]

/-- **The leading digit decides.** Reading back the digits of `value` gives
`value` whenever its high part fits the signed leading digit. -/
theorem accumulate_leading_digits (positive : 0 < base) (count : Nat)
    (below : threshold - base ≤ value / base ^ count) (above : value / base ^ count < threshold)
    (atMost : threshold ≤ base) (nonneg : 0 ≤ threshold) :
    accumulate base (leading base threshold (value / base ^ count % base))
      (digits base value count) = value := by
  rw [leading_emod below above atMost nonneg, accumulate_digits positive]

end MagnetoX.Library.SignedDigits
