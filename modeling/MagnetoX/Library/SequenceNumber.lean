import Mathlib.Tactic.Common

/-!
Owns sequence numbers that are sent as their remainder by a small modulus. The
reader knows a lower bound of the number and resolves the remainder to the next
number from there on.

Contract: inside a window of less than one modulus the remainder determines the
number.
-/

namespace MagnetoX.Library.SequenceNumber

/-- The first number from `base` on with the given remainder. -/
def resolve (modulus base remainder : Nat) : Nat :=
  if base - base % modulus + remainder < base then base - base % modulus + remainder + modulus
  else base - base % modulus + remainder

theorem le_resolve {modulus base remainder : Nat} (positive : 0 < modulus) :
    base ≤ resolve modulus base remainder := by
  have baseMod := Nat.mod_lt base positive
  unfold resolve
  split <;> omega

theorem resolve_mod {modulus base number : Nat} (atLeast : base ≤ number)
    (below : number < base + modulus) : resolve modulus base (number % modulus) = number := by
  have positive : 0 < modulus := by omega
  have splitBase := Nat.div_add_mod base modulus
  have splitNumber := Nat.div_add_mod number modulus
  have floor : base - base % modulus = modulus * (base / modulus) := by omega
  unfold resolve
  rw [floor]
  -- The number lies in the block of its base or in the one behind.
  have close : number / modulus = base / modulus ∨ number / modulus = base / modulus + 1 := by
    have lower : base / modulus ≤ number / modulus := Nat.div_le_div_right atLeast
    have upper : number / modulus ≤ (base + modulus) / modulus :=
      Nat.div_le_div_right (Nat.le_of_lt below)
    rw [Nat.add_div_right _ positive] at upper
    omega
  rcases close with same | next
  · rw [← same]
    split <;> omega
  · have total : modulus * (base / modulus + 1) = modulus * (base / modulus) + modulus :=
      Nat.mul_succ _ _
    rw [next, total] at splitNumber
    split <;> omega

theorem eq_of_mod_eq {modulus first second : Nat} (same : first % modulus = second % modulus)
    (below : first < second + modulus) (above : second < first + modulus) : first = second := by
  rcases Nat.le_total first second with le | le
  · calc first = resolve modulus first (first % modulus) :=
          (resolve_mod (Nat.le_refl first) (by omega)).symm
      _ = resolve modulus first (second % modulus) := by rw [same]
      _ = second := resolve_mod le above
  · calc first = resolve modulus second (first % modulus) := (resolve_mod le below).symm
      _ = resolve modulus second (second % modulus) := by rw [same]
      _ = second := resolve_mod (Nat.le_refl second) (by omega)

end MagnetoX.Library.SequenceNumber
