import Mathlib.Tactic.Linarith

/-!
Owns fixed-width machine words as wrapped integers: a C variable of an unsigned
or signed type of `width` bits holds the representative that `unsigned width`
or `signed width` selects. Division is C's, which truncates toward zero.

Does not own any statement about a particular program.
-/

namespace MagnetoX.Library.Word

/-- The value stored in an unsigned word of `width` bits. -/
def unsigned (width : Nat) (value : Int) : Int := value % 2 ^ width

/-- The value stored in a two's complement word of `width` bits. -/
def signed (width : Nat) (value : Int) : Int :=
  (value + 2 ^ (width - 1)) % 2 ^ width - 2 ^ (width - 1)

abbrev u16 (value : Int) : Int := unsigned 16 value
abbrev u32 (value : Int) : Int := unsigned 32 value
abbrev u64 (value : Int) : Int := unsigned 64 value
abbrev i16 (value : Int) : Int := signed 16 value
abbrev i32 (value : Int) : Int := signed 32 value
abbrev i64 (value : Int) : Int := signed 64 value

theorem unsigned_nonneg (width : Nat) (value : Int) : 0 ≤ unsigned width value :=
  Int.emod_nonneg _ (by positivity)

theorem unsigned_lt (width : Nat) (value : Int) : unsigned width value < 2 ^ width :=
  Int.emod_lt_of_pos _ (by positivity)

variable {value : Int}

theorem unsigned_of_range {width : Nat} (nonneg : 0 ≤ value)
    (small : value < 2 ^ width) : unsigned width value = value :=
  Int.emod_eq_of_lt nonneg small

theorem i32_of_range (lower : -2147483648 ≤ value) (upper : value < 2147483648) :
    i32 value = value := by
  simp only [i32, signed]
  omega

/-- A difference is the same whether its second part was wrapped or not. -/
theorem i32_sub_i32 (first second : Int) : i32 (first - i32 second) = i32 (first - second) := by
  simp only [i32, signed]
  omega

theorem i16_of_range (lower : -32768 ≤ value) (upper : value < 32768) : i16 value = value := by
  simp only [i16, signed]
  omega

end MagnetoX.Library.Word
