import MagnetoX.Library.SignedDigits
import MagnetoX.Library.Word

/-!
Owns the variable length integers of the Klipper protocol: `encode_int` and
`parse_int`, whose text is the same in `src/command.c` and
`klippy/chelper/msgblock.c`, and `PT_uint32.encode` and `PT_uint32.parse` of
`klippy/msgproto.py`.

The C functions work on `UInt32`; a pointer is an index into the buffer, and a
read past the end of the buffer has no result. Python integers are unbounded,
and a mask or a shift by a constant is written as the remainder or the quotient
it computes.

Both encoders emit base 128 digits with a continuation bit. What differs is the
number whose digits they emit, see `wireValue`.
-/

namespace MagnetoX.Message

open Library.SignedDigits Library.Word List Option

abbrev Bytes := List UInt8

/-- Encode an integer as a variable length quantity (vlq). The labels `f1` to
`f4` of the source are the tails that the jumps leave to be written. -/
def encodeInt (v : UInt32) : Bytes :=
  let sv := i32 v.toNat
  let f4 := [(v &&& 0x7f).toUInt8]
  let f3 := ((v >>> 7 &&& 0x7f) ||| 0x80).toUInt8 :: f4
  let f2 := ((v >>> 14 &&& 0x7f) ||| 0x80).toUInt8 :: f3
  let f1 := ((v >>> 21 &&& 0x7f) ||| 0x80).toUInt8 :: f2
  if sv < 3 * 2 ^ 5 ∧ sv ≥ -2 ^ 5 then f4
  else if sv < 3 * 2 ^ 12 ∧ sv ≥ -2 ^ 12 then f3
  else if sv < 3 * 2 ^ 19 ∧ sv ≥ -2 ^ 19 then f2
  else if sv < 3 * 2 ^ 26 ∧ sv ≥ -2 ^ 26 then f1
  else (v >>> 28 ||| 0x80).toUInt8 :: f1

/-- The loop of `parse_int`, from one continuation byte on. -/
def parseIntLoop (v : UInt32) : Bytes → Option (UInt32 × Nat)
  | [] => none
  | c :: rest =>
      let v := v <<< 7 ||| (c &&& 0x7f).toUInt32
      if c &&& 0x80 ≠ 0 then (parseIntLoop v rest).map (fun read => (read.1, read.2 + 1))
      else some (v, 1)

def parseInt (buf : Bytes) (p : Nat) : Option (UInt32 × Nat) :=
  match buf.drop p with
  | [] => none
  | c :: rest =>
      let v := (c &&& 0x7f).toUInt32
      let v := if c &&& 0x60 = 0x60 then v ||| -0x20 else v
      if c &&& 0x80 ≠ 0 then (parseIntLoop v rest).map (fun read => (read.1, p + 1 + read.2))
      else some (v, p + 1)

/-- `(v >> shift) & 0x7f | 0x80`. -/
def ptIntHigh (v : Int) (shift : Nat) : UInt8 := UInt8.ofNat ((v >>> shift) % 128).toNat ||| 0x80

def ptIntEncode (v : Int) : Bytes :=
  (if v ≥ 0xc000000 ∨ v < -0x4000000 then [ptIntHigh v 28] else []) ++
  (if v ≥ 0x180000 ∨ v < -0x80000 then [ptIntHigh v 21] else []) ++
  (if v ≥ 0x3000 ∨ v < -0x1000 then [ptIntHigh v 14] else []) ++
  (if v ≥ 0x60 ∨ v < -0x20 then [ptIntHigh v 7] else []) ++
  [UInt8.ofNat (v % 128).toNat]

/-- The loop of `PT_uint32.parse`: `(v << 7) | (c & 0x7f)` adds the seven bits
that the shift cleared. -/
def ptIntParseLoop (v : Int) : Bytes → Option (Int × Nat)
  | [] => none
  | c :: rest =>
      let v := v * 128 + (c.toNat % 128 : Nat)
      if c &&& 0x80 ≠ 0 then (ptIntParseLoop v rest).map (fun read => (read.1, read.2 + 1))
      else some (v, 1)

/-- `PT_uint32.parse`. With bits 5 and 6 set, `v |= -0x20` is the sign extension
of a seven bit number. -/
def ptIntParse (isSigned : Bool) (s : Bytes) (pos : Nat) : Option (Int × Nat) :=
  match s.drop pos with
  | [] => none
  | c :: rest =>
      let v : Int := (c.toNat % 128 : Nat)
      let v := if c &&& 0x60 = 0x60 then v - 128 else v
      let read :=
        if c &&& 0x80 ≠ 0 then
          (ptIntParseLoop v rest).map (fun read => (read.1, pos + 1 + read.2))
        else some (v, pos + 1)
      read.map (fun read => (if isSigned then read.1 else u32 read.1, read.2))

def StandsAt (buf : Bytes) (p : Nat) (bytes : Bytes) : Prop := bytes <+: buf.drop p

namespace StandsAt

variable {buf first second bytes : Bytes} {p : Nat} {c : UInt8}

theorem left (stands : StandsAt buf p (first ++ second)) : StandsAt buf p first :=
  (prefix_append first second).trans stands

theorem right (stands : StandsAt buf p (first ++ second)) :
    StandsAt buf (p + first.length) second := by
  obtain ⟨rest, split⟩ := stands
  refine ⟨rest, ?_⟩
  rw [← drop_drop, ← split, append_assoc, drop_left]

theorem head (stands : StandsAt buf p (c :: bytes)) : buf[p]? = some c := by
  obtain ⟨rest, split⟩ := stands
  rw [← head?_drop, ← split]
  rfl

theorem tail (stands : StandsAt buf p (c :: bytes)) : StandsAt buf (p + 1) bytes :=
  @right buf [c] bytes p stands

theorem take (stands : StandsAt buf p bytes) : (buf.drop p).take bytes.length = bytes :=
  (prefix_iff_eq_take.mp stands).symm

end StandsAt

/-- A list of base 128 digits as bytes: all but the last carry the
continuation bit. -/
def flagged : List Int → Bytes
  | [] => []
  | [digit] => [UInt8.ofNat digit.toNat]
  | digit :: rest => UInt8.ofNat (digit.toNat + 128) :: flagged rest

variable {digit : Int}

theorem flagged_cons {rest : List Int} (more : rest ≠ []) :
    flagged (digit :: rest) = UInt8.ofNat (digit.toNat + 128) :: flagged rest := by
  cases rest with
  | nil => exact absurd rfl more
  | cons head tail => rfl

@[simp] theorem flagged_length (digits : List Int) : (flagged digits).length = digits.length := by
  induction digits with
  | nil => rfl
  | cons digit rest ih =>
    cases rest with
    | nil => rfl
    | cons head tail => simpa [flagged] using ih

def IsDigit (digit : Int) : Prop := 0 ≤ digit ∧ digit < 128

theorem byte_cases (c : UInt8) :
    (c &&& 0x80 ≠ 0 ↔ 128 ≤ c.toNat) ∧ (c &&& 0x60 = 0x60 ↔ 96 ≤ c.toNat % 128) := by
  have table : ∀ n < 256, (UInt8.ofNat n &&& 0x80 ≠ 0 ↔ 128 ≤ (UInt8.ofNat n).toNat) ∧
      (UInt8.ofNat n &&& 0x60 = 0x60 ↔ 96 ≤ (UInt8.ofNat n).toNat % 128) := by
    decide +kernel
  have entry := table c.toNat c.toNat_lt
  rwa [UInt8.ofNat_toNat] at entry

theorem digit_byte (isDigit : IsDigit digit) :
    (UInt8.ofNat digit.toNat).toNat = digit.toNat ∧
      (UInt8.ofNat (digit.toNat + 128)).toNat = digit.toNat + 128 := by
  obtain ⟨nonneg, small⟩ := isDigit
  constructor
  · rw [UInt8.toNat_ofNat']
    omega
  · rw [UInt8.toNat_ofNat']
    omega

/-- The Python loop accumulates the flagged digits it meets. -/
theorem ptIntParseLoop_flagged (v : Int) (digits : List Int) (rest : Bytes)
    (areDigits : ∀ digit ∈ digits, IsDigit digit) (some_digit : digits ≠ []) :
    ptIntParseLoop v (flagged digits ++ rest) = some (accumulate 128 v digits, digits.length) := by
  induction digits generalizing v with
  | nil => exact absurd rfl some_digit
  | cons digit tail ih =>
    have isDigit := areDigits digit (by simp)
    obtain ⟨lastByte, moreByte⟩ := digit_byte isDigit
    obtain ⟨nonneg, small⟩ := isDigit
    by_cases more : tail = []
    · subst more
      simp only [flagged, singleton_append, ptIntParseLoop]
      rw [if_neg (by rw [(byte_cases _).1, lastByte]; omega), lastByte]
      simp only [accumulate, length_singleton, some.injEq, Prod.mk.injEq, and_true]
      omega
    · rw [flagged_cons more, cons_append, ptIntParseLoop,
        if_pos (by rw [(byte_cases _).1, moreByte]; omega), moreByte,
        ih _ (fun other member => areDigits other (by simp [member])) more]
      simp only [accumulate, map_some, length_cons, some.injEq,
        Prod.mk.injEq, and_true]
      congr 1
      omega

/-- **Reading flagged digits.** Anywhere in a buffer, the Python parser reads
the signed digits and stops behind them. -/
theorem ptIntParse_flagged (isSigned : Bool) {buf : Bytes} {p : Nat}
    {digits : List Int} (stands : StandsAt buf p (flagged (digit :: digits)))
    (areDigits : ∀ other ∈ digit :: digits, IsDigit other) :
    ptIntParse isSigned buf p = some (if isSigned then accumulate 128 (leading 128 96 digit) digits
        else u32 (accumulate 128 (leading 128 96 digit) digits),
        p + (flagged (digit :: digits)).length) := by
  have isDigit := areDigits digit (by simp)
  obtain ⟨lastByte, moreByte⟩ := digit_byte isDigit
  obtain ⟨nonneg, small⟩ := isDigit
  have signBit : ∀ byte : UInt8, byte.toNat % 128 = digit.toNat →
      (if byte &&& 0x60 = 0x60 then ((byte.toNat % 128 : Nat) : Int) - 128
        else ((byte.toNat % 128 : Nat) : Int)) = leading 128 96 digit := by
    intro byte low
    simp only [(byte_cases byte).2, low, leading]
    split <;> split <;> omega
  obtain ⟨rest, split⟩ := stands
  unfold ptIntParse
  rw [← split]
  by_cases more : digits = []
  · subst more
    simp only [flagged, singleton_append, accumulate, length_singleton]
    rw [if_neg (by rw [(byte_cases _).1, lastByte]; omega), signBit _ (by rw [lastByte]; omega)]
    rfl
  · rw [flagged_cons more, cons_append]
    simp only
    rw [if_pos (by rw [(byte_cases _).1, moreByte]; omega), signBit _ (by rw [moreByte]; omega),
      ptIntParseLoop_flagged _ _ _ (fun other member => areDigits other (by simp [member])) more]
    simp only [map_some, length_cons, flagged_length]
    rw [Nat.add_assoc, Nat.add_comm 1]

theorem shiftIn_ofInt (v : Int) (c : UInt8) :
    UInt32.ofInt v <<< 7 ||| (c &&& 0x7f).toUInt32 =
      UInt32.ofInt (v * 128 + (c.toNat % 128 : Nat)) := by
  have low : (c &&& 0x7f).toUInt32.toNat = c.toNat % 128 := by
    rw [UInt8.toNat_toUInt32, UInt8.toNat_and]
    exact Nat.and_two_pow_sub_one_eq_mod c.toNat 7
  have shifted : (UInt32.ofInt v <<< 7).toNat = (v % 2 ^ 25).toNat <<< 7 := by
    rw [UInt32.toNat_shiftLeft, UInt32.ofInt, UInt32.toNat_ofNat',
      show (7 : UInt32).toNat % 32 = 7 by decide, Nat.shiftLeft_eq, Nat.shiftLeft_eq]
    omega
  apply UInt32.toNat_inj.mp
  rw [UInt32.toNat_or, low, shifted, ← Nat.shiftLeft_add_eq_or_of_lt (by omega),
    Nat.shiftLeft_eq, UInt32.ofInt, UInt32.toNat_ofNat']
  omega

theorem firstByte_ofInt (c : UInt8) :
    (if c &&& 0x60 = 0x60 then (c &&& 0x7f).toUInt32 ||| -0x20 else (c &&& 0x7f).toUInt32) =
      UInt32.ofInt (if c &&& 0x60 = 0x60 then ((c.toNat % 128 : Nat) : Int) - 128
        else ((c.toNat % 128 : Nat) : Int)) := by
  have table : ∀ n < 256,
      (if UInt8.ofNat n &&& 0x60 = 0x60 then (UInt8.ofNat n &&& 0x7f).toUInt32 ||| -0x20
        else (UInt8.ofNat n &&& 0x7f).toUInt32) =
      UInt32.ofInt (if UInt8.ofNat n &&& 0x60 = 0x60
        then (((UInt8.ofNat n).toNat % 128 : Nat) : Int) - 128
        else (((UInt8.ofNat n).toNat % 128 : Nat) : Int)) := by
    decide +kernel
  have entry := table c.toNat c.toNat_lt
  rwa [UInt8.ofNat_toNat] at entry

theorem parseIntLoop_eq (v : Int) (buf : Bytes) :
    parseIntLoop (UInt32.ofInt v) buf =
      (ptIntParseLoop v buf).map (fun read => (UInt32.ofInt read.1, read.2)) := by
  induction buf generalizing v with
  | nil => rfl
  | cons c rest ih =>
    simp only [parseIntLoop, ptIntParseLoop, shiftIn_ofInt]
    split
    · rw [ih, Option.map_map, Option.map_map]
      rfl
    · rfl

/-- **One parser.** On every buffer the C parser returns the number of the
Python parser in 32 bits and stops at the same place. -/
theorem parseInt_eq (buf : Bytes) (p : Nat) :
    parseInt buf p =
      (ptIntParse true buf p).map (fun read => (UInt32.ofInt read.1, read.2)) := by
  unfold parseInt ptIntParse
  cases buf.drop p with
  | nil => rfl
  | cons c rest =>
    simp only [firstByte_ofInt, parseIntLoop_eq]
    split
    · simp only [Option.map_map]
      rfl
    · rfl

/-- The bytes are the shortest digits of `value` that a signed reader accepts. -/
def Spells (value : Int) (bytes : Bytes) : Prop :=
  ∃ count ≤ 4, bytes = flagged (digits 128 value (count + 1)) ∧
    -32 ≤ value / 128 ^ count ∧ value / 128 ^ count < 96

section

variable {value : Int} {buf bytes : Bytes} {p : Nat} (spells : Spells value bytes)
  (stands : StandsAt buf p bytes)
include spells stands

theorem Spells.ptIntParse (isSigned : Bool) :
    ptIntParse isSigned buf p = some (if isSigned then value else u32 value, p + bytes.length) := by
  obtain ⟨count, small, rfl, below, above⟩ := spells
  have read := ptIntParse_flagged isSigned stands (digits_range (by decide) (count + 1))
  rw [accumulate_leading_digits (by decide) count (by omega) above (by decide) (by decide)] at read
  exact read

theorem Spells.parseInt : parseInt buf p = some (UInt32.ofInt value, p + bytes.length) := by
  rw [parseInt_eq, spells.ptIntParse stands]
  rfl

end

/-- The number whose digits the C encoder emits. Up to four bytes are the low
digits of the signed value; a fifth byte holds the four highest bits and no
sign, so that the digits are those of the unsigned value. -/
def wireValue (v : UInt32) : Int :=
  if i32 v.toNat < 3 * 2 ^ 26 ∧ i32 v.toNat ≥ -2 ^ 26 then i32 v.toNat else v.toNat

section

variable (v : UInt32)
include v

theorem i32_word :
    i32 v.toNat = v.toNat ∧ v.toNat < 2 ^ 31 ∨ i32 v.toNat = v.toNat - 2 ^ 32 ∧ 2 ^ 31 ≤ v.toNat := by
  have word := v.toNat_lt
  simp only [i32, signed]
  omega

theorem wireValue_word : wireValue v = v.toNat ∨ wireValue v = v.toNat - 2 ^ 32 := by
  unfold wireValue
  rcases i32_word v with ⟨same, -⟩ | ⟨below, -⟩
  · rw [same, ite_self]
    exact .inl rfl
  · rw [below]
    by_cases short : (v.toNat : Int) - 2 ^ 32 < 3 * 2 ^ 26 ∧ (v.toNat : Int) - 2 ^ 32 ≥ -2 ^ 26
    · exact .inr (if_pos short)
    · exact .inl (if_neg short)

theorem ofInt_wireValue : UInt32.ofInt (wireValue v) = v := by
  have word := v.toNat_lt
  apply UInt32.toNat_inj.mp
  rw [UInt32.ofInt, UInt32.toNat_ofNat']
  rcases wireValue_word v with same | below
  · omega
  · omega

/-- One emitted byte is one digit. -/
theorem lowByte_eq : (v &&& 0x7f).toUInt8 = UInt8.ofNat (v.toNat % 128) := by
  apply UInt8.toNat_inj.mp
  rw [UInt32.toNat_toUInt8, UInt32.toNat_and, UInt8.toNat_ofNat',
    show (0x7f : UInt32).toNat = 2 ^ 7 - 1 by decide, Nat.and_two_pow_sub_one_eq_mod]

theorem highByte_eq :
    ((v &&& 0x7f) ||| 0x80).toUInt8 = UInt8.ofNat (v.toNat % 128 + 128) := by
  apply UInt8.toNat_inj.mp
  rw [UInt32.toNat_toUInt8, UInt32.toNat_or, UInt32.toNat_and, UInt8.toNat_ofNat',
    show (0x7f : UInt32).toNat = 2 ^ 7 - 1 by decide, Nat.and_two_pow_sub_one_eq_mod,
    Nat.or_comm, show (0x80 : UInt32).toNat = 2 ^ 7 * 1 by decide,
    ← Nat.two_pow_add_eq_or_of_lt (by omega)]
  omega

theorem topByte_eq (small : v.toNat < 128) :
    (v ||| 0x80).toUInt8 = UInt8.ofNat (v.toNat % 128 + 128) := by
  have masked : v = v &&& 0x7f := by
    apply UInt32.toNat_inj.mp
    rw [UInt32.toNat_and, show (0x7f : UInt32).toNat = 2 ^ 7 - 1 by decide,
      Nat.and_two_pow_sub_one_eq_mod, Nat.mod_eq_of_lt small]
  rw [← highByte_eq, ← masked]

theorem shiftRight_toNat :
    (v >>> 7).toNat = v.toNat / 128 ∧ (v >>> 14).toNat = v.toNat / 16384 ∧
      (v >>> 21).toNat = v.toNat / 2097152 ∧ (v >>> 28).toNat = v.toNat / 268435456 := by
  refine ⟨?_, ?_, ?_, ?_⟩ <;> rw [UInt32.toNat_shiftRight, Nat.shiftRight_eq_div_pow] <;> rfl

end

/-- A number and its word have the same four low digits. -/
theorem digits_word {value : Int} {v : UInt32} (same : value = v.toNat ∨ value = v.toNat - 2 ^ 32) :
    (value / 128 ^ 0 % 128).toNat = v.toNat % 128 ∧
      (value / 128 ^ 1 % 128).toNat = v.toNat / 128 % 128 ∧
      (value / 128 ^ 2 % 128).toNat = v.toNat / 16384 % 128 ∧
      (value / 128 ^ 3 % 128).toNat = v.toNat / 2097152 % 128 := by
  rcases same with rfl | rfl
  · omega
  · omega

/-- **The C encoder spells `wireValue`.** -/
theorem encodeInt_spells (v : UInt32) : Spells (wireValue v) (encodeInt v) := by
  have word := v.toNat_lt
  obtain ⟨by7, by14, by21, by28⟩ := shiftRight_toNat v
  have top : (v >>> 28).toNat < 128 := by omega
  obtain ⟨digit0, digit1, digit2, digit3⟩ := digits_word (wireValue_word v)
  have signedWord := i32_word v
  simp only [encodeInt, lowByte_eq, highByte_eq, topByte_eq _ top, by7, by14, by21, by28,
    ← digit0, ← digit1, ← digit2, ← digit3]
  clear by7 by14 by21 by28 top digit0 digit1 digit2 digit3
  unfold wireValue
  generalize i32 v.toNat = sv at signedWord ⊢
  by_cases one : sv < 3 * 2 ^ 5 ∧ sv ≥ -2 ^ 5
  · rw [if_pos one, if_pos (by omega)]
    exact ⟨0, by decide, rfl, by omega, by omega⟩
  rw [if_neg one]
  by_cases two : sv < 3 * 2 ^ 12 ∧ sv ≥ -2 ^ 12
  · rw [if_pos two, if_pos (by omega)]
    exact ⟨1, by decide, rfl, by omega, by omega⟩
  rw [if_neg two]
  by_cases three : sv < 3 * 2 ^ 19 ∧ sv ≥ -2 ^ 19
  · rw [if_pos three, if_pos (by omega)]
    exact ⟨2, by decide, rfl, by omega, by omega⟩
  rw [if_neg three]
  by_cases four : sv < 3 * 2 ^ 26 ∧ sv ≥ -2 ^ 26
  · rw [if_pos four, if_pos four]
    exact ⟨3, by decide, rfl, by omega, by omega⟩
  rw [if_neg four, if_neg four]
  refine ⟨4, by decide, ?_, by omega, by omega⟩
  have fifth : ((v.toNat : Int) / 128 ^ 4 % 128).toNat = v.toNat / 268435456 % 128 := by omega
  rw [← fifth]
  rfl

theorem ptIntHigh_eq (v : Int) (shift : Nat) :
    ptIntHigh v shift = UInt8.ofNat ((v / 2 ^ shift % 128).toNat + 128) := by
  apply UInt8.toNat_inj.mp
  have small : ((v / 2 ^ shift) % 128).toNat < 2 ^ 7 := by omega
  rw [ptIntHigh, Int.shiftRight_eq_div_pow, Nat.cast_pow, Nat.cast_ofNat, UInt8.toNat_or, UInt8.toNat_ofNat',
    UInt8.toNat_ofNat', Nat.mod_eq_of_lt (by omega), Nat.or_comm,
    show (0x80 : UInt8).toNat = 2 ^ 7 * 1 by decide, ← Nat.two_pow_add_eq_or_of_lt small]
  omega

/-- **The Python encoder spells its argument**, for every 32 bit integer, signed
or unsigned. -/
theorem ptIntEncode_spells {v : Int} (lower : -2 ^ 31 ≤ v) (upper : v < 2 ^ 32) :
    Spells v (ptIntEncode v) := by
  simp only [ptIntEncode, ptIntHigh_eq]
  by_cases two : v ≥ 0x60 ∨ v < -0x20
  · rw [if_pos two]
    by_cases three : v ≥ 0x3000 ∨ v < -0x1000
    · rw [if_pos three]
      by_cases four : v ≥ 0x180000 ∨ v < -0x80000
      · rw [if_pos four]
        by_cases five : v ≥ 0xc000000 ∨ v < -0x4000000
        · rw [if_pos five]
          exact ⟨4, by decide, by simp [digits, flagged], by omega, by omega⟩
        · rw [if_neg five]
          exact ⟨3, by decide, by simp [digits, flagged], by omega, by omega⟩
      · rw [if_neg four, if_neg (by omega)]
        exact ⟨2, by decide, by simp [digits, flagged], by omega, by omega⟩
    · rw [if_neg three, if_neg (by omega), if_neg (by omega)]
      exact ⟨1, by decide, by simp [digits, flagged], by omega, by omega⟩
  · rw [if_neg two, if_neg (by omega), if_neg (by omega), if_neg (by omega)]
    exact ⟨0, by decide, by simp [digits, flagged], by omega, by omega⟩

end MagnetoX.Message
