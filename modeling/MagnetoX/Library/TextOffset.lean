import Mathlib.Algebra.Ring.Nat
import MagnetoX.Library.Lines

/-!
Owns byte offsets into a text that is stored as UTF-8: the bytes of a text, the
text that a byte offset leaves to be decoded, and when counting characters
counts bytes. Also owns the decoding of bytes that come in parts.
-/

namespace MagnetoX.Library.TextOffset

open List Option

def bytes (text : List Char) : List UInt8 :=
  text.flatMap String.utf8EncodeChar

def byteLength (text : List Char) : Nat :=
  (text.map Char.utf8Size).sum

@[simp] theorem byteLength_nil : byteLength [] = 0 := rfl

@[simp] theorem byteLength_cons (c : Char) (text : List Char) :
    byteLength (c :: text) = c.utf8Size + byteLength text := by
  simp [byteLength]

theorem length_bytes (text : List Char) : (bytes text).length = byteLength text := by
  simp [bytes, byteLength, length_flatMap]

/-- What decodes from a byte offset on: nothing past the end, and no text at all
from within a character. -/
def fromByte : List Char → Nat → Option (List Char)
  | text, 0 => some text
  | [], _ + 1 => some []
  | c :: text, offset + 1 =>
      if c.utf8Size ≤ offset + 1 then fromByte text (offset + 1 - c.utf8Size) else none

theorem fromByte_zero (text : List Char) : fromByte text 0 = some text := by
  unfold fromByte
  cases text <;> rfl

theorem fromByte_append (front rest : List Char) :
    fromByte (front ++ rest) (byteLength front) = some rest := by
  induction front with
  | nil => exact fromByte_zero rest
  | cons c front ih =>
    have positive := c.utf8Size_pos
    obtain ⟨offset, isNext⟩ := Nat.exists_eq_add_one.mpr
      (show 0 < c.utf8Size + byteLength front by omega)
    rw [cons_append, byteLength_cons, isNext, fromByte, ← isNext,
      if_pos (Nat.le_add_right _ _), Nat.add_sub_cancel_left, ih]

variable {text rest : List Char} {offset : Nat} {mark c : Char}

theorem length_le_byteLength (text : List Char) : text.length ≤ byteLength text := by
  induction text with
  | nil => exact Nat.le_refl 0
  | cons c text ih =>
    have positive := c.utf8Size_pos
    rw [length_cons, byteLength_cons]
    omega

/-- Counting characters counts bytes for ASCII text, and for no other text. -/
theorem byteLength_eq_length_iff : byteLength text = text.length ↔ ∀ c ∈ text, c.val ≤ 127 := by
  induction text with
  | nil => simp
  | cons c text ih =>
    have positive := c.utf8Size_pos
    have atLeast := length_le_byteLength text
    rw [forall_mem_cons, ← Char.utf8Size_eq_one_iff, ← ih, byteLength_cons, length_cons]
    omega

def decode (data : List UInt8) : Option (List Char) :=
  (ByteArray.utf8Decode? data.toByteArray).map Array.toList

theorem bytes_append (front back : List Char) : bytes (front ++ back) = bytes front ++ bytes back :=
  flatMap_append

theorem decode_bytes (text : List Char) : decode (bytes text) = some text := by
  have same : (bytes text).toByteArray = text.utf8Encode := rfl
  rw [decode, same, utf8Decode?_utf8Encode]
  rfl

theorem bytes_of_decode {data : List UInt8} (decodes : decode data = some text) :
    bytes text = data := by
  obtain ⟨array, isArray, rfl⟩ := map_eq_some_iff.mp decodes
  have isSome : (ByteArray.utf8Decode? data.toByteArray).isSome = true := by rw [isArray]; rfl
  have same : (array.toList).utf8Encode = data.toByteArray := by
    have encodes := ByteArray.utf8Encode_get_utf8Decode? (b := data.toByteArray) (h := isSome)
    simpa only [isArray, get_some] using encodes
  exact toByteArray_inj.mp same

theorem bytes_injective {first second : List Char} (same : bytes first = bytes second) : first = second :=
  some.inj ((decode_bytes first).symm.trans ((congrArg decode same).trans (decode_bytes second)))

/-- The text of the parts that can be decoded on their own. -/
def decodedText (parts : List (List UInt8)) : List Char := (parts.filterMap decode).flatten

theorem decodedText_append (front back : List (List UInt8)) :
    decodedText (front ++ back) = decodedText front ++ decodedText back := by
  rw [decodedText, filterMap_append, flatten_append]
  rfl

theorem decodedText_singleton (data : List UInt8) : decodedText [data] = (decode data).getD [] := by
  rw [decodedText, filterMap_cons]
  cases decode data with
  | none => rfl
  | some text => simp

theorem bytes_decodedText (parts : List (List UInt8)) :
    bytes (decodedText parts) = (parts.filter (fun data => (decode data).isSome)).flatten := by
  induction parts with
  | nil => rfl
  | cons data parts ih =>
    rw [← singleton_append, decodedText_append, bytes_append, ih, decodedText_singleton]
    cases decodes : decode data with
    | none => simp [decodes, bytes]
    | some text => simp [decodes, bytes_of_decode decodes]

/-- The byte of an ASCII character stands for that character alone. -/
theorem ofNat_mem_utf8EncodeChar (ascii : c.toNat < 128) (other : Char) :
    UInt8.ofNat c.toNat ∈ String.utf8EncodeChar other ↔ other = c := by
  have byte : ∀ n, UInt8.ofNat c.toNat = UInt8.ofNat n ↔ c.toNat = n % 256 := by
    intro n
    rw [← UInt8.toNat_inj, UInt8.toNat_ofNat', UInt8.toNat_ofNat']
    omega
  have same : other = c ↔ other.val.toNat = c.toNat := by
    rw [Char.ext_iff, ← UInt32.toNat_inj]
    rfl
  rw [same, String.utf8EncodeChar]
  split
  · simp only [mem_singleton, byte]
    omega
  split
  · simp only [mem_cons, not_mem_nil, or_false, byte]
    omega
  split
  · simp only [mem_cons, not_mem_nil, or_false, byte]
    omega
  · simp only [mem_cons, not_mem_nil, or_false, byte]
    omega

theorem ofNat_mem_bytes (ascii : c.toNat < 128) (text : List Char) :
    UInt8.ofNat c.toNat ∈ bytes text ↔ c ∈ text := by
  simp [bytes, ofNat_mem_utf8EncodeChar ascii]

open Lines in
/-- What a mark closes in a text, its byte closes in the bytes. -/
theorem closedPart_bytes (ascii : mark.toNat < 128) (text : List Char) :
    closedPart (UInt8.ofNat mark.toNat) (bytes text) = bytes (closedPart mark text) := by
  induction text using reverseRecOn with
  | nil => rfl
  | append_singleton text last ih =>
    rw [bytes_append]
    by_cases isMark : last = mark
    · have encodes : bytes [mark] = [UInt8.ofNat mark.toNat] := by
        rw [bytes, flatMap_cons, flatMap_nil, append_nil, String.utf8EncodeChar]
        exact if_pos (Nat.le_of_lt_succ ascii)
      rw [isMark, encodes, closedPart_concat_mark, closedPart_concat_mark, bytes_append, encodes]
    · have absent : UInt8.ofNat mark.toNat ∉ bytes [last] := by
        rw [ofNat_mem_bytes ascii, mem_singleton]
        exact fun same => isMark same.symm
      rw [closedPart_append, if_neg absent, closedPart_concat_of_ne _ isMark, ih]

open Lines in
theorem closedLines_eq_iff_bytes (ascii : mark.toNat < 128) (first second : List Char) :
    closedLines mark first = closedLines mark second ↔
      closedPart (UInt8.ofNat mark.toNat) (bytes first) = closedPart (UInt8.ofNat mark.toNat) (bytes second) := by
  rw [closedLines_eq_iff, closedPart_bytes ascii, closedPart_bytes ascii]
  exact ⟨congrArg _, bytes_injective⟩

end MagnetoX.Library.TextOffset
