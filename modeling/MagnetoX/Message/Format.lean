import MagnetoX.Message.Block

/-!
Owns the parameter types and message formats of `klippy/msgproto.py`: what each
type encodes and parses, and `MessageFormat.encode` and `MessageFormat.parse`.

Enumerations rename values after parsing and before encoding; formats here are
the ones without.
-/

namespace MagnetoX.Message

/-- The wire types of `MessageTypes`. -/
inductive ParamType where
  | uint32
  | int32
  | uint16
  | int16
  | byte
  | string
  | progmemBuffer
  | buffer
deriving DecidableEq, Repr

/-- A parameter value: a number, or the bytes of a string or a buffer. -/
inductive Value where
  | int (v : Int)
  | bytes (b : Bytes)
deriving DecidableEq, Repr

namespace ParamType

def isSigned : ParamType → Bool
  | int32 | int16 => true
  | _ => false

def maxLength : ParamType → Nat
  | uint32 | int32 => 5
  | uint16 | int16 => 3
  | byte => 2
  | string | progmemBuffer | buffer => 64

/-- The values of the C type behind a wire type. A `%s` argument ends at its
first zero byte. -/
def InRange : ParamType → Value → Prop
  | uint32, .int v => 0 ≤ v ∧ v < 2 ^ 32
  | int32, .int v => -2 ^ 31 ≤ v ∧ v < 2 ^ 31
  | uint16, .int v => 0 ≤ v ∧ v < 2 ^ 16
  | int16, .int v => -2 ^ 15 ≤ v ∧ v < 2 ^ 15
  | byte, .int v => 0 ≤ v ∧ v < 2 ^ 8
  | string, .bytes b => 0 ∉ b
  | progmemBuffer, .bytes _ => True
  | buffer, .bytes _ => True
  | _, _ => False

instance (type : ParamType) (value : Value) : Decidable (type.InRange value) :=
  match type, value with
  | uint32, .int v => inferInstanceAs (Decidable (0 ≤ v ∧ v < 2 ^ 32))
  | int32, .int v => inferInstanceAs (Decidable (-2 ^ 31 ≤ v ∧ v < 2 ^ 31))
  | uint16, .int v => inferInstanceAs (Decidable (0 ≤ v ∧ v < 2 ^ 16))
  | int16, .int v => inferInstanceAs (Decidable (-2 ^ 15 ≤ v ∧ v < 2 ^ 15))
  | byte, .int v => inferInstanceAs (Decidable (0 ≤ v ∧ v < 2 ^ 8))
  | string, .bytes b => inferInstanceAs (Decidable (0 ∉ b))
  | progmemBuffer, .bytes _ => inferInstanceAs (Decidable True)
  | buffer, .bytes _ => inferInstanceAs (Decidable True)
  | string, .int _ | progmemBuffer, .int _ | buffer, .int _
  | uint32, .bytes _ | int32, .bytes _ | uint16, .bytes _ | int16, .bytes _
  | byte, .bytes _ => inferInstanceAs (Decidable False)

/-- `encode` of the type's class. Only a value of the wrong kind has no
encoding. -/
def encode : ParamType → Value → Option Bytes
  | uint32, .int v | int32, .int v | uint16, .int v | int16, .int v | byte, .int v =>
      some (ptIntEncode v)
  | string, .bytes b | progmemBuffer, .bytes b | buffer, .bytes b =>
      some (UInt8.ofNat b.length :: b)
  | _, _ => none

/-- `parse` of the type's class; reading past the end raises an error. -/
def parse (type : ParamType) (s : Bytes) (pos : Nat) : Option (Value × Nat) :=
  match type with
  | uint32 | int32 | uint16 | int16 | byte =>
      (ptIntParse type.isSigned s pos).map (fun read => (.int read.1, read.2))
  | string | progmemBuffer | buffer =>
      match s[pos]? with
      | none => none
      | some l => some (.bytes ((s.drop (pos + 1)).take l.toNat), pos + l.toNat + 1)

end ParamType

structure MessageFormat where
  msgid : UInt8
  paramNames : List (String × ParamType)
deriving DecidableEq, Repr

namespace MessageFormat

def paramTypes (format : MessageFormat) : List ParamType := format.paramNames.map Prod.snd

def encodeParams : List ParamType → List Value → Option Bytes
  | [], _ => some []
  | _ :: _, [] => none
  | type :: types, value :: values => do
      let head ← type.encode value
      let tail ← encodeParams types values
      return head ++ tail

def encode (format : MessageFormat) (params : List Value) : Option Bytes :=
  (encodeParams format.paramTypes params).map (format.msgid :: ·)

/-- The loop of `MessageFormat.parse`: the assignments to `out`, in order. -/
def parseParams : List (String × ParamType) → Bytes → Nat → Option (List (String × Value) × Nat)
  | [], _, pos => some ([], pos)
  | (name, type) :: rest, s, pos => do
      let (v, pos) ← type.parse s pos
      let (out, pos) ← parseParams rest s pos
      return ((name, v) :: out, pos)

def parse (format : MessageFormat) (s : Bytes) (pos : Nat) :
    Option (List (String × Value) × Nat) :=
  parseParams format.paramNames s (pos + 1)

end MessageFormat

theorem ParamType.parse_bytes {type : ParamType}
    (notInt : type = .string ∨ type = .progmemBuffer ∨ type = .buffer)
    {buf b : Bytes} {p : Nat} (stands : StandsAt buf p (UInt8.ofNat b.length :: b))
    (short : b.length < 256) :
    type.parse buf p = some (.bytes b, p + (UInt8.ofNat b.length :: b).length) := by
  have length : (UInt8.ofNat b.length).toNat = b.length := by
    rw [UInt8.toNat_ofNat', Nat.mod_eq_of_lt short]
  rcases notInt with rfl | rfl | rfl <;>
    simp only [ParamType.parse, stands.head, length, stands.tail.take, List.length_cons,
      Nat.add_assoc]

end MagnetoX.Message
