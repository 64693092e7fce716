import Mathlib.Data.List.Forall2
import MagnetoX.Message.Format

/-!
Owns the way of a response from the micro-controller to the host:
`command_encodef` of `src/command.c`, the encoder record that
`scripts/buildcommands.py` generates for a format, and the agreement of the
bytes with `MessageFormat.parse`.

Contract: the payload is always consumed exactly. Every parameter comes back as
sent except an `%i` below `-2 ^ 26`, whose fifth byte carries no sign bits, see
`wireValue`; the host reads it `2 ^ 32` too high.
-/

namespace MagnetoX.Message

open Library.Word List

/-- Why an encoding has no result: `shutdown` with its message, or an argument
list that does not match the format. -/
inductive EncodeFailure where
  | shutdown (reason : String)
  | badArguments
deriving DecidableEq, Repr

/-- `struct command_encoder`; `num_params` is the length of the list. -/
structure CommandEncoder where
  msgId : UInt8
  maxSize : Nat
  paramTypes : List ParamType
deriving DecidableEq, Repr

/-- The encoder that `build_parser` generates for a response. -/
def MessageFormat.buildParser (format : MessageFormat) : CommandEncoder where
  msgId := format.msgid
  maxSize := min MESSAGE_MAX (MESSAGE_MIN + 1 + (format.paramTypes.map ParamType.maxLength).sum)
  paramTypes := format.paramTypes

/-- `while (*s && p<maxend) *p++ = *s++`; the list ends at the terminating
zero. -/
def copyString : Nat → Bytes → Bytes
  | room + 1, c :: s => if c ≠ 0 then c :: copyString room s else []
  | _, _ => []

/-- The parameter loop of `command_encodef`. The message bytes written so far
are `out`, so that `p` is `out.length` behind the header. -/
def encodeParams (maxend : Nat) : List ParamType → List Value → Bytes → Except EncodeFailure Bytes
  | [], _, out => .ok out
  | _ :: _, [], _ => .error .badArguments
  | t :: paramTypes, arg :: args, out =>
      if out.length > maxend then .error (.shutdown "Message encode error")
      else match t, arg with
        | .uint32, .int v | .int32, .int v | .uint16, .int v | .int16, .int v | .byte, .int v =>
            encodeParams maxend paramTypes args (out ++ encodeInt (UInt32.ofInt v))
        | .string, .bytes s =>
            let copied := copyString (maxend - (out.length + 1)) s
            encodeParams maxend paramTypes args (out ++ UInt8.ofNat copied.length :: copied)
        | .progmemBuffer, .bytes s | .buffer, .bytes s =>
            let v := min s.length (maxend - out.length)
            encodeParams maxend paramTypes args (out ++ UInt8.ofNat v :: s.take v)
        | _, _ => .error .badArguments

/-- Encode a message: the bytes between header and trailer. Only `encode_acknak`
has a `max_size` of `MESSAGE_MIN`, which leaves no content. -/
def commandEncodef (ce : CommandEncoder) (args : List Value) : Except EncodeFailure Bytes :=
  if ce.maxSize ≤ MESSAGE_MIN then .ok []
  else encodeParams (ce.maxSize - MESSAGE_MIN) ce.paramTypes args [ce.msgId]

def commandEncodeAndFrame (nextSequence : UInt8) (ce : CommandEncoder) (args : List Value) :
    Except EncodeFailure Bytes :=
  (commandEncodef ce args).map (addFrame nextSequence)

def Value.wire : Value → Bytes
  | .int v => encodeInt (UInt32.ofInt v)
  | .bytes b => UInt8.ofNat b.length :: b

def Fits (format : MessageFormat) (args : List Value) : Prop :=
  1 + (args.flatMap Value.wire).length ≤ format.buildParser.maxSize - MESSAGE_MIN

instance (format : MessageFormat) (args : List Value) : Decidable (Fits format args) :=
  inferInstanceAs (Decidable (_ ≤ _))

theorem copyString_eq {room : Nat} {s : Bytes} (noZero : 0 ∉ s) (short : s.length ≤ room) :
    copyString room s = s := by
  induction s generalizing room with
  | nil => cases room <;> rfl
  | cons c s ih =>
    obtain ⟨headNonzero, tailNonzero⟩ := not_or.mp (mem_cons.not.mp noZero)
    obtain ⟨room, rfl⟩ : ∃ smaller, room = smaller + 1 := ⟨room - 1, by simp at short; omega⟩
    rw [copyString, if_pos (Ne.symm headNonzero), ih tailNonzero (by simpa using short)]

variable {t : ParamType} {args : List Value} {format : MessageFormat} {paramTypes : List ParamType}
  {arg : Value} {maxend : Nat}

open Value

theorem encodeParams_step {out : Bytes}
    (inRange : t.InRange arg) (room : out.length + arg.wire.length ≤ maxend) :
    encodeParams maxend (t :: paramTypes) (arg :: args) out =
      encodeParams maxend paramTypes args (out ++ arg.wire) := by
  have start : ¬ out.length > maxend := by omega
  cases arg with
  | int v =>
    cases t <;> first
      | exact absurd inRange id
      | simp only [encodeParams, if_neg start, wire]
  | bytes b =>
    have short : b.length ≤ maxend - (out.length + 1) := by
      simp only [wire, length_cons] at room
      omega
    have whole : min b.length (maxend - out.length) = b.length := by omega
    cases t <;> first
      | exact absurd inRange id
      | simp only [encodeParams, if_neg start, wire, copyString_eq inRange short]
      | simp only [encodeParams, if_neg start, wire, whole, take_length]

/-- **Nothing is cut.** Arguments that fit are written one behind the other. -/
theorem encodeParams_eq (inRange : List.Forall₂ ParamType.InRange paramTypes args) (out : Bytes)
    (room : out.length + (args.flatMap wire).length ≤ maxend) :
    encodeParams maxend paramTypes args out = .ok (out ++ args.flatMap wire) := by
  induction inRange generalizing out with
  | nil => simp [encodeParams]
  | cons head tail ih =>
    rw [flatMap_cons, length_append] at room
    rw [encodeParams_step head (by omega), ih _ (by
      rw [length_append]
      omega), flatMap_cons, append_assoc]

/-- The value that the host reads for an argument of type `t`. -/
def received (t : ParamType) : Value → Value
  | .int v => .int (if t.isSigned then wireValue (UInt32.ofInt v)
      else u32 (wireValue (UInt32.ofInt v)))
  | .bytes b => .bytes b

theorem toNat_ofInt (v : Int) : ((UInt32.ofInt v).toNat : Int) = u32 v := by
  rw [UInt32.ofInt, UInt32.toNat_ofNat']
  simp only [u32, unsigned]
  omega

theorem u32_wireValue (v : Int) : u32 (wireValue (UInt32.ofInt v)) = u32 v := by
  rw [← toNat_ofInt, ofInt_wireValue, toNat_ofInt]

theorem wireValue_ofInt_iff {v : Int} (lower : -2 ^ 31 ≤ v) (upper : v < 2 ^ 31) :
    wireValue (UInt32.ofInt v) = v ↔ -2 ^ 26 ≤ v := by
  have word : i32 (UInt32.ofInt v).toNat = v := by
    rw [toNat_ofInt]
    simp only [i32, signed, u32, unsigned]
    omega
  unfold wireValue
  rw [word]
  by_cases short : v < 3 * 2 ^ 26 ∧ v ≥ -2 ^ 26
  · rw [if_pos short]
    exact iff_of_true rfl short.2
  · rw [if_neg short, toNat_ofInt]
    simp only [u32, unsigned]
    omega

/-- An argument comes back unchanged exactly when it is not an `%i` below
`-2 ^ 26`. -/
theorem received_eq_iff (inRange : t.InRange arg) :
    received t arg = arg ↔ (t = .int32 → ∀ v, arg = .int v → -2 ^ 26 ≤ v) := by
  cases arg with
  | bytes b =>
    refine iff_of_true rfl ?_
    rintro - v impossible
    cases impossible
  | int v =>
    simp only [received, int.injEq]
    cases t with
    | int32 => simpa [ParamType.isSigned] using wireValue_ofInt_iff inRange.1 inRange.2
    | int16 =>
      obtain ⟨lower, upper⟩ := inRange
      have same := (wireValue_ofInt_iff (by omega) (by omega)).mpr (show -2 ^ 26 ≤ v by omega)
      simp [ParamType.isSigned, same]
    | uint32 | uint16 | byte =>
      obtain ⟨lower, upper⟩ := inRange
      have same : u32 v = v := unsigned_of_range lower (by omega)
      simp [ParamType.isSigned, u32_wireValue, same]
    | string | progmemBuffer | buffer => exact absurd inRange id

variable {buf : Bytes} {p : Nat}

theorem parse_wire (inRange : t.InRange arg) (short : arg.wire.length < 256)
    (stands : StandsAt buf p arg.wire) :
    t.parse buf p = some (received t arg, p + arg.wire.length) := by
  cases arg with
  | int v =>
    have read := (encodeInt_spells (UInt32.ofInt v)).ptIntParse stands
    cases t <;> first
      | exact absurd inRange id
      | simp only [ParamType.parse, wire, read, Option.map_some, received]
  | bytes b =>
    have small : b.length < 256 := by
      simp only [wire, length_cons] at short
      omega
    cases t <;> first
      | exact absurd inRange id
      | exact ParamType.parse_bytes (by simp) stands small

/-- The host's loop reads the arguments one behind the other. -/
theorem parseParams_wire {params : List (String × ParamType)}
    (inRange : List.Forall₂ ParamType.InRange (params.map Prod.snd) args)
    (stands : StandsAt buf p (args.flatMap wire)) (short : (args.flatMap wire).length < 256) :
    MessageFormat.parseParams params buf p =
      some ((params.zip args).map (fun entry => (entry.1.1, received entry.1.2 entry.2)),
        p + (args.flatMap wire).length) := by
  induction params generalizing args p with
  | nil =>
    cases inRange
    rfl
  | cons param params ih =>
    cases inRange with
    | cons head tail =>
      rename_i arg args
      rw [flatMap_cons] at stands short
      rw [length_append] at short
      rw [MessageFormat.parseParams, parse_wire head (by omega) stands.left]
      simp [ih tail stands.right (by omega), Nat.add_assoc]

def MessageFormat.assignments (format : MessageFormat) (args : List Value) :
    List (String × Value) :=
  (format.paramNames.zip args).map (fun entry => (entry.1.1, entry.2))

def SignFits (format : MessageFormat) (args : List Value) : Prop :=
  ∀ entry ∈ format.paramNames.zip args, entry.1.2 = .int32 →
    ∀ v, entry.2 = .int v → -2 ^ 26 ≤ v

theorem fits_lengths (fits : Fits format args) :
    ¬ format.buildParser.maxSize ≤ MESSAGE_MIN ∧ (args.flatMap wire).length < 256 := by
  have most : format.buildParser.maxSize ≤ MESSAGE_MAX := Nat.min_le_left _ _
  simp only [Fits, MESSAGE_MIN, MESSAGE_MAX] at fits most ⊢
  omega

section

variable (inRange : List.Forall₂ ParamType.InRange format.paramTypes args)
include inRange

theorem commandEncodeAndFrame_eq (fits : Fits format args) (nextSequence : UInt8) :
    commandEncodeAndFrame nextSequence format.buildParser args =
      .ok (addFrame nextSequence (format.msgid :: args.flatMap wire)) := by
  unfold commandEncodeAndFrame commandEncodef
  rw [if_neg (fits_lengths fits).1]
  exact congrArg (Except.map (addFrame nextSequence)) (encodeParams_eq inRange [format.msgid] fits)

/-- The host consumes exactly the payload, and reads each argument as
`received`. -/
theorem parse_addFrame (fits : Fits format args) (nextSequence : UInt8) :
    let frame := addFrame nextSequence (format.msgid :: args.flatMap wire)
    format.parse frame MESSAGE_HEADER_SIZE =
      some ((format.paramNames.zip args).map (fun entry => (entry.1.1, received entry.1.2 entry.2)),
        frame.length - MESSAGE_TRAILER_SIZE) := by
  intro frame
  have stop : frame.length - MESSAGE_TRAILER_SIZE =
      MESSAGE_HEADER_SIZE + 1 + (args.flatMap wire).length := by
    rw [addFrame_length, length_cons, MESSAGE_MIN, MESSAGE_TRAILER_SIZE, MESSAGE_HEADER_SIZE]
    omega
  rw [stop]
  exact parseParams_wire inRange (standsAt_addFrame _ _).tail (fits_lengths fits).2

theorem received_assignments_iff :
    (format.paramNames.zip args).map (fun entry => (entry.1.1, received entry.1.2 entry.2)) =
      format.assignments args ↔ SignFits format args := by
  have member : ∀ entry ∈ format.paramNames.zip args, entry.1.2.InRange entry.2 := by
    intro entry inZip
    have typed : (entry.1.2, entry.2) ∈ format.paramTypes.zip args := by
      rw [MessageFormat.paramTypes, zip_map_left]
      exact mem_map_of_mem inZip
    exact (forall₂_iff_zip.mp inRange).2 typed
  rw [MessageFormat.assignments, map_inj_left]
  constructor
  · intro same entry inZip
    exact (received_eq_iff (member entry inZip)).mp (Prod.ext_iff.mp (same entry inZip)).2
  · intro signFits entry inZip
    exact Prod.ext rfl ((received_eq_iff (member entry inZip)).mpr (signFits entry inZip))

end

/-- **Response round trip.** For every format and all arguments in range that fit
the message, the micro-controller sends a frame. The host reads exactly the
arguments from it and stops at the end of its payload if and only if no `%i`
argument lies below `-2 ^ 26`. -/
theorem response_roundTrip_iff (format : MessageFormat) (args : List Value) (nextSequence : UInt8)
    (inRange : List.Forall₂ ParamType.InRange format.paramTypes args)
    (fits : Fits format args) :
    ∃ frame, commandEncodeAndFrame nextSequence format.buildParser args = .ok frame ∧
      (format.parse frame MESSAGE_HEADER_SIZE =
          some (format.assignments args, frame.length - MESSAGE_TRAILER_SIZE) ↔
        SignFits format args) := by
  refine ⟨_, commandEncodeAndFrame_eq inRange fits nextSequence, ?_⟩
  rw [parse_addFrame inRange fits, ← received_assignments_iff inRange]
  simp only [Option.some.injEq, Prod.mk.injEq, and_true]

def stepperPosition : MessageFormat where
  msgid := 30
  paramNames := [("oid", .byte), ("pos", .int32)]

theorem response_roundTrip_stepperPosition :
    ∃ frame, commandEncodeAndFrame 0x10 stepperPosition.buildParser [.int 3, .int (-1000)] =
        .ok frame ∧
      (stepperPosition.parse frame MESSAGE_HEADER_SIZE =
          some (stepperPosition.assignments [.int 3, .int (-1000)],
            frame.length - MESSAGE_TRAILER_SIZE) ↔
        SignFits stepperPosition [.int 3, .int (-1000)]) :=
  response_roundTrip_iff stepperPosition [.int 3, .int (-1000)] 0x10
    (.cons (by decide) (.cons (by decide) .nil)) (by decide)

/-- A position just below the bound arrives `2 ^ 32` too high. -/
theorem response_signLost :
    (commandEncodeAndFrame 0x10 stepperPosition.buildParser [.int 3, .int (-67108865)]).toOption.bind
        (fun frame => stepperPosition.parse frame MESSAGE_HEADER_SIZE) =
      some ([("oid", .int 3), ("pos", .int 4227858431)], 9) := by
  decide +kernel

end MagnetoX.Message
