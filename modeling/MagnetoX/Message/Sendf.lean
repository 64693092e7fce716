import MagnetoX.Message.Response

/-!
Owns the way of a response into the transmit buffer: the bytes that
`command_encodef` writes, also where it gives up, and `console_sendf` of
`src/generic/serial_irq.c`.

Contract: the encoder keeps to `max_size`, and `console_sendf` to the transmit
buffer, exactly for arguments that the encoder has room for, see `hasRoom`. The
clamp of a buffer forgets its length byte, and an integer is not clamped at all.
-/

namespace MagnetoX.Message

open List

def writeParam (maxend p : Nat) : ParamType → Value → Option Bytes
  | .uint32, .int v | .int32, .int v | .uint16, .int v | .int16, .int v | .byte, .int v =>
      some (encodeInt (UInt32.ofInt v))
  | .string, .bytes s =>
      let copied := copyString (maxend - (p + 1)) s
      some (UInt8.ofNat copied.length :: copied)
  | .progmemBuffer, .bytes s | .buffer, .bytes s =>
      let v := min s.length (maxend - p)
      some (UInt8.ofNat v :: s.take v)
  | _, _ => none

/-- The parameter loop of `command_encodef`: all bytes written, and why it did not
come to its end. -/
def writeParams (maxend : Nat) : List ParamType → List Value → Bytes → Bytes × Option EncodeFailure
  | [], _, out => (out, none)
  | _ :: _, [], out => (out, some .badArguments)
  | t :: paramTypes, arg :: args, out =>
      if out.length > maxend then (out, some (.shutdown "Message encode error"))
      else match writeParam maxend out.length t arg with
        | none => (out, some .badArguments)
        | some bytes => writeParams maxend paramTypes args (out ++ bytes)

/-- What `command_encodef` writes behind the header. -/
def writeMessage (ce : CommandEncoder) (args : List Value) : Bytes × Option EncodeFailure :=
  if ce.maxSize ≤ MESSAGE_MIN then ([], none)
  else writeParams (ce.maxSize - MESSAGE_MIN) ce.paramTypes args [ce.msgId]

def encodeResult : Bytes × Option EncodeFailure → Except EncodeFailure Bytes
  | (content, none) => .ok content
  | (_, some failure) => .error failure

theorem encodeParams_eq_writeParams (maxend : Nat) (paramTypes : List ParamType) (args : List Value)
    (out : Bytes) :
    encodeParams maxend paramTypes args out = encodeResult (writeParams maxend paramTypes args out) := by
  induction paramTypes generalizing args out with
  | nil => cases args <;> rfl
  | cons t paramTypes ih =>
    cases args with
    | nil => rfl
    | cons arg args =>
      by_cases late : out.length > maxend
      · simp only [encodeParams, writeParams, if_pos late, encodeResult]
      · cases t <;> cases arg <;>
          simp only [encodeParams, writeParams, if_neg late, writeParam, ih, encodeResult]

theorem commandEncodef_eq_writeMessage (ce : CommandEncoder) (args : List Value) :
    commandEncodef ce args = encodeResult (writeMessage ce args) := by
  unfold commandEncodef writeMessage
  split
  · rfl
  · exact encodeParams_eq_writeParams _ _ _ _

def TRANSMIT_SIZE : Nat := 96

/-- The memory from the start of `transmit_buf` on, the two positions, and start
and length of all that was written. -/
structure TransmitBuffer where
  memory : Nat → UInt8
  transmitPos : Nat
  transmitMax : Nat
  writes : List (Nat × Nat)

namespace TransmitBuffer

variable (s : TransmitBuffer)

def store (start : Nat) (bytes : Bytes) : TransmitBuffer :=
  { s with
    memory := fun i => if start ≤ i then (bytes[i - start]?).getD (s.memory i) else s.memory i
    writes := (start, bytes.length) :: s.writes }

/-- Move what is still to be sent to the start of the buffer. -/
def moveBuffer (tpos tmax : Nat) : TransmitBuffer :=
  { s.store 0 ((List.range (tmax - tpos)).map (fun i => s.memory (tpos + i))) with
    transmitPos := 0
    transmitMax := tmax - tpos }

/-- Encode and frame a message at `tmax`. A shutdown leaves the content that was
written so far. -/
def generate (nextSequence : UInt8) (ce : CommandEncoder) (args : List Value) (tmax : Nat) :
    TransmitBuffer :=
  match writeMessage ce args with
  | (content, some _) => s.store (tmax + MESSAGE_HEADER_SIZE) content
  | (content, none) =>
      { s.store tmax (addFrame nextSequence content) with
        transmitMax := tmax + (addFrame nextSequence content).length }

end TransmitBuffer

/-- `console_sendf`. The interrupt may send more bytes before it is disabled:
`later` is `transmit_pos` when it is read again. -/
def consoleSendf (nextSequence : UInt8) (ce : CommandEncoder) (args : List Value) (later : Nat)
    (s : TransmitBuffer) : TransmitBuffer :=
  if s.transmitPos ≥ s.transmitMax then
    { s with transmitMax := 0, transmitPos := 0 }.generate nextSequence ce args 0
  else if s.transmitMax + ce.maxSize > TRANSMIT_SIZE then
    -- Not enough space for message
    if s.transmitMax + ce.maxSize - s.transmitPos > TRANSMIT_SIZE then s
    else (s.moveBuffer later s.transmitMax).generate nextSequence ce args (s.transmitMax - later)
  else s.generate nextSequence ce args s.transmitMax

def TransmitBuffer.Within (s : TransmitBuffer) : Prop :=
  ∀ write ∈ s.writes, write.1 + write.2 ≤ TRANSMIT_SIZE

def ParamType.Takes (t : ParamType) (arg : Value) : Prop := (t.encode arg).isSome = true

instance (t : ParamType) (arg : Value) : Decidable (t.Takes arg) :=
  inferInstanceAs (Decidable (_ = true))

/-- The bytes that a parameter needs. Only a string is cut where it does not
fit. -/
def neededSize (maxend p : Nat) (t : ParamType) : Value → Nat
  | .int v => (encodeInt (UInt32.ofInt v)).length
  | .bytes s => 1 + if t = .string then (copyString (maxend - (p + 1)) s).length else s.length

/-- There is room for the parameters from `p` on. A parameter that does not fit is
harmless if it is not the last one, so that the encoder gives up behind it, and if
it ends within the space of the trailer. -/
def hasRoom (maxend : Nat) : List ParamType → List Value → Nat → Bool
  | [], _, _ => true
  | _ :: _, [], _ => true
  | t :: paramTypes, arg :: args, p =>
      let next := p + neededSize maxend p t arg
      if next ≤ maxend then hasRoom maxend paramTypes args next
      else !paramTypes.isEmpty &&
        match arg with
        | .int _ => next ≤ maxend + MESSAGE_TRAILER_SIZE
        | .bytes _ => true

def HasRoom (format : MessageFormat) (args : List Value) : Prop :=
  hasRoom (format.buildParser.maxSize - MESSAGE_MIN) format.paramTypes args 1 = true

instance (format : MessageFormat) (args : List Value) : Decidable (HasRoom format args) :=
  inferInstanceAs (Decidable (_ = true))

theorem length_copyString_le (room : Nat) (s : Bytes) : (copyString room s).length ≤ room := by
  induction s generalizing room with
  | nil => cases room <;> simp [copyString]
  | cons c s ih =>
    cases room with
    | zero => simp [copyString]
    | succ room =>
      rw [copyString]
      split
      · simpa using ih room
      · simp

/-- What one parameter writes: all that it needs, or past the end. -/
theorem writeParam_cases {maxend p : Nat} {t : ParamType} {arg : Value} (takes : t.Takes arg)
    (inside : p ≤ maxend) :
    ∃ bytes, writeParam maxend p t arg = some bytes ∧
      (p + neededSize maxend p t arg ≤ maxend → bytes.length = neededSize maxend p t arg) ∧
      (¬ p + neededSize maxend p t arg ≤ maxend →
        (∃ v, arg = .int v ∧ bytes.length = neededSize maxend p t arg) ∨
          (∃ b, arg = .bytes b) ∧ p + bytes.length = maxend + 1) := by
  cases arg with
  | int v =>
    have int : t.Takes (.int v) → writeParam maxend p t (.int v) = some (encodeInt (UInt32.ofInt v)) := by
      cases t <;> simp [ParamType.Takes, ParamType.encode, writeParam]
    exact ⟨_, int takes, fun _ => rfl, fun _ => .inl ⟨v, rfl, rfl⟩⟩
  | bytes b =>
    have short := length_copyString_le (maxend - (p + 1)) b
    cases t with
    | uint32 | int32 | uint16 | int16 | byte => simp [ParamType.Takes, ParamType.encode] at takes
    | string =>
      refine ⟨_, rfl, fun _ => ?_, fun beyond => .inr ⟨⟨b, rfl⟩, ?_⟩⟩
      · simp [neededSize, Nat.add_comm]
      · simp only [neededSize, if_true] at beyond
        simp only [length_cons]
        omega
    | progmemBuffer | buffer =>
      refine ⟨_, rfl, fun fits => ?_, fun beyond => .inr ⟨⟨b, rfl⟩, ?_⟩⟩
      · simp only [neededSize, reduceCtorEq, if_false] at fits
        simp only [neededSize, reduceCtorEq, if_false, length_cons, length_take]
        omega
      · simp only [neededSize, reduceCtorEq, if_false] at beyond
        simp only [length_cons, length_take]
        omega

/-- The encoder keeps to its limits exactly if it has room. -/
theorem hasRoom_iff {maxend : Nat} {paramTypes : List ParamType} {args : List Value}
    (takes : List.Forall₂ ParamType.Takes paramTypes args) (out : Bytes) (inside : out.length ≤ maxend) :
    hasRoom maxend paramTypes args out.length = true ↔
      ((writeParams maxend paramTypes args out).2 = none →
        (writeParams maxend paramTypes args out).1.length ≤ maxend) ∧
      (writeParams maxend paramTypes args out).1.length ≤ maxend + MESSAGE_TRAILER_SIZE := by
  induction takes generalizing out with
  | nil =>
    refine iff_of_true rfl ⟨fun _ => inside, ?_⟩
    exact inside.trans (Nat.le_add_right _ _)
  | @cons t arg paramTypes args head tail ih =>
    obtain ⟨bytes, writes, fits, overruns⟩ := writeParam_cases head inside
    have started : ¬ out.length > maxend := by omega
    simp only [hasRoom, writeParams, if_neg started, writes]
    by_cases room : out.length + neededSize maxend out.length t arg ≤ maxend
    · have length : (out ++ bytes).length = out.length + neededSize maxend out.length t arg := by
        rw [length_append, fits room]
      have later := ih (out ++ bytes) (by rw [length]; exact room)
      rw [length] at later
      simpa only [if_pos room] using later
    · have written : (out ++ bytes).length = out.length + bytes.length := length_append
      have limits := overruns room
      cases tail with
      | nil =>
        simp only [if_neg room, isEmpty_nil, Bool.not_true, Bool.false_and, writeParams]
        refine iff_of_false Bool.false_ne_true (fun keeps => ?_)
        have := keeps.1 trivial
        rcases limits with ⟨v, -, length⟩ | ⟨-, length⟩ <;> omega
      | cons next rest =>
        have past : (out ++ bytes).length > maxend := by
          rcases limits with ⟨v, -, length⟩ | ⟨-, length⟩ <;> omega
        simp only [if_neg room, isEmpty_cons, Bool.not_false, Bool.true_and, writeParams,
          if_pos past, reduceCtorEq, false_implies, true_and]
        rcases limits with ⟨v, rfl, length⟩ | ⟨⟨b, rfl⟩, length⟩
        · rw [written, length]
          exact decide_eq_true_iff
        · refine iff_of_true rfl ?_
          rw [written, length, MESSAGE_TRAILER_SIZE]
          omega

section Sending

variable {format : MessageFormat} {args : List Value}

theorem maxSize_bounds (format : MessageFormat) :
    MESSAGE_MIN < format.buildParser.maxSize ∧ format.buildParser.maxSize ≤ MESSAGE_MAX := by
  simp only [MessageFormat.buildParser, MESSAGE_MIN, MESSAGE_MAX]
  omega

/-- The limits of the encoder, for the message of a format. -/
theorem HasRoom_iff (takes : List.Forall₂ ParamType.Takes format.paramTypes args) :
    HasRoom format args ↔ ((writeMessage format.buildParser args).2 = none →
        (writeMessage format.buildParser args).1.length + MESSAGE_MIN ≤ format.buildParser.maxSize) ∧
      (writeMessage format.buildParser args).1.length + MESSAGE_HEADER_SIZE ≤
        format.buildParser.maxSize := by
  obtain ⟨least, most⟩ := maxSize_bounds format
  have room := @hasRoom_iff (format.buildParser.maxSize - MESSAGE_MIN) _ _ takes [format.msgid]
    (by simp only [length_singleton]; omega)
  have write : writeMessage format.buildParser args = writeParams
      (format.buildParser.maxSize - MESSAGE_MIN) format.paramTypes args [format.msgid] :=
    if_neg (by omega)
  rw [HasRoom, write]
  refine room.trans ?_
  simp only [MESSAGE_MIN, MESSAGE_TRAILER_SIZE, MESSAGE_HEADER_SIZE] at least ⊢
  have shift : ∀ n, n ≤ format.buildParser.maxSize - 5 ↔ n + 5 ≤ format.buildParser.maxSize := by
    intro n
    omega
  have shiftTrailer : ∀ n, n ≤ format.buildParser.maxSize - 5 + 3 ↔
      n + 2 ≤ format.buildParser.maxSize := by
    intro n
    omega
  rw [shift, shiftTrailer]

variable {s : TransmitBuffer}

theorem TransmitBuffer.Within.store (within : s.Within) {start : Nat} {bytes : Bytes}
    (inside : start + bytes.length ≤ TRANSMIT_SIZE) : (s.store start bytes).Within := by
  intro write isWrite
  rcases mem_cons.mp isWrite with rfl | earlier
  · exact inside
  · exact within write earlier

theorem TransmitBuffer.Within.generate (within : s.Within)
    (takes : List.Forall₂ ParamType.Takes format.paramTypes args) (room : HasRoom format args)
    (nextSequence : UInt8) {tmax : Nat}
    (inside : tmax + format.buildParser.maxSize ≤ TRANSMIT_SIZE) :
    (s.generate nextSequence format.buildParser args tmax).Within := by
  obtain ⟨ends, bounded⟩ := (HasRoom_iff takes).mp room
  unfold TransmitBuffer.generate
  split
  · rename_i content failure writes
    rw [writes] at bounded
    exact within.store (by simp only [MESSAGE_HEADER_SIZE] at bounded ⊢; omega)
  · rename_i content writes
    rw [writes] at ends
    have length := addFrame_length nextSequence content
    have short : content.length + MESSAGE_MIN ≤ format.buildParser.maxSize := ends rfl
    exact within.store (by omega)

theorem TransmitBuffer.Within.moveBuffer (within : s.Within) {tpos tmax : Nat}
    (inside : tmax - tpos ≤ TRANSMIT_SIZE) : (s.moveBuffer tpos tmax).Within := by
  refine within.store ?_
  simpa using inside

/-- With room for the message, `console_sendf` writes only into its buffer. -/
theorem consoleSendf_within (takes : List.Forall₂ ParamType.Takes format.paramTypes args)
    (room : HasRoom format args) (nextSequence : UInt8) {later : Nat} (within : s.Within)
    (advances : s.transmitPos < s.transmitMax → s.transmitPos ≤ later ∧ later ≤ s.transmitMax) :
    (consoleSendf nextSequence format.buildParser args later s).Within := by
  have most := (maxSize_bounds format).2
  unfold consoleSendf
  split
  · have empty : TransmitBuffer.Within { s with transmitMax := 0, transmitPos := 0 } := within
    refine empty.generate takes room nextSequence ?_
    simp only [MESSAGE_MAX, TRANSMIT_SIZE] at most ⊢
    omega
  · rename_i pending
    split
    · split
      · exact within
      · have moved : (s.moveBuffer later s.transmitMax).Within := within.moveBuffer (by omega)
        exact moved.generate takes room nextSequence (by omega)
    · exact within.generate takes room nextSequence (by omega)

def fullBuffer (maxSize : Nat) : TransmitBuffer := ⟨fun _ => 0, 0, TRANSMIT_SIZE - maxSize, []⟩

/-- **Transmit buffer.** For every format and all arguments of its kinds, the
encoder keeps to `max_size` and `console_sendf` to the transmit buffer, in every
state of the buffer, if and only if there is room for the arguments. -/
theorem sendf_within_iff (format : MessageFormat) (args : List Value)
    (takes : List.Forall₂ ParamType.Takes format.paramTypes args) :
    ((∀ content, commandEncodef format.buildParser args = .ok content →
        content.length + MESSAGE_MIN ≤ format.buildParser.maxSize) ∧
      (∀ nextSequence later s, TransmitBuffer.Within s →
        (s.transmitPos < s.transmitMax → s.transmitPos ≤ later ∧ later ≤ s.transmitMax) →
        (consoleSendf nextSequence format.buildParser args later s).Within)) ↔
      HasRoom format args := by
  have encodes := commandEncodef_eq_writeMessage format.buildParser args
  constructor
  · rintro ⟨returns, sends⟩
    obtain ⟨least, most⟩ := maxSize_bounds format
    have full := sends 0 0 (fullBuffer format.buildParser.maxSize) (by rintro _ ⟨⟩)
      (fun _ => ⟨le_rfl, Nat.zero_le _⟩)
    refine (HasRoom_iff takes).mpr ?_
    simp only [MESSAGE_MIN, MESSAGE_MAX] at least most
    cases writes : writeMessage format.buildParser args with
    | mk content failure =>
      rw [writes] at encodes
      cases failure with
      | none =>
        have short := returns content encodes
        refine ⟨fun _ => short, ?_⟩
        simp only [MESSAGE_MIN, MESSAGE_HEADER_SIZE] at short ⊢
        omega
      | some failure =>
        refine ⟨by rintro ⟨⟩, ?_⟩
        -- The message starts where it would just fit.
        have generated : consoleSendf 0 format.buildParser args 0
            (fullBuffer format.buildParser.maxSize) =
            (fullBuffer format.buildParser.maxSize).store
              (TRANSMIT_SIZE - format.buildParser.maxSize + MESSAGE_HEADER_SIZE) content := by
          unfold consoleSendf TransmitBuffer.generate
          rw [if_neg, if_neg, writes]
          · rfl
          · simp only [fullBuffer, TRANSMIT_SIZE]
            omega
          · simp only [fullBuffer, TRANSMIT_SIZE]
            omega
        rw [generated] at full
        have inside := full _ (.head _)
        change content.length + MESSAGE_HEADER_SIZE ≤ _
        omega
  · intro room
    refine ⟨fun content returns => ?_, fun nextSequence later s within advances =>
      consoleSendf_within takes room nextSequence within advances⟩
    have ends := ((HasRoom_iff takes).mp room).1
    cases writes : writeMessage format.buildParser args with
    | mk written failure =>
      rw [writes] at encodes ends
      rw [encodes] at returns
      cases failure with
      | none =>
        cases returns
        exact ends rfl
      | some failure => cases returns

def identifyResponse : MessageFormat where
  msgid := 0
  paramNames := [("offset", .uint32), ("data", .progmemBuffer)]

/-- The arguments that `command_identify` sends. -/
def commandIdentify (identifyData : Bytes) (offset : UInt32) (count : UInt8) : List Value :=
  let isize := identifyData.length
  let count :=
    if offset.toNat ≥ isize then 0
    else if (offset + count.toUInt32).toNat > isize then isize - offset.toNat
    else count.toNat
  [.int offset.toNat, .bytes ((identifyData.drop offset.toNat).take count)]

/-- The host asks for 40 bytes at a time. -/
theorem sendf_within_identify :
    let args := commandIdentify (List.replicate 100 7) 20 40
    (∀ content, commandEncodef identifyResponse.buildParser args = .ok content →
        content.length + MESSAGE_MIN ≤ identifyResponse.buildParser.maxSize) ∧
      (∀ nextSequence later s, TransmitBuffer.Within s →
        (s.transmitPos < s.transmitMax → s.transmitPos ≤ later ∧ later ≤ s.transmitMax) →
        (consoleSendf nextSequence identifyResponse.buildParser args later s).Within) :=
  (sendf_within_iff identifyResponse (commandIdentify (replicate 100 7) 20 40)
    (.cons (by decide) (.cons (by decide) .nil))).mpr (by decide +kernel)

/-- For 58 bytes the frame is a byte longer than `max_size`; behind 32 waiting bytes
it ends a byte behind the transmit buffer. -/
theorem identify_overruns :
    let args := commandIdentify (List.replicate 100 7) 20 58
    ((commandEncodeAndFrame 0x10 identifyResponse.buildParser args).toOption.map List.length = some 65 ∧
        identifyResponse.buildParser.maxSize = 64) ∧
      (consoleSendf 0x10 identifyResponse.buildParser args 0 (fullBuffer 64)).writes = [(32, 65)] ∧
        TRANSMIT_SIZE = 96 := by
  decide +kernel

end Sending

end MagnetoX.Message
