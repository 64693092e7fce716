import Mathlib.Data.List.Forall2
import MagnetoX.Message.Format

/-!
Owns the way of commands from the host to the micro-controller: the two host
encoders, `MessageFormat.encode` and `message_alloc_and_encode`, and the
dispatcher `command_dispatch` of `src/command.c` with `command_parsef`.

Command handlers are not modelled: a dispatch records which handler is called
with which arguments. Whether the machine is shut down when a command comes up
is a parameter.
-/

namespace MagnetoX.Message

open Library.Word List

/-- `struct command_parser`; `inShutdown` is the flag `HF_IN_SHUTDOWN`. -/
structure CommandParser where
  inShutdown : Bool
  paramTypes : List ParamType
  func : String
deriving DecidableEq, Repr

inductive DispatchFailure where
  | shutdown (reason : String)
  | overread
  | outOfFuel
deriving DecidableEq, Repr

inductive Event where
  | invoke (func : String) (args : List UInt32)
  | reportShutdown
deriving DecidableEq, Repr

/-- The surroundings of a dispatch: `command_index`, the address of the block as
a 32 bit number, and `sched_is_shutdown` when the command with the given number
of its block comes up. -/
structure Dispatcher where
  commandIndex : List CommandParser
  bufferAddress : UInt32
  schedIsShutdown : Nat → Bool

/-- The number passed to a handler for the byte at `p` of the block. -/
def commandEncodePtr (bufferAddress : UInt32) (p : Nat) : UInt32 :=
  bufferAddress + UInt32.ofNat p

/-- The place in the block that such a number stands for. -/
def commandDecodePtr (bufferAddress v : UInt32) : Nat := (v - bufferAddress).toNat

def commandParsef (bufferAddress : UInt32) (buf : Bytes) (maxend : Nat) :
    List ParamType → Nat → List UInt32 → Except DispatchFailure (List UInt32 × Nat)
  | [], p, args => .ok (args, p)
  | t :: paramTypes, p, args =>
      if p > maxend then .error (.shutdown "Command parser error")
      else match t with
        | .uint32 | .int32 | .uint16 | .int16 | .byte =>
            match parseInt buf p with
            | none => .error .overread
            | some (v, p) => commandParsef bufferAddress buf maxend paramTypes p (args ++ [v])
        | .buffer =>
            match buf[p]? with
            | none => .error .overread
            | some len =>
                if p + 1 + len.toNat > maxend then .error (.shutdown "Command parser error")
                else commandParsef bufferAddress buf maxend paramTypes (p + 1 + len.toNat)
                  (args ++ [len.toUInt32, commandEncodePtr bufferAddress (p + 1)])
        | .string | .progmemBuffer => .error (.shutdown "Command parser error")

def commandLookupParser (commandIndex : List CommandParser) (cmdid : UInt8) :
    Except DispatchFailure CommandParser :=
  if cmdid = 0 then .error (.shutdown "Invalid command")
  else match commandIndex[cmdid.toNat]? with
    | none => .error (.shutdown "Invalid command")
    | some cp => .ok cp

def dispatchLoop (mcu : Dispatcher) (buf : Bytes) (msgend : Nat) :
    Nat → Nat → List Event → Except DispatchFailure (List Event × Nat)
  | 0, p, done => if p < msgend then .error .outOfFuel else .ok (done, p)
  | fuel + 1, p, done =>
      if p < msgend then
        match buf[p]? with
        | none => .error .overread
        | some cmdid =>
            match commandLookupParser mcu.commandIndex cmdid with
            | .error failure => .error failure
            | .ok cp =>
                match commandParsef mcu.bufferAddress buf msgend cp.paramTypes (p + 1) [] with
                | .error failure => .error failure
                | .ok (args, p) =>
                    if mcu.schedIsShutdown done.length && !cp.inShutdown then
                      dispatchLoop mcu buf msgend fuel p (done ++ [.reportShutdown])
                    else
                      dispatchLoop mcu buf msgend fuel p (done ++ [.invoke cp.func args])
      else .ok (done, p)

/-- Dispatch all the commands found in a message block. Every round of the loop
reads at least one byte. -/
def commandDispatch (mcu : Dispatcher) (buf : Bytes) (msglen : Nat) :
    Except DispatchFailure (List Event × Nat) :=
  dispatchLoop mcu buf (msglen - MESSAGE_TRAILER_SIZE) msglen MESSAGE_HEADER_SIZE []

/-- The loop of `message_alloc_and_encode`; a message that is too long ends up
empty. -/
def encodeData : Bytes → List UInt32 → Bytes
  | p, [] => p
  | p, v :: data =>
      if (p ++ encodeInt v).length > MESSAGE_PAYLOAD_MAX then []
      else encodeData (p ++ encodeInt v) data

/-- Allocate a `queue_message` and fill it with a series of encoded vlq
integers. -/
def messageAllocAndEncode (data : List UInt32) : Bytes := encodeData [] data

/-- One command as the host issues it. The C code sends a message tag as a
number, the Python code a message id as a byte. -/
inductive HostCommand where
  | python (format : MessageFormat) (params : List Value)
  | chelper (format : MessageFormat) (msgtag : Int) (data : List UInt32)
deriving DecidableEq, Repr

namespace HostCommand

def format : HostCommand → MessageFormat
  | python format _ | chelper format _ _ => format

def values : HostCommand → List Value
  | python _ params => params
  | chelper _ _ data => data.map (fun v => .int v.toNat)

def encode : HostCommand → Option Bytes
  | python format params => format.encode params
  | chelper _ msgtag data => some (messageAllocAndEncode (UInt32.ofInt msgtag :: data))

def encodeAll : List HostCommand → Option Bytes
  | [] => some []
  | command :: commands => do
      let head ← command.encode
      let tail ← encodeAll commands
      return head ++ tail

def size : HostCommand → Nat
  | python format params => ((format.encode params).getD []).length
  | chelper _ msgtag data => ((UInt32.ofInt msgtag :: data).flatMap encodeInt).length

end HostCommand

def ParamType.IsInt (t : ParamType) : Prop := t ∉ [string, progmemBuffer, buffer]

/-- The parameter types of commands: integers and buffers. -/
def ParamType.InCommand (t : ParamType) : Prop := t ∉ [string, progmemBuffer]

instance : DecidablePred ParamType.IsInt := fun t =>
  inferInstanceAs (Decidable (t ∉ [ParamType.string, .progmemBuffer, .buffer]))

instance : DecidablePred ParamType.InCommand := fun t =>
  inferInstanceAs (Decidable (t ∉ [ParamType.string, .progmemBuffer]))

/-- A command is well formed: its values are in range for its format. The C code
is only used for formats without buffers, and under the tag that
`_init_messages` accepted for the format. -/
def HostCommand.InRange : HostCommand → Prop
  | .python format params =>
      (∀ t ∈ format.paramTypes, t.InCommand) ∧
        List.Forall₂ ParamType.InRange format.paramTypes params
  | .chelper format msgtag data =>
      (∀ t ∈ format.paramTypes, t.IsInt) ∧ format.paramTypes.length = data.length ∧
        -32 ≤ msgtag ∧ msgtag ≤ 95 ∧ format.msgid = UInt8.ofNat (msgtag % 128).toNat

/-- The micro-controller was built with the format under its id. -/
def Registered (mcu : Dispatcher) (format : MessageFormat) (cp : CommandParser) : Prop :=
  format.msgid ≠ 0 ∧ mcu.commandIndex[format.msgid.toNat]? = some cp ∧
    cp.paramTypes = format.paramTypes

/-- The arguments hold the values: an integer modulo `2 ^ 32`, a buffer as its
length and the place of its bytes in the block. -/
def ArgsHold (bufferAddress : UInt32) (buf : Bytes) : List Value → List UInt32 → Prop
  | [], [] => True
  | .int v :: values, arg :: args =>
      arg = UInt32.ofInt v ∧ ArgsHold bufferAddress buf values args
  | .bytes b :: values, len :: ptr :: args =>
      len.toNat = b.length ∧
        (buf.drop (commandDecodePtr bufferAddress ptr)).take len.toNat = b ∧
        ArgsHold bufferAddress buf values args
  | _, _ => False

def Delivered (mcu : Dispatcher) (buf : Bytes) (command : HostCommand) (event : Event) : Prop :=
  ∃ cp args, Registered mcu command.format cp ∧ event = .invoke cp.func args ∧
    ArgsHold mcu.bufferAddress buf command.values args

/-- The bytes are an encoding of the value that the dispatcher reads back. -/
inductive Carries : ParamType → Value → Bytes → Prop where
  | int {t : ParamType} {v w : Int} {bytes : Bytes} (isInt : t.IsInt) (spells : Spells w bytes)
      (same : UInt32.ofInt w = UInt32.ofInt v) : Carries t (.int v) bytes
  | buffer (b : Bytes) : Carries .buffer (.bytes b) (UInt8.ofNat b.length :: b)

/-- The bytes are encodings of all the values, back to back. -/
inductive CarriesAll : List ParamType → List Value → Bytes → Prop where
  | nil : CarriesAll [] [] []
  | cons {t : ParamType} {value : Value} {chunk rest : Bytes} {paramTypes : List ParamType}
      {values : List Value} (head : Carries t value chunk)
      (tail : CarriesAll paramTypes values rest) :
      CarriesAll (t :: paramTypes) (value :: values) (chunk ++ rest)

theorem commandDecodePtr_encodePtr (bufferAddress : UInt32) {p : Nat} (small : p < 2 ^ 32) :
    commandDecodePtr bufferAddress (commandEncodePtr bufferAddress p) = p := by
  unfold commandDecodePtr commandEncodePtr
  rw [UInt32.add_comm, UInt32.add_sub_cancel, UInt32.toNat_ofNat', Nat.mod_eq_of_lt small]

variable {t : ParamType} {paramTypes : List ParamType} {bufferAddress : UInt32} {buf bytes : Bytes}
  {p maxend : Nat} {values params : List Value} {data : List UInt32}

theorem commandParsef_int (isInt : t.IsInt) {w : Int} {chunk : Bytes} (spells : Spells w chunk)
    (stands : StandsAt buf p chunk) (room : p ≤ maxend) (args : List UInt32) :
    commandParsef bufferAddress buf maxend (t :: paramTypes) p args =
      commandParsef bufferAddress buf maxend paramTypes (p + chunk.length)
        (args ++ [UInt32.ofInt w]) := by
  have start : ¬ p > maxend := by omega
  cases t <;> first
    | exact absurd isInt (by decide)
    | simp only [commandParsef, if_neg start, spells.parseInt stands]

theorem commandParsef_buffer {b : Bytes} (stands : StandsAt buf p (UInt8.ofNat b.length :: b))
    (short : b.length < 256) (room : p + 1 + b.length ≤ maxend) (args : List UInt32) :
    commandParsef bufferAddress buf maxend (.buffer :: paramTypes) p args =
      commandParsef bufferAddress buf maxend paramTypes (p + (UInt8.ofNat b.length :: b).length)
        (args ++ [(UInt8.ofNat b.length).toUInt32, commandEncodePtr bufferAddress (p + 1)]) := by
  have length : (UInt8.ofNat b.length).toNat = b.length := by
    rw [UInt8.toNat_ofNat', Nat.mod_eq_of_lt short]
  rw [commandParsef, if_neg (by omega)]
  simp only [stands.head, length]
  rw [if_neg (by omega), length_cons, Nat.add_assoc, Nat.add_comm 1]

/-- **One command.** The parser reads all values of a command and stops behind
it. -/
theorem commandParsef_carriesAll
    (carries : CarriesAll paramTypes values bytes) (bufferAddress : UInt32)
    (stands : StandsAt buf p bytes) (room : p + bytes.length ≤ maxend) (small : maxend < 256)
    (args : List UInt32) :
    ∃ words, commandParsef bufferAddress buf maxend paramTypes p args =
        .ok (args ++ words, p + bytes.length) ∧ ArgsHold bufferAddress buf values words := by
  induction carries generalizing p args with
  | nil => exact ⟨[], by simp [commandParsef], trivial⟩
  | @cons t value chunk rest paramTypes values head tail ih =>
    rw [length_append] at room ⊢
    have next := ih stands.right (by omega)
    cases head with
    | @int _ v w _ isInt spells same =>
      obtain ⟨words, parsed, hold⟩ := next (args ++ [UInt32.ofInt w])
      refine ⟨UInt32.ofInt w :: words, ?_, same, hold⟩
      rw [commandParsef_int isInt spells stands.left (by omega), parsed]
      simp [Nat.add_assoc]
    | buffer b =>
      rw [length_cons] at room
      have short : b.length < 256 := by omega
      obtain ⟨words, parsed, hold⟩ := next
        (args ++ [(UInt8.ofNat b.length).toUInt32, commandEncodePtr bufferAddress (p + 1)])
      have length : (UInt8.ofNat b.length).toUInt32.toNat = b.length := by
        rw [UInt8.toNat_toUInt32, UInt8.toNat_ofNat', Nat.mod_eq_of_lt short]
      refine ⟨_ :: commandEncodePtr bufferAddress (p + 1) :: words, ?_, length, ?_, hold⟩
      · rw [commandParsef_buffer stands.left short (by omega), parsed]
        simp [Nat.add_assoc]
      · rw [commandDecodePtr_encodePtr _ (by omega), length]
        exact stands.left.tail.take

theorem carries_ptIntEncode {v : Int} (isInt : t.IsInt) (inRange : t.InRange (.int v)) :
    Carries t (.int v) (ptIntEncode v) := by
  have range : -2 ^ 31 ≤ v ∧ v < 2 ^ 32 := by
    cases t <;> first
      | exact absurd isInt (by decide)
      | exact ⟨by have := inRange.1; omega, by have := inRange.2; omega⟩
  exact .int isInt (ptIntEncode_spells range.1 range.2) rfl

theorem encode_carries {value : Value} (inCommand : t.InCommand) (inRange : t.InRange value) :
    ∃ chunk, t.encode value = some chunk ∧ Carries t value chunk := by
  cases value with
  | int v =>
    cases t <;> first
      | exact absurd inRange id
      | exact ⟨_, rfl, carries_ptIntEncode (by decide) inRange⟩
  | bytes b =>
    cases t <;> first
      | exact absurd inRange id
      | exact absurd inCommand (by decide)
      | exact ⟨_, rfl, .buffer b⟩

theorem encodeParams_carriesAll (inCommand : ∀ t ∈ paramTypes, t.InCommand)
    (inRange : List.Forall₂ ParamType.InRange paramTypes params) :
    ∃ bytes, MessageFormat.encodeParams paramTypes params = some bytes ∧
      CarriesAll paramTypes params bytes := by
  induction inRange with
  | nil => exact ⟨[], rfl, .nil⟩
  | cons head tail ih =>
    obtain ⟨chunk, encoded, carries⟩ := encode_carries (inCommand _ (by simp)) head
    obtain ⟨rest, encodedRest, carriesRest⟩ := ih (fun t member => inCommand t (by simp [member]))
    exact ⟨chunk ++ rest, by simp [MessageFormat.encodeParams, encoded, encodedRest],
      .cons carries carriesRest⟩

theorem data_carriesAll (ints : ∀ t ∈ paramTypes, t.IsInt)
    (lengths : paramTypes.length = data.length) :
    CarriesAll paramTypes (data.map (fun v => .int v.toNat)) (data.flatMap encodeInt) := by
  induction paramTypes generalizing data with
  | nil =>
    rw [eq_nil_of_length_eq_zero lengths.symm]
    exact .nil
  | cons t paramTypes ih =>
    obtain ⟨v, data, rfl⟩ := exists_cons_of_length_eq_add_one lengths.symm
    have same : UInt32.ofInt (wireValue v) = UInt32.ofInt v.toNat := by
      apply UInt32.toNat_inj.mp
      rw [ofInt_wireValue, UInt32.ofInt, UInt32.toNat_ofNat']
      have word := v.toNat_lt
      omega
    exact .cons (.int (ints t (by simp)) (encodeInt_spells v) same)
      (ih (fun other member => ints other (by simp [member])) (by simpa using lengths))

theorem encodeData_eq (p : Bytes)
    (room : (p ++ data.flatMap encodeInt).length ≤ MESSAGE_PAYLOAD_MAX) :
    encodeData p data = p ++ data.flatMap encodeInt := by
  induction data generalizing p with
  | nil => simp [encodeData]
  | cons v data ih =>
    rw [flatMap_cons, ← append_assoc] at room ⊢
    have enough : ¬ (p ++ encodeInt v).length > MESSAGE_PAYLOAD_MAX := by
      rw [length_append] at room
      omega
    rw [encodeData, if_neg enough, ih _ room]

theorem encodeInt_msgtag {msgtag : Int} (lower : -32 ≤ msgtag) (upper : msgtag ≤ 95) :
    encodeInt (UInt32.ofInt msgtag) = [UInt8.ofNat (msgtag % 128).toNat] := by
  have word : (UInt32.ofInt msgtag).toNat = (msgtag % 2 ^ 32).toNat := by
    rw [UInt32.ofInt, UInt32.toNat_ofNat']
    omega
  have sv : i32 (UInt32.ofInt msgtag).toNat = msgtag := by
    rw [word]
    simp only [i32, signed]
    omega
  simp only [encodeInt, sv]
  rw [if_pos (by omega), lowByte_eq, word]
  exact congrArg (fun digit => [UInt8.ofNat digit]) (by omega)

open HostCommand

/-- **Both encoders.** A command in range that fits is its message id followed
by encodings of its values. -/
theorem HostCommand.encode_eq {command : HostCommand} (inRange : command.InRange)
    (fits : command.size ≤ MESSAGE_PAYLOAD_MAX) :
    ∃ bytes, command.encode = some (command.format.msgid :: bytes) ∧
      bytes.length + 1 = command.size ∧
      CarriesAll command.format.paramTypes command.values bytes := by
  cases command with
  | python format params =>
    obtain ⟨bytes, encoded, carries⟩ := encodeParams_carriesAll inRange.1 inRange.2
    have whole : format.encode params = some (format.msgid :: bytes) := by
      rw [MessageFormat.encode, encoded, Option.map_some]
    exact ⟨bytes, whole, by rw [size, whole]; rfl, carries⟩
  | chelper format msgtag data =>
    obtain ⟨ints, lengths, lower, upper, msgid⟩ := inRange
    have tag : (UInt32.ofInt msgtag :: data).flatMap encodeInt =
        format.msgid :: data.flatMap encodeInt := by
      rw [flatMap_cons, encodeInt_msgtag lower upper, ← msgid, singleton_append]
    have encoded : messageAllocAndEncode (UInt32.ofInt msgtag :: data) =
        format.msgid :: data.flatMap encodeInt := by
      rw [messageAllocAndEncode, encodeData_eq [] (by rw [nil_append]; exact fits),
        nil_append, tag]
    refine ⟨data.flatMap encodeInt, congrArg some encoded, ?_, data_carriesAll ints lengths⟩
    · rw [size, tag, length_cons]

variable {mcu : Dispatcher} {msgend : Nat}

theorem dispatchLoop_past (past : ¬ p < msgend) {fuel : Nat} {done : List Event} :
    dispatchLoop mcu buf msgend fuel p done = .ok (done, p) := by
  cases fuel <;> rw [dispatchLoop, if_neg past]

theorem dispatchLoop_command {format : MessageFormat} {cp : CommandParser}
    (registered : Registered mcu format cp) (carries : CarriesAll format.paramTypes values bytes)
    (stands : StandsAt buf p (format.msgid :: bytes)) (room : p + (bytes.length + 1) ≤ msgend)
    (small : msgend < 256) (done : List Event)
    (running : mcu.schedIsShutdown done.length = true → cp.inShutdown = true) (fuel : Nat) :
    ∃ args, ArgsHold mcu.bufferAddress buf values args ∧
      dispatchLoop mcu buf msgend (fuel + 1) p done =
        dispatchLoop mcu buf msgend fuel (p + (bytes.length + 1))
          (done ++ [.invoke cp.func args]) := by
  obtain ⟨nonzero, found, types⟩ := registered
  obtain ⟨args, parsed, hold⟩ :=
    commandParsef_carriesAll carries mcu.bufferAddress stands.tail (by omega) small []
  have awake : (mcu.schedIsShutdown done.length && !cp.inShutdown) = false := by
    cases shut : mcu.schedIsShutdown done.length with
    | false => rfl
    | true => rw [running shut]; rfl
  refine ⟨args, hold, ?_⟩
  rw [dispatchLoop, if_pos (by omega)]
  simp only [stands.head, commandLookupParser, if_neg nonzero, found, types, parsed, awake]
  rw [Nat.add_assoc, Nat.add_comm 1]
  rfl

/-- The commands are encoded back to back, and the loop runs over them. -/
theorem dispatchLoop_commands {commands : List HostCommand}
    (inRange : ∀ command ∈ commands, command.InRange)
    (registered : ∀ command ∈ commands, ∃ cp, Registered mcu command.format cp)
    (fits : (commands.map size).sum ≤ MESSAGE_PAYLOAD_MAX) :
    ∃ content, encodeAll commands = some content ∧ content.length = (commands.map size).sum ∧
      ∀ {buf p msgend} fuel (done : List Event), StandsAt buf p content →
        p + content.length = msgend → msgend < 256 → content.length ≤ fuel →
        (∀ position command cp, commands[position]? = some command →
          Registered mcu command.format cp →
          mcu.schedIsShutdown (done.length + position) = true → cp.inShutdown = true) →
        ∃ events, dispatchLoop mcu buf msgend fuel p done = .ok (done ++ events, msgend) ∧
          List.Forall₂ (Delivered mcu buf) commands events := by
  induction commands with
  | nil =>
    refine ⟨[], rfl, rfl, fun fuel done _ atEnd _ _ _ => ⟨[], ?_, .nil⟩⟩
    rw [length_nil, Nat.add_zero] at atEnd
    rw [dispatchLoop_past (by omega), append_nil, atEnd]
  | cons command commands ih =>
    rw [map_cons, sum_cons] at fits ⊢
    obtain ⟨bytes, encoded, size, carries⟩ := encode_eq (inRange command (by simp)) (by omega)
    obtain ⟨rest, encodedRest, length, run⟩ := ih
      (fun other member => inRange other (by simp [member]))
      (fun other member => registered other (by simp [member])) (by omega)
    refine ⟨command.format.msgid :: bytes ++ rest, by simp [encodeAll, encoded, encodedRest], ?_, ?_⟩
    · rw [length_append, length_cons, size, length]
    intro buf p msgend fuel done stands atEnd small enough running
    rw [length_append, length_cons] at atEnd enough
    obtain ⟨cp, cpRegistered⟩ := registered command (by simp)
    obtain ⟨fuel, rfl⟩ : ∃ smaller, fuel = smaller + 1 := ⟨fuel - 1, by omega⟩
    obtain ⟨args, hold, step⟩ := dispatchLoop_command cpRegistered carries stands.left (by omega)
      small done (running 0 command cp rfl cpRegistered) fuel
    obtain ⟨events, looped, delivered⟩ := run fuel (done ++ [.invoke cp.func args])
      stands.right (by rw [length_cons]; omega) small (by omega)
      (fun position other parser found otherRegistered => by
        have shifted := running (position + 1) other parser found otherRegistered
        rwa [length_append, length_singleton, Nat.add_assoc, Nat.add_comm 1])
    refine ⟨.invoke cp.func args :: events, ?_, .cons ⟨cp, args, cpRegistered, rfl, hold⟩ delivered⟩
    rw [step, ← length_cons, looped, append_assoc, singleton_append]

/-- **Command round trip.** Any list of commands in range whose encodings fit one
block, from either encoder, is dispatched as exactly the calls of its handlers
in order, each with the values sent, and the dispatcher stops at the end of the
payload. The machine may be shut down only when a command allowed in shutdown
comes up. -/
theorem command_roundTrip (mcu : Dispatcher) (commands : List HostCommand) (sequence : UInt8)
    (inRange : ∀ command ∈ commands, command.InRange)
    (fits : (commands.map HostCommand.size).sum ≤ MESSAGE_PAYLOAD_MAX)
    (registered : ∀ command ∈ commands, ∃ cp, Registered mcu command.format cp)
    (running : ∀ position command cp, commands[position]? = some command →
      Registered mcu command.format cp →
      mcu.schedIsShutdown position = true → cp.inShutdown = true) :
    ∃ content events, HostCommand.encodeAll commands = some content ∧
      commandDispatch mcu (addFrame sequence content) (addFrame sequence content).length =
        .ok (events, (addFrame sequence content).length - MESSAGE_TRAILER_SIZE) ∧
      List.Forall₂ (Delivered mcu (addFrame sequence content)) commands events := by
  obtain ⟨content, encoded, length, run⟩ := dispatchLoop_commands inRange registered fits
  have payload : content.length ≤ 59 := length ▸ fits
  have atEnd : MESSAGE_HEADER_SIZE + content.length =
      (addFrame sequence content).length - MESSAGE_TRAILER_SIZE := by
    rw [addFrame_length, MESSAGE_HEADER_SIZE, MESSAGE_MIN, MESSAGE_TRAILER_SIZE]
    omega
  have small : (addFrame sequence content).length - MESSAGE_TRAILER_SIZE < 256 := by
    rw [← atEnd, MESSAGE_HEADER_SIZE]
    omega
  obtain ⟨events, dispatched, delivered⟩ := run (addFrame sequence content).length []
    (standsAt_addFrame sequence content) atEnd small (by rw [addFrame_length]; omega)
    (by simpa using running)
  exact ⟨content, events, encoded, dispatched, delivered⟩

def debugPing : MessageFormat := ⟨1, [("data", .buffer)]⟩
def queueStep : MessageFormat :=
  ⟨2, [("oid", .byte), ("interval", .uint32), ("count", .uint16), ("add", .int16)]⟩

def pingStepMcu : Dispatcher where
  commandIndex := [⟨false, [], ""⟩, ⟨true, [.buffer], "command_debug_ping"⟩,
    ⟨false, [.byte, .uint32, .uint16, .int16], "command_queue_step"⟩]
  bufferAddress := 0x20000400
  schedIsShutdown := fun _ => false

def pingStepBlock : List HostCommand :=
  [.python debugPing [.bytes [7, 0, 9]], .chelper queueStep 2 [4, 3000, 20, -5]]

theorem command_roundTrip_pingStep :
    ∃ content events, HostCommand.encodeAll pingStepBlock = some content ∧
      commandDispatch pingStepMcu (addFrame 0x13 content) (addFrame 0x13 content).length =
        .ok (events, (addFrame 0x13 content).length - MESSAGE_TRAILER_SIZE) ∧
      List.Forall₂ (Delivered pingStepMcu (addFrame 0x13 content)) pingStepBlock events := by
  refine command_roundTrip pingStepMcu pingStepBlock 0x13 ?_ (by decide) ?_ ?_
  · refine forall_mem_cons.mpr ⟨⟨by decide, .cons trivial .nil⟩, ?_⟩
    exact forall_mem_singleton.mpr ⟨by decide, rfl, by decide, by decide, rfl⟩
  · refine forall_mem_cons.mpr ⟨⟨_, by decide, rfl, rfl⟩, forall_mem_singleton.mpr ?_⟩
    exact ⟨_, by decide, rfl, rfl⟩
  · rintro - - - - - ⟨⟩

end MagnetoX.Message
