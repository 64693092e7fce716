import MagnetoX.Message.Command
import MagnetoX.Message.Framing

/-!
Owns which bytes of a block the handlers of its commands see. The dispatcher is
run with the bytes that each command was decoded from, and compared with a reading
of the payload alone.

Contract: a handler sees bytes of the payload only, unless the payload ends within
the last parameter of a command and this is an integer. `command_parsef` tests its
position before it decodes a parameter and not behind the last one, so that such a
parameter is completed from the checksum.
-/

namespace MagnetoX.Message

open List Option

/-! ### Dispatching with positions -/

/-- What one command led to, and the bytes from `first` up to `stop` that its
parameters were decoded from. -/
structure Decoded where
  event : Event
  first : Nat
  stop : Nat
deriving DecidableEq, Repr

/-- The loop of `command_dispatch`; `done` counts the commands before. -/
def dispatchDecoded (mcu : Dispatcher) (buf : Bytes) (msgend : Nat) :
    Nat → Nat → Nat → List Decoded × Except DispatchFailure Nat
  | 0, p, _ => ([], if p < msgend then .error .outOfFuel else .ok p)
  | fuel + 1, p, done =>
      if p < msgend then
        match buf[p]? with
        | none => ([], .error .overread)
        | some cmdid =>
            match commandLookupParser mcu.commandIndex cmdid with
            | .error failure => ([], .error failure)
            | .ok cp =>
                match commandParsef mcu.bufferAddress buf msgend cp.paramTypes (p + 1) [] with
                | .error failure => ([], .error failure)
                | .ok (args, stop) =>
                    let event : Event :=
                      if mcu.schedIsShutdown done && !cp.inShutdown then .reportShutdown
                      else .invoke cp.func args
                    let (decoded, result) := dispatchDecoded mcu buf msgend fuel stop (done + 1)
                    (⟨event, p + 1, stop⟩ :: decoded, result)
      else ([], .ok p)

variable {buf : Bytes} {msgend p done : Nat} {mcu : Dispatcher}

theorem dispatchDecoded_past {fuel : Nat}
    (past : ¬ p < msgend) : dispatchDecoded mcu buf msgend fuel p done = ([], .ok p) := by
  cases fuel <;> rw [dispatchDecoded, if_neg past]

/-- The positions are an addition to the dispatcher. -/
theorem dispatchLoop_eq (mcu : Dispatcher) (buf : Bytes) (msgend fuel p : Nat) (done : List Event) :
    dispatchLoop mcu buf msgend fuel p done =
      (dispatchDecoded mcu buf msgend fuel p done.length).2.map (fun stop =>
        (done ++ (dispatchDecoded mcu buf msgend fuel p done.length).1.map Decoded.event, stop)) := by
  induction fuel generalizing p done with
  | zero =>
    rw [dispatchLoop, dispatchDecoded]
    split <;> simp [Except.map]
  | succ fuel ih =>
    rw [dispatchLoop, dispatchDecoded]
    by_cases inside : p < msgend
    · cases read : buf[p]? with
      | none => simp [inside, Except.map]
      | some cmdid =>
        cases lookup : commandLookupParser mcu.commandIndex cmdid with
        | error failure => simp [inside, lookup, Except.map]
        | ok cp =>
          cases parses : commandParsef mcu.bufferAddress buf msgend cp.paramTypes (p + 1) [] with
          | error failure => simp [inside, lookup, parses, Except.map]
          | ok result =>
            simp only [if_pos inside, lookup, parses, map_cons]
            split <;>
            · rw [ih, length_append, length_singleton]
              simp
    · simp [inside, Except.map]

/-! ### Reading the payload -/

def skipInt : Bytes → Option Bytes
  | [] => none
  | c :: rest => if c &&& 0x80 ≠ 0 then skipInt rest else some rest

/-- The rest behind a parameter, if the payload holds all of it. -/
def skipParam : ParamType → Bytes → Option Bytes
  | .buffer, len :: rest => if len.toNat ≤ rest.length then some (rest.drop len.toNat) else none
  | .buffer, [] | .string, _ | .progmemBuffer, _ => none
  | _, payload => skipInt payload

/-- The rest behind the parameters of a command, or the parameters from the first
one on that the payload does not hold. -/
def skipParams : List ParamType → Bytes → Except (List ParamType) Bytes
  | [], payload => .ok payload
  | t :: paramTypes, payload =>
      match skipParam t payload with
      | none => .error (t :: paramTypes)
      | some rest => skipParams paramTypes rest

variable {payload trailer : Bytes} {t : ParamType} {paramTypes : List ParamType} {c : UInt8}

theorem skipInt_length {rest : Bytes} (skips : skipInt payload = some rest) :
    rest.length ≤ payload.length := by
  induction payload with
  | nil => cases skips
  | cons c payload ih =>
    rw [skipInt] at skips
    rw [length_cons]
    split at skips
    · exact (ih skips).trans (Nat.le_succ _)
    · cases skips
      exact Nat.le_succ _

theorem skipParam_length {rest : Bytes} (skips : skipParam t payload = some rest) :
    rest.length ≤ payload.length := by
  cases t with
  | uint32 | int32 | uint16 | int16 | byte => exact skipInt_length skips
  | string | progmemBuffer => cases skips
  | buffer =>
    cases payload with
    | nil => cases skips
    | cons len payload =>
      rw [skipParam] at skips
      split at skips
      · cases skips
        rw [length_drop, length_cons]
        omega
      · cases skips

theorem skipParams_length {rest : Bytes}
    (skips : skipParams paramTypes payload = .ok rest) : rest.length ≤ payload.length := by
  induction paramTypes generalizing payload with
  | nil =>
    cases skips
    exact le_rfl
  | cons t paramTypes ih =>
    rw [skipParams] at skips
    split at skips
    · cases skips
    · rename_i next isNext
      exact (ih skips).trans (skipParam_length isNext)

inductive PayloadEnd where
  | complete
  | invalidCommand
  /-- The last command lacks these parameters. -/
  | truncated (lacking : List ParamType)
deriving DecidableEq, Repr

def payloadEnd (commandIndex : List CommandParser) : Nat → Bytes → PayloadEnd
  | _, [] => .complete
  | 0, _ :: _ => .complete
  | fuel + 1, cmdid :: rest =>
      match commandLookupParser commandIndex cmdid with
      | .error _ => .invalidCommand
      | .ok cp =>
          match skipParams cp.paramTypes rest with
          | .error lacking => .truncated lacking
          | .ok rest => payloadEnd commandIndex fuel rest

/-! ### Decoding at the end of the payload -/

/-- A buffer from `p` on: `payload` is left, and behind it a byte that ends every
integer. -/
structure Remaining (buf : Bytes) (msgend p : Nat) (payload : Bytes) : Prop where
  position : p + payload.length = msgend
  stops : ∃ trailer, buf.drop p = payload ++ trailer ∧ ∃ c ∈ trailer, c &&& 0x80 = 0

theorem Remaining.drop {chunk rest : Bytes}
    (remaining : Remaining buf msgend p (chunk ++ rest)) : Remaining buf msgend (p + chunk.length) rest where
  position := by
    have position := remaining.position
    rw [length_append] at position
    omega
  stops := by
    obtain ⟨trailer, split, stops⟩ := remaining.stops
    refine ⟨trailer, ?_, stops⟩
    rw [← drop_drop, split, append_assoc, drop_left]

structure EndsInt (payload : Bytes) (read : Nat) : Prop where
  inside : ∀ rest, skipInt payload = some rest → ∃ chunk, payload = chunk ++ rest ∧ chunk.length = read
  outside : skipInt payload = none → payload.length < read

theorem EndsInt.cons {read : Nat} (flagged : c &&& 0x80 ≠ 0)
    (ends : EndsInt payload read) : EndsInt (c :: payload) (read + 1) where
  inside := by
    intro rest skips
    rw [skipInt, if_pos flagged] at skips
    obtain ⟨chunk, rfl, rfl⟩ := ends.inside rest skips
    exact ⟨c :: chunk, rfl, rfl⟩
  outside := by
    intro skips
    rw [skipInt, if_pos flagged] at skips
    simpa using ends.outside skips

theorem EndsInt.last (unflagged : ¬ c &&& 0x80 ≠ 0) (payload : Bytes) :
    EndsInt (c :: payload) 1 where
  inside := by
    intro rest skips
    rw [skipInt, if_neg unflagged] at skips
    cases skips
    exact ⟨[c], rfl, rfl⟩
  outside := by
    intro skips
    rw [skipInt, if_neg unflagged] at skips
    cases skips

theorem endsInt_nil {read : Nat} (positive : 0 < read) : EndsInt [] read :=
  ⟨nofun, fun _ => positive⟩

theorem stops_tail (flagged : c &&& 0x80 ≠ 0)
    (stops : ∃ other ∈ c :: trailer, other &&& 0x80 = 0) : ∃ other ∈ trailer, other &&& 0x80 = 0 := by
  obtain ⟨other, isByte, unflagged⟩ := stops
  rcases mem_cons.mp isByte with rfl | later
  · exact absurd unflagged flagged
  · exact ⟨other, later, unflagged⟩

theorem parseIntLoop_ends (v : UInt32) (payload : Bytes) (stops : ∃ c ∈ trailer, c &&& 0x80 = 0) :
    ∃ w read, parseIntLoop v (payload ++ trailer) = some (w, read) ∧ 0 < read ∧ EndsInt payload read := by
  induction payload generalizing v with
  | nil =>
    induction trailer generalizing v with
    | nil =>
      obtain ⟨c, isByte, -⟩ := stops
      cases isByte
    | cons c trailer ih =>
      rw [nil_append, parseIntLoop]
      by_cases flagged : c &&& 0x80 ≠ 0
      · obtain ⟨w, read, reads, -, -⟩ := ih (stops_tail flagged stops)
          (v <<< 7 ||| (c &&& 0x7f).toUInt32)
        rw [nil_append] at reads
        refine ⟨w, read + 1, ?_, read.succ_pos, endsInt_nil read.succ_pos⟩
        rw [if_pos flagged, reads, map_some]
      · exact ⟨_, 1, if_neg flagged, Nat.one_pos, endsInt_nil Nat.one_pos⟩
  | cons c payload ih =>
    rw [cons_append, parseIntLoop]
    by_cases flagged : c &&& 0x80 ≠ 0
    · obtain ⟨w, read, reads, -, ends⟩ := ih (v <<< 7 ||| (c &&& 0x7f).toUInt32)
      refine ⟨w, read + 1, ?_, read.succ_pos, ends.cons flagged⟩
      rw [if_pos flagged, reads, map_some]
    · exact ⟨_, 1, if_neg flagged, Nat.one_pos, .last flagged payload⟩

theorem parseInt_ends
    (split : buf.drop p = payload ++ trailer) (stops : ∃ c ∈ trailer, c &&& 0x80 = 0) :
    ∃ v read, parseInt buf p = some (v, p + read) ∧ EndsInt payload read := by
  -- The first byte is of the payload or of the trailer.
  cases payload with
  | nil =>
    cases trailer with
    | nil =>
      obtain ⟨c, isByte, -⟩ := stops
      cases isByte
    | cons c trailer =>
      simp only [parseInt, split, nil_append]
      by_cases flagged : c &&& 0x80 ≠ 0
      · obtain ⟨w, read, reads, -, -⟩ := parseIntLoop_ends _ [] (stops_tail flagged stops)
        refine ⟨w, 1 + read, ?_, endsInt_nil (by omega)⟩
        rw [if_pos flagged, ← Nat.add_assoc]
        exact congrArg (Option.map _) reads
      · exact ⟨_, 1, if_neg flagged, endsInt_nil Nat.one_pos⟩
  | cons c payload =>
    simp only [parseInt, split, cons_append]
    by_cases flagged : c &&& 0x80 ≠ 0
    · obtain ⟨w, read, reads, -, ends⟩ := parseIntLoop_ends _ payload stops
      refine ⟨w, read + 1, ?_, ends.cons flagged⟩
      rw [if_pos flagged, Nat.add_comm read, ← Nat.add_assoc]
      exact congrArg (Option.map _) reads
    · exact ⟨_, 1, if_neg flagged, .last flagged payload⟩

/-! ### One command -/

section Parse

variable {payload : Bytes} {bufferAddress : UInt32}

/-- The only way past the end of the payload: one integer is lacking. -/
def LacksInt : List ParamType → Prop
  | [t] => t.IsInt
  | _ => False

instance : DecidablePred LacksInt
  | [] => inferInstanceAs (Decidable False)
  | [t] => inferInstanceAs (Decidable t.IsInt)
  | _ :: _ :: _ => inferInstanceAs (Decidable False)

/-- How a command is parsed, by what the payload holds of its parameters. -/
def ParsesAs (buf : Bytes) (msgend : Nat) (result : Except DispatchFailure (List UInt32 × Nat)) :
    Except (List ParamType) Bytes → Prop
  | .ok rest => ∃ words stop, result = .ok (words, stop) ∧ Remaining buf msgend stop rest
  | .error lacking =>
      if LacksInt lacking then ∃ words stop, result = .ok (words, stop) ∧ msgend < stop
      else result = .error (.shutdown "Command parser error")

/-- Behind the payload, only a command without further parameters comes to its
end. -/
theorem commandParsef_past {args : List UInt32} (past : p > msgend) :
    commandParsef bufferAddress buf msgend (t :: paramTypes) p args =
      .error (.shutdown "Command parser error") := by
  cases t <;> simp only [commandParsef, if_pos past]

theorem not_lacksInt (notInt : ¬ t.IsInt) (paramTypes : List ParamType) :
    ¬ LacksInt (t :: paramTypes) := by
  cases paramTypes with
  | nil => exact notInt
  | cons next paramTypes => exact id

/-- A buffer that is not whole is noticed at its length byte. -/
theorem commandParsef_buffer_cases (paramTypes : List ParamType)
    (args : List UInt32) (remaining : Remaining buf msgend p payload) :
    (skipParam .buffer payload = none ∧ commandParsef bufferAddress buf msgend (.buffer :: paramTypes) p
      args = .error (.shutdown "Command parser error")) ∨
    ∃ chunk rest words, payload = chunk ++ rest ∧ skipParam .buffer payload = some rest ∧
      commandParsef bufferAddress buf msgend (.buffer :: paramTypes) p args =
        commandParsef bufferAddress buf msgend paramTypes (p + chunk.length) words := by
  have position := remaining.position
  obtain ⟨trailer, split, stops⟩ := remaining.stops
  have inside : ¬ p > msgend := by omega
  have read : buf[p]? = (payload ++ trailer)[0]? := by
    rw [← split, getElem?_drop, Nat.add_zero]
  cases payload with
  | nil =>
    obtain ⟨c, isByte, -⟩ := stops
    obtain ⟨len, trailer, rfl⟩ := exists_cons_of_ne_nil (ne_nil_of_mem isByte)
    refine .inl ⟨rfl, ?_⟩
    have past : p + 1 + len.toNat > msgend := by
      rw [length_nil] at position
      omega
    simp only [commandParsef, if_neg inside, read, nil_append, getElem?_cons_zero, if_pos past]
  | cons len payload =>
    rw [length_cons] at position
    simp only [cons_append, getElem?_cons_zero] at read
    by_cases whole : len.toNat ≤ payload.length
    · have room : ¬ p + 1 + len.toNat > msgend := by omega
      refine .inr ⟨len :: payload.take len.toNat, payload.drop len.toNat,
        args ++ [len.toUInt32, commandEncodePtr bufferAddress (p + 1)], ?_, if_pos whole, ?_⟩
      · rw [cons_append, take_append_drop]
      · simp only [commandParsef, if_neg inside, read, if_neg room, length_cons, length_take,
          min_eq_left whole]
        rw [Nat.add_assoc, Nat.add_comm 1]
    · have past : p + 1 + len.toNat > msgend := by omega
      refine .inl ⟨if_neg whole, ?_⟩
      simp only [commandParsef, if_neg inside, read, if_pos past]

theorem commandParsef_parsesAs (bufferAddress : UInt32) (paramTypes : List ParamType) (args : List UInt32)
    (remaining : Remaining buf msgend p payload) :
    ParsesAs buf msgend (commandParsef bufferAddress buf msgend paramTypes p args)
      (skipParams paramTypes payload) := by
  induction paramTypes generalizing p payload args with
  | nil => exact ⟨args, p, rfl, remaining⟩
  | cons t paramTypes ih =>
    have inside : ¬ p > msgend := by
      have := remaining.position
      omega
    rw [skipParams]
    cases t with
    | uint32 | int32 | uint16 | int16 | byte =>
      obtain ⟨trailer, split, stops⟩ := remaining.stops
      obtain ⟨v, read, parses, ends⟩ := parseInt_ends split stops
      simp only [commandParsef, if_neg inside, parses, skipParam]
      cases isRest : skipInt payload with
      | some rest =>
        obtain ⟨chunk, rfl, rfl⟩ := ends.inside rest isRest
        exact ih (args ++ [v]) remaining.drop
      | none =>
        have past : p + read > msgend := by
          have := ends.outside isRest
          have := remaining.position
          omega
        cases paramTypes with
        | nil => exact ⟨_, _, rfl, past⟩
        | cons next paramTypes => exact commandParsef_past past
    | buffer =>
      rcases commandParsef_buffer_cases paramTypes args remaining with
        ⟨lacks, fails⟩ | ⟨chunk, rest, words, rfl, skips, continues⟩
      · rw [lacks, fails]
        exact (if_neg (not_lacksInt (by decide) paramTypes)).mpr rfl
      · rw [skips, continues]
        exact ih words remaining.drop
    | string | progmemBuffer =>
      simp only [commandParsef, if_neg inside, skipParam]
      exact (if_neg (not_lacksInt (by decide) paramTypes)).mpr rfl

end Parse

/-! ### Blocks -/

/-- How a payload is dispatched, by how it ends. -/
def DispatchesAs (msgend : Nat) (dispatch : List Decoded × Except DispatchFailure Nat) :
    PayloadEnd → Prop
  | .complete => (∀ decoded ∈ dispatch.1, decoded.stop ≤ msgend) ∧ dispatch.2 = .ok msgend
  | .invalidCommand =>
      (∀ decoded ∈ dispatch.1, decoded.stop ≤ msgend) ∧ dispatch.2 = .error (.shutdown "Invalid command")
  | .truncated lacking =>
      if LacksInt lacking then ∃ stop, msgend < stop ∧ dispatch.2 = .ok stop
      else (∀ decoded ∈ dispatch.1, decoded.stop ≤ msgend) ∧
        dispatch.2 = .error (.shutdown "Command parser error")

/-- A command that the payload holds comes before what the rest leads to. -/
theorem DispatchesAs.cons {decoded : Decoded} {later : List Decoded}
    {result : Except DispatchFailure Nat} {isEnd : PayloadEnd} (inside : decoded.stop ≤ msgend)
    (dispatches : DispatchesAs msgend (later, result) isEnd) :
    DispatchesAs msgend (decoded :: later, result) isEnd := by
  have both : (∀ other ∈ later, other.stop ≤ msgend) → ∀ other ∈ decoded :: later, other.stop ≤ msgend :=
    fun rest => forall_mem_cons.mpr ⟨inside, rest⟩
  cases isEnd with
  | complete | invalidCommand => exact ⟨both dispatches.1, dispatches.2⟩
  | truncated lacking =>
    by_cases lacks : LacksInt lacking
    · simpa only [DispatchesAs, if_pos lacks] using dispatches
    · simp only [DispatchesAs, if_neg lacks] at dispatches ⊢
      exact ⟨both dispatches.1, dispatches.2⟩

theorem lookup_error {commandIndex : List CommandParser} {cmdid : UInt8} {failure : DispatchFailure}
    (fails : commandLookupParser commandIndex cmdid = .error failure) :
    failure = .shutdown "Invalid command" := by
  unfold commandLookupParser at fails
  split at fails
  · cases fails
    rfl
  · split at fails
    · cases fails
      rfl
    · cases fails

theorem Remaining.dispatchesAs_nil {fuel bound : Nat} (remaining : Remaining buf msgend p []) :
    DispatchesAs msgend (dispatchDecoded mcu buf msgend fuel p done)
      (payloadEnd mcu.commandIndex bound []) := by
  have atEnd : p = msgend := by simpa using remaining.position
  rw [dispatchDecoded_past (by omega), atEnd]
  unfold payloadEnd
  exact ⟨nofun, rfl⟩

theorem dispatchDecoded_dispatchesAs (mcu : Dispatcher) (fuel : Nat)
    (remaining : Remaining buf msgend p payload)
    (enough : payload.length ≤ fuel) {bound : Nat} (bounded : payload.length ≤ bound) :
    DispatchesAs msgend (dispatchDecoded mcu buf msgend fuel p done)
      (payloadEnd mcu.commandIndex bound payload) := by
  induction fuel generalizing p done payload bound with
  | zero =>
    obtain rfl := eq_nil_of_length_eq_zero (Nat.le_zero.mp enough)
    exact remaining.dispatchesAs_nil
  | succ fuel ih =>
    have position := remaining.position
    obtain ⟨trailer, split, -⟩ := remaining.stops
    cases payload with
    | nil => exact remaining.dispatchesAs_nil
    | cons cmdid payload =>
      rw [length_cons] at position enough bounded
      obtain ⟨bound, rfl⟩ : ∃ smaller, bound = smaller + 1 := ⟨bound - 1, by omega⟩
      have read : buf[p]? = some cmdid := StandsAt.head ⟨trailer, split.symm⟩
      have behind : Remaining buf msgend (p + 1) payload := @Remaining.drop _ _ _ [cmdid] _ remaining
      rw [dispatchDecoded, if_pos (by omega), read, payloadEnd]
      cases lookup : commandLookupParser mcu.commandIndex cmdid with
      | error failure =>
        cases lookup_error lookup
        simp only [lookup]
        exact ⟨nofun, rfl⟩
      | ok cp =>
        have parses := commandParsef_parsesAs mcu.bufferAddress cp.paramTypes [] behind
        simp only [lookup]
        cases skips : skipParams cp.paramTypes payload with
        | ok rest =>
          rw [skips] at parses
          obtain ⟨words, stop, parsed, later⟩ := parses
          have position' := later.position
          have shorter := skipParams_length skips
          simp only [parsed]
          exact .cons (by dsimp only; omega) (ih later (by omega) (by omega))
        | error lacking =>
          rw [skips] at parses
          by_cases lacks : LacksInt lacking
          · simp only [ParsesAs, if_pos lacks] at parses
            obtain ⟨words, stop, parsed, past⟩ := parses
            simp only [parsed, DispatchesAs, if_pos lacks]
            exact ⟨stop, past, by rw [dispatchDecoded_past (by omega)]⟩
          · simp only [ParsesAs, if_neg lacks] at parses
            simp only [parses, DispatchesAs, if_neg lacks]
            exact ⟨nofun, trivial⟩

def decodedBlock (mcu : Dispatcher) (buf : Bytes) (msglen : Nat) :
    List Decoded × Except DispatchFailure Nat :=
  dispatchDecoded mcu buf (msglen - MESSAGE_TRAILER_SIZE) msglen MESSAGE_HEADER_SIZE 0

def payloadOf (buf : Bytes) (msglen : Nat) : Bytes :=
  (buf.take (msglen - MESSAGE_TRAILER_SIZE)).drop MESSAGE_HEADER_SIZE

def blockEnd (mcu : Dispatcher) (buf : Bytes) (msglen : Nat) : PayloadEnd :=
  payloadEnd mcu.commandIndex msglen (payloadOf buf msglen)

/-- Handlers see bytes of the payload only, and a truncated command is an error. -/
structure SeesPayload (mcu : Dispatcher) (buf : Bytes) (msglen : Nat) : Prop where
  handlers : ∀ decoded ∈ (decodedBlock mcu buf msglen).1, ∀ func args,
    decoded.event = .invoke func args → decoded.stop ≤ msglen - MESSAGE_TRAILER_SIZE
  truncated : ∀ lacking, blockEnd mcu buf msglen = .truncated lacking →
    commandDispatch mcu buf msglen = .error (.shutdown "Command parser error")

theorem blockError_ret (syncState : SyncState) (nextSequence : UInt8) (buf : Bytes) :
    (blockError syncState nextSequence buf).ret = -1 := by
  unfold blockError
  split <;> rfl

theorem accepted_block {syncState : SyncState} {nextSequence : UInt8}
    (accepts : (commandFindBlock syncState nextSequence buf).ret = 1) :
    IsFrame buf (commandFindBlock syncState nextSequence buf).popCount := by
  rw [commandFindBlock_eq_judge] at accepts ⊢
  split at accepts
  · cases accepts
  · rename_i inSync
    rw [if_neg inSync]
    cases verdict : judge buf with
    | more => simp [verdict] at accepts
    | bad => simp [verdict, blockError_ret] at accepts
    | frame msglen =>
      have isFrame := judge_frame verdict
      dsimp only
      split <;> exact isFrame

theorem IsFrame.remaining {msglen : Nat} (frame : IsFrame buf msglen) :
    Remaining buf (msglen - MESSAGE_TRAILER_SIZE) MESSAGE_HEADER_SIZE (payloadOf buf msglen) := by
  have least := frame.least
  have complete := frame.complete
  rw [MESSAGE_MIN] at least
  refine ⟨?_, buf.drop (msglen - MESSAGE_TRAILER_SIZE), ?_, MESSAGE_SYNC, ?_, by decide⟩
  · simp only [payloadOf, length_drop, length_take, MESSAGE_HEADER_SIZE, MESSAGE_TRAILER_SIZE]
    omega
  · rw [payloadOf, ← drop_append_of_le_length, take_append_drop]
    simp only [length_take, MESSAGE_HEADER_SIZE, MESSAGE_TRAILER_SIZE]
    omega
  · have inside : msglen - 1 < buf.length := by omega
    have sync := frame.sync
    rw [byteAt, getD_eq_getElem?_getD, getElem?_eq_getElem inside, getD_some] at sync
    rw [← sync, mem_iff_getElem?]
    refine ⟨2, ?_⟩
    rw [getElem?_drop, MESSAGE_TRAILER_SIZE, show msglen - 3 + 2 = msglen - 1 by omega,
      getElem?_eq_getElem inside]

/-- **Handlers and the payload.** In every block that `command_find_block` accepts,
handlers see bytes of the payload only and a truncated command is an error, if and
only if the payload does not end within an integer that is the last parameter of
its command. -/
theorem handlers_see_payload_iff (mcu : Dispatcher) {syncState : SyncState} {nextSequence : UInt8}
    {buf : Bytes} {msglen : Nat}
    (accepts : (commandFindBlock syncState nextSequence buf).ret = 1)
    (pops : (commandFindBlock syncState nextSequence buf).popCount = msglen) :
    SeesPayload mcu buf msglen ↔
      ∀ lacking, blockEnd mcu buf msglen = .truncated lacking → ¬ LacksInt lacking := by
  have frame := accepted_block accepts
  rw [pops] at frame
  have short : (payloadOf buf msglen).length ≤ msglen := by
    have := frame.remaining.position
    omega
  have dispatches : DispatchesAs (msglen - MESSAGE_TRAILER_SIZE) (decodedBlock mcu buf msglen)
      (blockEnd mcu buf msglen) := dispatchDecoded_dispatchesAs mcu msglen frame.remaining short short
  have result : commandDispatch mcu buf msglen = (decodedBlock mcu buf msglen).2.map (fun stop =>
      ((decodedBlock mcu buf msglen).1.map Decoded.event, stop)) :=
    dispatchLoop_eq mcu buf (msglen - MESSAGE_TRAILER_SIZE) msglen MESSAGE_HEADER_SIZE []
  constructor
  · intro sees lacking isEnd lacks
    rw [isEnd, DispatchesAs, if_pos lacks] at dispatches
    obtain ⟨stop, -, finishes⟩ := dispatches
    have fails := sees.truncated lacking isEnd
    rw [result, finishes] at fails
    cases fails
  · intro notLacks
    cases isEnd : blockEnd mcu buf msglen with
    | complete | invalidCommand =>
      rw [isEnd] at dispatches
      exact ⟨fun decoded isDecoded _ _ _ => dispatches.1 decoded isDecoded,
        fun lacking isTruncated => nomatch isEnd.symm.trans isTruncated⟩
    | truncated lacking =>
      rw [isEnd, DispatchesAs, if_neg (notLacks lacking isEnd)] at dispatches
      refine ⟨fun decoded isDecoded _ _ _ => dispatches.1 decoded isDecoded, fun _ _ => ?_⟩
      rw [result, dispatches.2]
      rfl

def identifyOnly : Dispatcher where
  commandIndex := [⟨false, [], ""⟩, ⟨true, [.uint32, .byte], "command_identify"⟩]
  bufferAddress := 0x20000000
  schedIsShutdown := fun _ => false

/-- A whole command. -/
theorem handlers_see_payload_identify :
    (commandFindBlock ⟨false, false⟩ 0x10 (addFrame 0x10 [1, 0, 40])).popCount = 8 ∧
      (SeesPayload identifyOnly (addFrame 0x10 [1, 0, 40]) 8 ↔
        ∀ lacking, blockEnd identifyOnly (addFrame 0x10 [1, 0, 40]) 8 = .truncated lacking →
          ¬ LacksInt lacking) :=
  ⟨by decide +kernel, @handlers_see_payload_iff identifyOnly ⟨false, false⟩ 0x10 _ _ (by decide +kernel)
    (by decide +kernel)⟩

/-- Without its last parameter, the command takes `count` from the two bytes of the
checksum. -/
theorem handler_sees_checksum :
    let block := addFrame 0x10 [1, 0]
    block = [7, 16, 1, 0, 200, 77, 126] ∧ (commandFindBlock ⟨false, false⟩ 0x10 block).ret = 1 ∧
      (commandFindBlock ⟨false, false⟩ 0x10 block).popCount = 7 ∧
      (decodedBlock identifyOnly block 7).1 = [⟨.invoke "command_identify" [0, 9293], 3, 6⟩] ∧
      (commandDispatch identifyOnly block 7).toOption =
        some ([.invoke "command_identify" [0, 9293]], 6) := by
  decide +kernel

end MagnetoX.Message
