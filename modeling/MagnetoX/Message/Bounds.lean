import MagnetoX.Message.Dispatch

/-!
Owns the bounds of `command_dispatch`: it reads no byte behind the sync byte of a
block, and it comes to an end after at most one command for each byte of the payload.

A read behind the end of a buffer is a failure of its own, so that it is enough to
look at the block without what follows it in the receive buffer.
-/

namespace MagnetoX.Message

open List

variable {front buf : Bytes} {result : UInt32 × Nat} {msglen p msgend : Nat}

theorem parseIntLoop_append {v : UInt32}
    (reads : parseIntLoop v front = some result) (back : Bytes) :
    parseIntLoop v (front ++ back) = some result := by
  induction front generalizing v result with
  | nil => cases reads
  | cons c front ih =>
    rw [parseIntLoop] at reads
    rw [cons_append, parseIntLoop]
    by_cases flagged : c &&& 0x80 ≠ 0
    · rw [if_pos flagged] at reads ⊢
      obtain ⟨rest, isRest, rfl⟩ := Option.map_eq_some_iff.mp reads
      rw [ih isRest, Option.map_some]
    · rw [if_neg flagged] at reads ⊢
      exact reads

theorem parseInt_append (reads : parseInt front p = some result)
    (back : Bytes) : parseInt (front ++ back) p = some result := by
  unfold parseInt at reads ⊢
  cases rest : front.drop p with
  | nil =>
    rw [rest] at reads
    cases reads
  | cons c rest' =>
    have inside : p ≤ front.length := by
      by_contra beyond
      rw [drop_eq_nil_of_le (by omega)] at rest
      cases rest
    rw [drop_append_of_le_length inside, rest, cons_append]
    rw [rest] at reads
    dsimp only at reads ⊢
    by_cases flagged : c &&& 0x80 ≠ 0
    · rw [if_pos flagged] at reads ⊢
      obtain ⟨read, isRead, rfl⟩ := Option.map_eq_some_iff.mp reads
      rw [parseIntLoop_append isRead, Option.map_some]
    · rw [if_neg flagged] at reads ⊢
      exact reads

theorem getElem?_append_of_some {c : UInt8} (read : front[p]? = some c) (back : Bytes) :
    (front ++ back)[p]? = some c := by
  rw [getElem?_append_left (List.getElem?_eq_some_iff.mp read).1, read]

theorem commandParsef_append (bufferAddress : UInt32) (front : Bytes) (maxend : Nat) (paramTypes : List ParamType)
    (p : Nat) (args : List UInt32)
    (inside : commandParsef bufferAddress front maxend paramTypes p args ≠ .error .overread) (back : Bytes) :
    commandParsef bufferAddress (front ++ back) maxend paramTypes p args =
      commandParsef bufferAddress front maxend paramTypes p args := by
  induction paramTypes generalizing p args with
  | nil => rfl
  | cons t paramTypes ih =>
    by_cases past : p > maxend
    · rw [commandParsef_past past, commandParsef_past past]
    cases t with
    | uint32 | int32 | uint16 | int16 | byte =>
      simp only [commandParsef, if_neg past] at inside ⊢
      cases parses : parseInt front p with
      | none => simp [parses] at inside
      | some result =>
        rw [parses] at inside
        rw [parseInt_append parses]
        exact ih _ _ inside
    | buffer =>
      simp only [commandParsef, if_neg past] at inside ⊢
      cases read : front[p]? with
      | none => simp [read] at inside
      | some len =>
        rw [read] at inside
        rw [getElem?_append_of_some read]
        dsimp only at inside ⊢
        by_cases room : p + 1 + len.toNat > maxend
        · rw [if_pos room, if_pos room]
        · rw [if_neg room] at inside ⊢
          rw [if_neg room]
          exact ih _ _ inside
    | string | progmemBuffer => simp only [commandParsef, if_neg past]

/-- A loop that comes to its end within its bytes and its rounds does not need more of
either. -/
theorem dispatchLoop_extend (mcu : Dispatcher) {fuel : Nat} {done : List Event}
    (inside : dispatchLoop mcu front msgend fuel p done ≠ .error .overread)
    (ends : dispatchLoop mcu front msgend fuel p done ≠ .error .outOfFuel) (back : Bytes) (more : Nat) :
    dispatchLoop mcu (front ++ back) msgend (fuel + more) p done = dispatchLoop mcu front msgend fuel p done := by
  by_cases before : p < msgend
  case neg => rw [dispatchLoop_past before, dispatchLoop_past before]
  induction fuel generalizing p done with
  | zero =>
    rw [dispatchLoop, if_pos before] at ends
    exact absurd rfl ends
  | succ fuel ih =>
    have later : ∀ {p done}, dispatchLoop mcu front msgend fuel p done ≠ .error .overread →
        dispatchLoop mcu front msgend fuel p done ≠ .error .outOfFuel →
        dispatchLoop mcu (front ++ back) msgend (fuel + more) p done =
          dispatchLoop mcu front msgend fuel p done := by
      intro p done inside ends
      by_cases before : p < msgend
      · exact ih inside ends before
      · rw [dispatchLoop_past before, dispatchLoop_past before]
    rw [dispatchLoop, if_pos before] at inside ends
    rw [Nat.add_right_comm, dispatchLoop, if_pos before, dispatchLoop, if_pos before]
    cases read : front[p]? with
    | none => simp [read] at inside
    | some cmdid =>
      rw [read] at inside ends
      rw [getElem?_append_of_some read]
      dsimp only at inside ends ⊢
      cases lookup : commandLookupParser mcu.commandIndex cmdid with
      | error failure => rfl
      | ok cp =>
        rw [lookup] at inside ends
        dsimp only at inside ends ⊢
        have parses : commandParsef mcu.bufferAddress front msgend cp.paramTypes (p + 1) [] ≠
            .error .overread := by
          intro overreads
          rw [overreads] at inside
          exact inside rfl
        rw [commandParsef_append _ _ _ _ _ _ parses]
        cases result : commandParsef mcu.bufferAddress front msgend cp.paramTypes (p + 1) [] with
        | error failure => rfl
        | ok parsed =>
          rw [result] at inside ends
          dsimp only at inside ends ⊢
          split
          case isTrue isReported =>
            rw [if_pos isReported] at inside ends
            exact later inside ends
          case isFalse isInvoked =>
            rw [if_neg isInvoked] at inside ends
            exact later inside ends

theorem length_dispatchDecoded (mcu : Dispatcher) (buf : Bytes) (msgend fuel p done : Nat) :
    (dispatchDecoded mcu buf msgend fuel p done).1.length ≤ fuel := by
  induction fuel generalizing p done with
  | zero => exact le_rfl
  | succ fuel ih =>
    rw [dispatchDecoded]
    split
    case isFalse => exact Nat.zero_le _
    split
    · exact Nat.zero_le _
    split
    · exact Nat.zero_le _
    split
    · exact Nat.zero_le _
    · exact Nat.succ_le_succ (ih _ _)

theorem byteAt_take {count i : Nat} (inside : i < count) :
    byteAt (buf.take count) i = byteAt buf i := by
  rw [byteAt, byteAt, getD_eq_getElem?_getD, getD_eq_getElem?_getD, getElem?_take_of_lt inside]

theorem IsFrame.take (frame : IsFrame buf msglen) : IsFrame (buf.take msglen) msglen := by
  have least := frame.least
  rw [MESSAGE_MIN] at least
  refine ⟨frame.least, frame.most, ?_, ?_, ?_, ?_, ?_⟩
  · rw [length_take, min_eq_left frame.complete]
  · rw [byteAt_take (by omega)]
    exact frame.length
  · rw [byteAt_take (by omega)]
    exact frame.dest
  · rw [byteAt_take (by omega)]
    exact frame.sync
  · rw [take_take, min_eq_left (Nat.sub_le _ _), trailerCrc, byteAt_take (by omega), byteAt_take (by omega)]
    exact frame.crc

theorem payloadOf_take (buf : Bytes) (msglen : Nat) : payloadOf (buf.take msglen) msglen = payloadOf buf msglen := by
  rw [payloadOf, payloadOf, take_take, min_eq_left (Nat.sub_le _ _)]

theorem DispatchesAs.ends {dispatch : List Decoded × Except DispatchFailure Nat} {isEnd : PayloadEnd}
    (dispatches : DispatchesAs msgend dispatch isEnd) :
    (∃ stop, dispatch.2 = .ok stop) ∨ ∃ reason, dispatch.2 = .error (.shutdown reason) := by
  cases isEnd with
  | complete => exact .inl ⟨_, dispatches.2⟩
  | invalidCommand => exact .inr ⟨_, dispatches.2⟩
  | truncated lacking =>
    by_cases lacks : LacksInt lacking
    · simp only [DispatchesAs, if_pos lacks] at dispatches
      obtain ⟨stop, -, finishes⟩ := dispatches
      exact .inl ⟨stop, finishes⟩
    · simp only [DispatchesAs, if_neg lacks] at dispatches
      exact .inr ⟨_, dispatches.2⟩

/-- The block alone, with one round of the loop for each byte of its payload. -/
def dispatchBlock (mcu : Dispatcher) (buf : Bytes) (msglen : Nat) : Except DispatchFailure (List Event × Nat) :=
  dispatchLoop mcu (buf.take msglen) (msglen - MESSAGE_TRAILER_SIZE) (payloadOf buf msglen).length MESSAGE_HEADER_SIZE []

theorem IsFrame.dispatchBlock_ends (mcu : Dispatcher) (frame : IsFrame buf msglen) :
    (∃ events stop, dispatchBlock mcu buf msglen = .ok (events, stop) ∧ events.length ≤ (payloadOf buf msglen).length) ∨
      ∃ reason, dispatchBlock mcu buf msglen = .error (.shutdown reason) := by
  have remaining := frame.take.remaining
  rw [payloadOf_take] at remaining
  have dispatches := @dispatchDecoded_dispatchesAs _ _ MESSAGE_HEADER_SIZE 0 _ mcu
    (payloadOf buf msglen).length remaining le_rfl _ le_rfl
  have few := length_dispatchDecoded mcu (buf.take msglen) (msglen - MESSAGE_TRAILER_SIZE)
    (payloadOf buf msglen).length MESSAGE_HEADER_SIZE 0
  rw [dispatchBlock, dispatchLoop_eq, length_nil]
  rcases dispatches.ends with ⟨stop, finishes⟩ | ⟨reason, fails⟩
  · left
    refine ⟨_, stop, by rw [finishes, Except.map], ?_⟩
    rw [nil_append, length_map]
    exact few
  · right
    exact ⟨reason, by rw [fails, Except.map]⟩

/-- The rounds and the bytes that `command_dispatch` has beyond that are not used. -/
theorem IsFrame.commandDispatch_eq (mcu : Dispatcher) (frame : IsFrame buf msglen) :
    commandDispatch mcu buf msglen = dispatchBlock mcu buf msglen := by
  have position := frame.remaining.position
  have returns : dispatchBlock mcu buf msglen ≠ .error .overread ∧
      dispatchBlock mcu buf msglen ≠ .error .outOfFuel := by
    rcases frame.dispatchBlock_ends mcu with ⟨events, stop, finishes, -⟩ | ⟨reason, fails⟩
    · simp [finishes]
    · simp [fails]
  have extended := dispatchLoop_extend mcu returns.1 returns.2 (buf.drop msglen)
    (msglen - (payloadOf buf msglen).length)
  rwa [take_append_drop, Nat.add_sub_of_le (by omega)] at extended

/-- **Bounds of a dispatch.** Of every block that `command_find_block` accepts,
`command_dispatch` reads the bytes up to the sync byte only, so that it does the same
on the block alone; it does so in as many rounds as the payload has bytes, and it
returns, with at most that many commands done, or shuts down. -/
theorem dispatch_in_bounds (mcu : Dispatcher) {syncState : SyncState} {nextSequence : UInt8}
    {buf : Bytes} {msglen : Nat}
    (accepts : (commandFindBlock syncState nextSequence buf).ret = 1)
    (pops : (commandFindBlock syncState nextSequence buf).popCount = msglen) :
    commandDispatch mcu buf msglen = commandDispatch mcu (buf.take msglen) msglen ∧
      commandDispatch mcu buf msglen =
        dispatchLoop mcu (buf.take msglen) (msglen - MESSAGE_TRAILER_SIZE) (payloadOf buf msglen).length
          MESSAGE_HEADER_SIZE [] ∧
      ((∃ events stop, commandDispatch mcu buf msglen = .ok (events, stop) ∧
          events.length ≤ (payloadOf buf msglen).length) ∨
        ∃ reason, commandDispatch mcu buf msglen = .error (.shutdown reason)) := by
  have frame := accepted_block accepts
  rw [pops] at frame
  have sameBlock : dispatchBlock mcu (buf.take msglen) msglen = dispatchBlock mcu buf msglen := by
    rw [dispatchBlock, dispatchBlock, take_take, min_self, payloadOf_take]
  rw [frame.commandDispatch_eq, frame.take.commandDispatch_eq, sameBlock]
  exact ⟨rfl, rfl, frame.dispatchBlock_ends mcu⟩

/-- A whole command, with further bytes in the receive buffer. -/
theorem dispatch_in_bounds_identify :
    let buf := addFrame 0x10 [1, 0, 40] ++ [200, 200]
    commandDispatch identifyOnly buf 8 = commandDispatch identifyOnly (buf.take 8) 8 ∧
      commandDispatch identifyOnly buf 8 =
        dispatchLoop identifyOnly (buf.take 8) (8 - MESSAGE_TRAILER_SIZE) (payloadOf buf 8).length
          MESSAGE_HEADER_SIZE [] ∧
      ((∃ events stop, commandDispatch identifyOnly buf 8 = .ok (events, stop) ∧
          events.length ≤ (payloadOf buf 8).length) ∨
        ∃ reason, commandDispatch identifyOnly buf 8 = .error (.shutdown reason)) :=
  @dispatch_in_bounds identifyOnly ⟨false, false⟩ 0x10 _ _ (by decide +kernel) (by decide +kernel)

end MagnetoX.Message
