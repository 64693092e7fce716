import MagnetoX.Message.Block

/-!
Owns the two receivers of message blocks: `command_find_block` of
`src/command.c` on the micro-controller and `msgblock_check` of
`klippy/chelper/msgblock.c` on the host.

Contract: a receiver that is in sync recognises every frame that the other end
built, whatever follows in its buffer.
-/

namespace MagnetoX.Message

open List

def byteAt (buf : Bytes) (pos : Nat) : UInt8 := buf.getD pos 0

/-- `(buf[msglen-MESSAGE_TRAILER_CRC] << 8) | buf[msglen-MESSAGE_TRAILER_CRC+1]`. -/
def trailerCrc (buf : Bytes) (msglen : Nat) : UInt16 :=
  (byteAt buf (msglen - 3)).toUInt16 <<< 8 ||| (byteAt buf (msglen - 2)).toUInt16

/-- The flags `CF_NEED_SYNC` and `CF_NEED_VALID` of `sync_state`. -/
structure SyncState where
  needSync : Bool
  needValid : Bool
deriving DecidableEq, Repr

/-- What a call of `command_find_block` returns and leaves behind. -/
structure FindBlock where
  ret : Int
  popCount : Nat
  syncState : SyncState
  nextSequence : UInt8
  nak : Bool
deriving DecidableEq, Repr

/-- The label `need_sync`: discard bytes until next SYNC found. -/
def discardToSync (syncState : SyncState) (nextSequence : UInt8) (buf : Bytes) : FindBlock :=
  let found := buf.findIdx? (· == MESSAGE_SYNC)
  { ret := -1
    popCount := found.elim buf.length (· + 1)
    syncState := ⟨if found.isSome then false else syncState.needSync, true⟩
    nextSequence
    nak := !syncState.needValid }

/-- The label `error`; leading SYNC bytes are ignored without a nak. -/
def blockError (syncState : SyncState) (nextSequence : UInt8) (buf : Bytes) : FindBlock :=
  if byteAt buf 0 = MESSAGE_SYNC then ⟨-1, 1, syncState, nextSequence, false⟩
  else discardToSync { syncState with needSync := true } nextSequence buf

def commandFindBlock (syncState : SyncState) (nextSequence : UInt8) (buf : Bytes) : FindBlock :=
  let msglen := (byteAt buf 0).toNat
  let msgseq := byteAt buf 1
  if buf.length ≠ 0 ∧ syncState.needSync then discardToSync syncState nextSequence buf
  else if buf.length < MESSAGE_MIN then ⟨0, 0, syncState, nextSequence, false⟩
  else if msglen < MESSAGE_MIN ∨ msglen > MESSAGE_MAX then blockError syncState nextSequence buf
  else if msgseq &&& ~~~MESSAGE_SEQ_MASK ≠ MESSAGE_DEST then
    blockError syncState nextSequence buf
  else if buf.length < msglen then ⟨0, 0, syncState, nextSequence, false⟩
  else if byteAt buf (msglen - 1) ≠ MESSAGE_SYNC then blockError syncState nextSequence buf
  else if crc16Ccitt (buf.take (msglen - MESSAGE_TRAILER_SIZE)) ≠ trailerCrc buf msglen then
    blockError syncState nextSequence buf
  else if msgseq ≠ nextSequence then
    -- Lost message - discard messages until it is retransmitted
    ⟨-1, msglen, { syncState with needValid := false }, nextSequence, true⟩
  else
    ⟨1, msglen, { syncState with needValid := false },
      ((msgseq + 1) &&& MESSAGE_SEQ_MASK) ||| MESSAGE_DEST, false⟩

/-- Verify a buffer starts with a valid mcu message: the return value, and
`need_sync` afterwards. -/
def msgblockCheck (needSync : Bool) (buf : Bytes) : Int × Bool :=
  let msglen := (byteAt buf 0).toNat
  let msgseq := byteAt buf 1
  let error : Int × Bool :=
    match buf.findIdx? (· == MESSAGE_SYNC) with
    | some pos => (-(pos + 1), false)
    | none => (-buf.length, true)
  if buf.length < MESSAGE_MIN then (0, needSync)
  else if needSync then error
  else if msglen < MESSAGE_MIN ∨ msglen > MESSAGE_MAX then error
  else if msgseq &&& ~~~MESSAGE_SEQ_MASK ≠ MESSAGE_DEST then error
  else if buf.length < msglen then (0, needSync)
  else if byteAt buf (msglen - 1) ≠ MESSAGE_SYNC then error
  else if crc16Ccitt (buf.take (msglen - MESSAGE_TRAILER_SIZE)) ≠ trailerCrc buf msglen then error
  else (msglen, needSync)

theorem crc_recombine (crc : UInt16) :
    (crc >>> 8).toUInt8.toUInt16 <<< 8 ||| crc.toUInt8.toUInt16 = crc := by
  have word := crc.toNat_lt
  apply UInt16.toNat_inj.mp
  rw [UInt16.toNat_or, UInt16.toNat_shiftLeft, UInt8.toNat_toUInt16, UInt8.toNat_toUInt16,
    UInt16.toNat_toUInt8, UInt16.toNat_toUInt8, UInt16.toNat_shiftRight,
    show (8 : UInt16).toNat % 16 = 8 by decide, Nat.shiftRight_eq_div_pow, Nat.shiftLeft_eq,
    Nat.mod_eq_of_lt (show crc.toNat / 2 ^ 8 % 2 ^ 8 * 2 ^ 8 < 2 ^ 16 by omega),
    ← Nat.shiftLeft_eq, ← Nat.shiftLeft_add_eq_or_of_lt (by omega), Nat.shiftLeft_eq]
  omega

/-- The frame `addFrame sequence content` at the front of a buffer passes every
check of both receivers. -/
structure WellFramed (sequence : UInt8) (content buf : Bytes) : Prop where
  msglen : (byteAt buf 0).toNat = content.length + MESSAGE_MIN
  msgseq : byteAt buf 1 = sequence
  enough : content.length + MESSAGE_MIN ≤ buf.length
  sync : byteAt buf (content.length + MESSAGE_MIN - 1) = MESSAGE_SYNC
  crc : crc16Ccitt (buf.take (content.length + MESSAGE_MIN - MESSAGE_TRAILER_SIZE)) =
    trailerCrc buf (content.length + MESSAGE_MIN)

theorem byteAt_append_right (front back : Bytes) (pos : Nat) :
    byteAt (front ++ back) (front.length + pos) = byteAt back pos := by
  simp [byteAt, getD_eq_getElem?_getD, getElem?_append_right]

variable {content : Bytes}

theorem wellFramed_addFrame (sequence : UInt8)
    (short : content.length ≤ MESSAGE_PAYLOAD_MAX) (rest : Bytes) :
    WellFramed sequence content (addFrame sequence content ++ rest) := by
  have headLength : (blockHead sequence content).length = content.length + 2 := rfl
  have split : addFrame sequence content ++ rest =
      blockHead sequence content ++ (blockTrailer sequence content ++ rest) :=
    append_assoc ..
  have trailer : ∀ pos, byteAt (addFrame sequence content ++ rest) (content.length + 2 + pos) =
      byteAt (blockTrailer sequence content ++ rest) pos := by
    intro pos
    rw [split, ← headLength, byteAt_append_right]
  simp only [MESSAGE_PAYLOAD_MAX, MESSAGE_MAX, MESSAGE_MIN] at short
  refine ⟨?_, rfl, ?_, ?_, ?_⟩
  · change (UInt8.ofNat (content.length + MESSAGE_MIN)).toNat = _
    rw [UInt8.toNat_ofNat', MESSAGE_MIN, Nat.mod_eq_of_lt (by omega)]
  · rw [length_append, addFrame_length]
    omega
  · exact trailer 2
  · have first := trailer 0
    have second := trailer 1
    rw [trailerCrc, MESSAGE_MIN, MESSAGE_TRAILER_SIZE,
      show content.length + 5 - 3 = content.length + 2 by omega,
      show content.length + 5 - 2 = content.length + 2 + 1 by omega, second]
    rw [first, split, ← headLength, take_left]
    exact (crc_recombine _).symm

/-- **The micro-controller recognises every frame.** In sync it accepts the
block whose number it expects, and naks any other. -/
theorem commandFindBlock_addFrame {sequence nextSequence : UInt8}
    (short : content.length ≤ MESSAGE_PAYLOAD_MAX)
    (dest : sequence &&& ~~~MESSAGE_SEQ_MASK = MESSAGE_DEST) (needValid : Bool) (rest : Bytes) :
    commandFindBlock ⟨false, needValid⟩ nextSequence (addFrame sequence content ++ rest) =
      if sequence ≠ nextSequence then
        ⟨-1, (addFrame sequence content).length, ⟨false, false⟩, nextSequence, true⟩ else
        ⟨1, (addFrame sequence content).length, ⟨false, false⟩,
          ((sequence + 1) &&& MESSAGE_SEQ_MASK) ||| MESSAGE_DEST, false⟩ := by
  obtain ⟨msglen, msgseq, enough, sync, crc⟩ := wellFramed_addFrame sequence short rest
  have most := frame_le_max short
  simp only [commandFindBlock, msglen, msgseq]
  rw [if_neg (by simp), if_neg (by omega), if_neg (by omega), if_neg (not_not.mpr dest),
    if_neg (by omega), if_neg (not_not.mpr sync), if_neg (not_not.mpr crc), addFrame_length]

theorem commandFindBlock_outOfSync {buf : Bytes} (nonempty : buf.length ≠ 0) (needValid : Bool)
    (nextSequence : UInt8) :
    (commandFindBlock ⟨true, needValid⟩ nextSequence buf).ret = -1 ∧
      (commandFindBlock ⟨true, needValid⟩ nextSequence buf).nextSequence = nextSequence := by
  unfold commandFindBlock
  simp only
  rw [if_pos ⟨nonempty, trivial⟩]
  exact ⟨rfl, rfl⟩

/-- **So does the host.** -/
theorem msgblockCheck_addFrame {sequence : UInt8} (short : content.length ≤ MESSAGE_PAYLOAD_MAX)
    (dest : sequence &&& ~~~MESSAGE_SEQ_MASK = MESSAGE_DEST) (rest : Bytes) :
    msgblockCheck false (addFrame sequence content ++ rest) =
      (((addFrame sequence content).length : Int), false) := by
  obtain ⟨msglen, msgseq, enough, sync, crc⟩ := wellFramed_addFrame sequence short rest
  have most := frame_le_max short
  simp only [msgblockCheck, msglen, msgseq]
  rw [if_neg (by omega), if_neg (by simp), if_neg (by omega), if_neg (not_not.mpr dest),
    if_neg (by omega), if_neg (not_not.mpr sync), if_neg (not_not.mpr crc), addFrame_length]

theorem msgblockCheck_outOfSync (buf : Bytes) : (msgblockCheck true buf).1 ≤ 0 := by
  unfold msgblockCheck
  simp only
  split
  · exact Int.le_refl 0
  · rw [if_pos trivial]
    split
    · simp only
      omega
    · simp only
      omega

end MagnetoX.Message
