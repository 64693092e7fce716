import MagnetoX.Message.Receive

/-!
Owns the verdict on the bytes at the front of a buffer that both receivers share:
more data is needed, the bytes are no block, or there is a block.
-/

namespace MagnetoX.Message

inductive Verdict where
  | more
  | bad
  | frame (msglen : Nat)
deriving DecidableEq, Repr

/-- What a receiver that is in sync thinks of its buffer. -/
def judge (buf : Bytes) : Verdict :=
  let msglen := (byteAt buf 0).toNat
  let msgseq := byteAt buf 1
  if buf.length < MESSAGE_MIN then .more
  else if msglen < MESSAGE_MIN ∨ msglen > MESSAGE_MAX then .bad
  else if msgseq &&& ~~~MESSAGE_SEQ_MASK ≠ MESSAGE_DEST then .bad
  else if buf.length < msglen then .more
  else if byteAt buf (msglen - 1) ≠ MESSAGE_SYNC then .bad
  else if crc16Ccitt (buf.take (msglen - MESSAGE_TRAILER_SIZE)) ≠ trailerCrc buf msglen then .bad
  else .frame msglen

theorem commandFindBlock_eq_judge (syncState : SyncState) (nextSequence : UInt8) (buf : Bytes) :
    commandFindBlock syncState nextSequence buf =
      if buf.length ≠ 0 ∧ syncState.needSync then discardToSync syncState nextSequence buf
      else match judge buf with
        | .more => ⟨0, 0, syncState, nextSequence, false⟩
        | .bad => blockError syncState nextSequence buf
        | .frame msglen =>
          if byteAt buf 1 ≠ nextSequence then
            ⟨-1, msglen, { syncState with needValid := false }, nextSequence, true⟩
          else
            ⟨1, msglen, { syncState with needValid := false },
              ((byteAt buf 1 + 1) &&& MESSAGE_SEQ_MASK) ||| MESSAGE_DEST, false⟩ := by
  unfold commandFindBlock judge
  dsimp only
  split_ifs <;> rfl

structure IsFrame (buf : Bytes) (msglen : Nat) : Prop where
  least : MESSAGE_MIN ≤ msglen
  most : msglen ≤ MESSAGE_MAX
  complete : msglen ≤ buf.length
  length : (byteAt buf 0).toNat = msglen
  dest : byteAt buf 1 &&& ~~~MESSAGE_SEQ_MASK = MESSAGE_DEST
  sync : byteAt buf (msglen - 1) = MESSAGE_SYNC
  crc : crc16Ccitt (buf.take (msglen - MESSAGE_TRAILER_SIZE)) = trailerCrc buf msglen

theorem judge_frame {buf : Bytes} {msglen : Nat} (verdict : judge buf = .frame msglen) :
    IsFrame buf msglen := by
  unfold judge at verdict
  dsimp only at verdict
  split_ifs at verdict with few size dest partially sync crc
  cases verdict
  obtain ⟨least, most⟩ := not_or.mp size
  exact ⟨Nat.le_of_not_lt least, Nat.le_of_not_lt most, Nat.le_of_not_lt partially, rfl,
    not_not.mp dest, not_not.mp sync, not_not.mp crc⟩

end MagnetoX.Message
