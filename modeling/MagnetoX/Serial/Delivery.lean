import MagnetoX.Serial.Link

/-!
Owns exactly-once, in-order delivery of blocks from the host to the
micro-controller over the lossy link.

The invariant is a window around the number `expected` of the block that the
micro-controller waits for. Every frame on its way to the micro-controller is a
block that was built, at most twelve before and fewer than twelve after it, so
that the four bits on the wire determine the block. The lower bound survives an
accepted block because no frame is twelve or more ahead of one behind it.
-/

namespace MagnetoX.Serial

open Message Library Library.Run List Option

/-! ### The byte of a sequence number -/

theorem sequenceByte_facts (seq : Nat) :
    sequenceByte seq &&& ~~~MESSAGE_SEQ_MASK = MESSAGE_DEST ∧
      (sequenceByte seq).toNat % 16 = seq % 16 ∧
      ((sequenceByte seq + 1) &&& MESSAGE_SEQ_MASK) ||| MESSAGE_DEST = sequenceByte (seq + 1) := by
  have table : ∀ low < 16, ((MESSAGE_DEST ||| UInt8.ofNat low) &&& ~~~MESSAGE_SEQ_MASK =
        MESSAGE_DEST) ∧ (MESSAGE_DEST ||| UInt8.ofNat low).toNat % 16 = low ∧
      (((MESSAGE_DEST ||| UInt8.ofNat low) + 1) &&& MESSAGE_SEQ_MASK) ||| MESSAGE_DEST =
        MESSAGE_DEST ||| UInt8.ofNat ((low + 1) % 16) := by
    decide
  have entry := table (seq % 16) (by omega)
  rw [show (seq % 16 + 1) % 16 = (seq + 1) % 16 by omega] at entry
  exact entry

theorem sequenceByte_eq_iff (first second : Nat) :
    sequenceByte first = sequenceByte second ↔ first % 16 = second % 16 := by
  constructor
  · intro same
    rw [← (sequenceByte_facts first).2.1, ← (sequenceByte_facts second).2.1, same]
  · intro same
    rw [sequenceByte, sequenceByte, same]

/-! ### What the host's functions change -/

variable {sentQueue : List Bytes} {s : Link}

section Host

variable {sq after : Serialqueue} {seq : Nat} {content filled : Bytes}

theorem serialqueueSendBatch_eq (sq : Serialqueue) (cq : Nat) (msgs : List QueueMessage) :
    ∃ pendingQueues upcomingBytes,
      serialqueueSendBatch sq cq msgs = { sq with pendingQueues, upcomingBytes } := by
  unfold serialqueueSendBatch
  dsimp only
  split
  · exact ⟨_, _, rfl⟩
  · exact ⟨_, _, rfl⟩

theorem checkSendCommand_eq (sq : Serialqueue) (time : SendTime) :
    ∃ pendingQueues readyBytes upcomingBytes,
      (checkSendCommand sq time).1 = { sq with pendingQueues, readyBytes, upcomingBytes } := by
  unfold checkSendCommand
  split
  · exact ⟨_, _, _, rfl⟩
  · dsimp only
    split
    · exact ⟨_, _, _, rfl⟩
    · split <;> exact ⟨_, _, _, rfl⟩

theorem fillBlock_eq {fuel : Nat} (fills : fillBlock fuel sq content = some (after, filled))
    (short : content.length ≤ MESSAGE_PAYLOAD_MAX) :
    filled.length ≤ MESSAGE_PAYLOAD_MAX ∧ ∃ pendingQueues readyBytes notifyQueue,
      after = { sq with pendingQueues, readyBytes, notifyQueue } := by
  induction fuel generalizing sq content with
  | zero => cases fills
  | succ fuel ih =>
    rw [fillBlock] at fills
    split at fills
    · cases fills
      exact ⟨short, _, _, _, rfl⟩
    · split at fills
      · cases fills
      · rename_i cq qm _
        split at fills
        · cases fills
          exact ⟨short, _, _, _, rfl⟩
        · rename_i fits
          have room : (content ++ qm.msg).length ≤ MESSAGE_PAYLOAD_MAX := by
            simp only [MESSAGE_HEADER_SIZE, MESSAGE_MAX, MESSAGE_TRAILER_SIZE] at fits
            simp only [length_append, MESSAGE_PAYLOAD_MAX, MESSAGE_MAX, MESSAGE_MIN]
            omega
          obtain ⟨bounded, _, _, _, rfl⟩ := ih fills room
          exact ⟨bounded, _, _, _, rfl⟩

theorem sendBlock_eq {time : SendTime} {block : Block}
    (sends : sendBlock sq time = some (after, block)) :
    needAck sq = false ∧ block.out = addFrame (sequenceByte sq.sendSeq) block.content ∧
      block.content.length ≤ MESSAGE_PAYLOAD_MAX ∧
      ∃ pendingQueues readyBytes upcomingBytes notifyQueue, after = { sq with
        pendingQueues, readyBytes, upcomingBytes, notifyQueue
        sendSeq := sq.sendSeq + 1
        needAckBytes := sq.needAckBytes + block.out.length
        sentQueue := sq.sentQueue ++ [block.out] } := by
  unfold sendBlock at sends
  split at sends
  · rename_i now
    obtain ⟨⟨_, content⟩, fills, result⟩ := map_eq_some_iff.mp sends
    cases result
    obtain ⟨short, _, _, _, rfl⟩ := fillBlock_eq fills (Nat.zero_le _)
    obtain ⟨_, _, _, same⟩ := checkSendCommand_eq sq time
    have ready : needAck sq = false := by
      by_contra waits
      rw [checkSendCommand, if_pos (Bool.eq_true_of_not_eq_false waits)] at now
      cases now
    rw [same]
    exact ⟨ready, rfl, short, _, _, _, _, rfl⟩
  · cases sends

theorem needAck_window (noDebug : sq.debugFile = false) (ready : needAck sq = false) :
    sq.sendSeq - sq.receiveSeq < MAX_PENDING_BLOCKS := by
  by_contra full
  simp [needAck, noDebug, Nat.not_lt.mp full] at ready

def bytesOf (blocks : List Bytes) : Int := (blocks.map (fun block => (block.length : Int))).sum

theorem removeSent_eq {rseq sentSeq : Nat} (after : sentSeq < rseq)
    (within : rseq ≤ sentSeq + sentQueue.length) (needAckBytes lastAckBytes : Int) :
    ∃ block, sentQueue[rseq - sentSeq - 1]? = some block ∧
      removeSent rseq sentSeq sentQueue needAckBytes lastAckBytes =
        (sentQueue.drop (rseq - sentSeq),
          needAckBytes - bytesOf (sentQueue.take (rseq - sentSeq)), (block.length : Int), false) := by
  induction sentQueue generalizing sentSeq needAckBytes lastAckBytes with
  | nil =>
    rw [length_nil] at within
    omega
  | cons sent sentQueue ih =>
    rw [length_cons] at within
    rw [removeSent]
    by_cases found : rseq = sentSeq + 1
    · rw [if_pos found, found, Nat.add_sub_cancel_left]
      exact ⟨sent, rfl, by simp [bytesOf]⟩
    · obtain ⟨count, isCount⟩ : ∃ count, rseq - sentSeq = count + 1 + 1 :=
        ⟨rseq - sentSeq - 2, by omega⟩
      obtain ⟨block, isBlock, removed⟩ := ih (show sentSeq + 1 < rseq by omega) (by omega)
        (needAckBytes - sent.length) lastAckBytes
      rw [show rseq - (sentSeq + 1) = count + 1 by omega] at isBlock removed
      rw [if_neg found, removed, isCount]
      refine ⟨block, isBlock, ?_⟩
      rw [drop_succ_cons, take_succ_cons, bytesOf, bytesOf, map_cons, sum_cons,
        Int.sub_sub]

theorem updateReceiveSeq_eq (newer : sq.receiveSeq < seq)
    (within : seq ≤ sq.receiveSeq + sq.sentQueue.length) :
    ∃ block, sq.sentQueue[seq - sq.receiveSeq - 1]? = some block ∧
      updateReceiveSeq sq seq = { sq with
        sentQueue := sq.sentQueue.drop (seq - sq.receiveSeq)
        needAckBytes := sq.needAckBytes - bytesOf (sq.sentQueue.take (seq - sq.receiveSeq))
        lastAckBytes := block.length
        receiveSeq := seq
        retransmitNow := false } := by
  obtain ⟨block, isBlock, removed⟩ := removeSent_eq newer within sq.needAckBytes sq.lastAckBytes
  refine ⟨block, isBlock, ?_⟩
  simp only [updateReceiveSeq, removed]
  rfl

theorem processMessage_eq (rseq : Nat) (frame : Bytes) (sq : Serialqueue) :
    ∃ lastAckSeq retransmitNow,
      (lastAckSeq = sq.lastAckSeq ∨ (frame.length = MESSAGE_MIN ∧ lastAckSeq = rseq)) ∧
      processMessage rseq frame sq = { sq with
        lastAckSeq, retransmitNow
        receiveQueue :=
          sq.receiveQueue ++ if frame.length = MESSAGE_MIN then [] else [.message frame] } := by
  unfold processMessage
  split
  · rename_i isAck
    rw [append_nil]
    split
    · exact ⟨_, _, .inr ⟨isAck, rfl⟩, rfl⟩
    · split <;> exact ⟨_, _, .inl rfl, rfl⟩
  · exact ⟨_, _, .inl rfl, rfl⟩

structure InWindow (sq : Serialqueue) (seq : Nat) : Prop where
  atLeast : sq.receiveSeq ≤ seq
  near : seq < sq.receiveSeq + 16
  sent : seq ≤ sq.sendSeq
  within : seq ≤ sq.receiveSeq + sq.sentQueue.length

/-- A frame that the micro-controller built, read by the host in sync. -/
theorem inputFrame_inSync (window : InWindow sq seq) (inSync : sq.needSync = false)
    (short : content.length ≤ MESSAGE_PAYLOAD_MAX) :
    inputFrame sq (addFrame (sequenceByte seq) content) =
      processMessage seq (addFrame (sequenceByte seq) content) (notifyAcknowledged
        (unsignedSeq (wakeSeq seq (addFrame (sequenceByte seq) content)))
        (if seq ≠ sq.receiveSeq then updateReceiveSeq sq seq else sq)) := by
  obtain ⟨atLeast, near, sent, -⟩ := window
  have number : frameSeq sq (addFrame (sequenceByte seq) content) = seq := by
    change SequenceNumber.resolve 16 sq.receiveSeq ((sequenceByte seq).toNat % 16) = seq
    rw [(sequenceByte_facts seq).2.1]
    exact SequenceNumber.resolve_mod atLeast near
  have recognised := msgblockCheck_addFrame short (sequenceByte_facts seq).1 []
  rw [append_nil] at recognised
  unfold inputFrame
  rw [inSync, recognised]
  simp only [Int.toNat_natCast, take_length, ← inSync]
  rw [if_pos (by rw [addFrame_length, MESSAGE_MIN]; omega), handleMessage]
  simp only [number]
  exact if_neg (fun invalid => by omega)

/-- Everything before `seq` leaves the sent queue. -/
theorem inputFrame_eq (window : InWindow sq seq) (inSync : sq.needSync = false)
    (short : content.length ≤ MESSAGE_PAYLOAD_MAX) :
    ∃ lastAckSeq lastAckBytes retransmitNow notifyQueue receiveQueue,
      (lastAckSeq = sq.lastAckSeq ∨
        ((addFrame (sequenceByte seq) content).length = MESSAGE_MIN ∧ lastAckSeq = seq)) ∧
      ((seq = sq.receiveSeq ∧ lastAckBytes = sq.lastAckBytes) ∨ (sq.receiveSeq < seq ∧
        ∃ block, sq.sentQueue[seq - sq.receiveSeq - 1]? = some block ∧ lastAckBytes = block.length)) ∧
      inputFrame sq (addFrame (sequenceByte seq) content) = { sq with
        sentQueue := sq.sentQueue.drop (seq - sq.receiveSeq)
        needAckBytes := sq.needAckBytes - bytesOf (sq.sentQueue.take (seq - sq.receiveSeq))
        receiveSeq := seq
        lastAckSeq, lastAckBytes, retransmitNow, notifyQueue, receiveQueue } := by
  have atLeast := window.atLeast
  rw [inputFrame_inSync window inSync short]
  generalize unsignedSeq (Serial.wakeSeq seq (addFrame (sequenceByte seq) content)) = wakeSeq
  by_cases same : seq = sq.receiveSeq
  · subst same
    rw [if_neg (not_not.mpr rfl), Nat.sub_self, drop_zero, take_zero,
      show bytesOf [] = 0 from rfl, Int.sub_zero]
    obtain ⟨_, _, acked, processed⟩ := processMessage_eq sq.receiveSeq
      (addFrame (sequenceByte sq.receiveSeq) content) (notifyAcknowledged wakeSeq sq)
    exact ⟨_, _, _, _, _, acked, .inl ⟨rfl, rfl⟩, processed⟩
  · rw [if_pos same]
    obtain ⟨block, isBlock, updated⟩ := updateReceiveSeq_eq (by omega) window.within
    obtain ⟨_, _, acked, processed⟩ := processMessage_eq seq (addFrame (sequenceByte seq) content)
      (notifyAcknowledged wakeSeq (updateReceiveSeq sq seq))
    rw [updated] at acked processed ⊢
    exact ⟨_, _, _, _, _, acked, .inr ⟨by omega, block, isBlock, rfl⟩, processed⟩

/-- Out of sync the host skips it. -/
theorem inputFrame_outOfSync (outOfSync : sq.needSync = true) (frame : Bytes) :
    ∃ needSync, inputFrame sq frame = { sq with needSync } := by
  have skipped := msgblockCheck_outOfSync frame
  unfold inputFrame
  rw [outOfSync]
  simp only
  rw [if_neg (by omega)]
  exact ⟨_, rfl⟩

end Host

/-! ### The invariant -/

/-- The frames of all built blocks; the first has the number `start`. -/
def frames (start : Nat) (built : List Bytes) : List Bytes :=
  built.mapIdx (fun i content => addFrame (sequenceByte (start + i)) content)

def IsReply (seq : Nat) (bytes : Bytes) : Prop :=
  ∃ content : Bytes, content.length ≤ MESSAGE_PAYLOAD_MAX ∧
    bytes = addFrame (sequenceByte seq) content

/-- What holds in every state of the link, if the first block built has the
number `start`. -/
structure Inv (start : Nat) (s : Link) : Prop where
  noDebug : s.host.debugFile = false
  started : start ≤ s.host.receiveSeq
  received : s.host.receiveSeq ≤ s.expected
  sent : s.expected ≤ s.host.sendSeq
  window : s.host.sendSeq ≤ s.host.receiveSeq + MAX_PENDING_BLOCKS
  count : s.host.sendSeq = start + s.built.length
  short : ∀ content ∈ s.built, content.length ≤ MESSAGE_PAYLOAD_MAX
  sentQueue : s.host.sentQueue = (frames start s.built).drop (s.host.receiveSeq - start)
  dispatched : s.dispatched = s.built.take (s.expected - start)
  nextSequence : s.mcu.nextSequence = sequenceByte s.expected
  toMcu : ∀ frame ∈ s.toMcu, start ≤ frame.seq ∧ frame.seq < s.host.sendSeq ∧
    s.expected ≤ frame.seq + MAX_PENDING_BLOCKS ∧
    ∀ bytes ∈ frame.bytes, (frames start s.built)[frame.seq - start]? = some bytes
  toMcuOrder : s.toMcu.Pairwise (fun ahead behind => ahead.seq < behind.seq + MAX_PENDING_BLOCKS)
  toHost : ∀ frame ∈ s.toHost, s.host.receiveSeq ≤ frame.seq ∧ frame.seq ≤ s.expected ∧
    ∀ bytes ∈ frame.bytes, IsReply frame.seq bytes
  toHostOrder : s.toHost.Pairwise (fun ahead behind => ahead.seq ≤ behind.seq)

theorem inv_of_synchronised (synchronised : Synchronised s) :
    Inv s.host.sendSeq s := by
  obtain ⟨noDebug, sent, equal, started, nextSequence, toMcu, toHost, built, dispatched,
    expected⟩ := synchronised
  refine ⟨noDebug, equal.ge, expected.ge, ?_, ?_, ?_, ?_, ?_, ?_, ?_, ?_, ?_, ?_, ?_⟩
  · rw [expected, equal]
  · rw [equal]
    exact Nat.le_add_right _ _
  · rw [built]
    rfl
  · rw [built]
    intro content member
    cases member
  · rw [built, sent]
    simp [frames]
  · rw [built, dispatched, take_nil]
  · rw [nextSequence, expected]
  · rw [toMcu]
    intro frame member
    cases member
  · rw [toMcu]
    exact .nil
  · rw [toHost]
    intro frame member
    cases member
  · rw [toHost]
    exact .nil

@[simp] theorem frames_length (start : Nat) (built : List Bytes) :
    (frames start built).length = built.length := List.length_mapIdx

theorem frames_append (start : Nat) (built : List Bytes) (content : Bytes) :
    frames start (built ++ [content]) =
      frames start built ++ [addFrame (sequenceByte (start + built.length)) content] := by
  simp [frames, mapIdx_append]

theorem frames_getElem? (start : Nat) (built : List Bytes) (i : Nat) :
    (frames start built)[i]? = built[i]?.map (addFrame (sequenceByte (start + i))) :=
  getElem?_mapIdx

section Steps

variable {start : Nat}

/-! ### Steps of the host -/

/-- Frames that the host sends are blocks from `receive_seq` on, so that no frame
in the channel is twelve or more ahead of them. -/
theorem Inv.extendToMcu (inv : Inv start s) {added : List Frame}
    (blocks : ∀ frame ∈ added, s.host.receiveSeq ≤ frame.seq ∧ frame.seq < s.host.sendSeq ∧
      ∀ bytes ∈ frame.bytes, (frames start s.built)[frame.seq - start]? = some bytes)
    (order : added.Pairwise (fun ahead behind => ahead.seq < behind.seq + MAX_PENDING_BLOCKS)) :
    Inv start { s with toMcu := s.toMcu ++ added } := by
  have window := inv.window
  refine { inv with toMcu := ?_, toMcuOrder := ?_ }
  · refine forall_mem_append.mpr ⟨inv.toMcu, fun frame new => ?_⟩
    obtain ⟨atLeast, below, content⟩ := blocks frame new
    have sent := inv.sent
    have near : s.expected ≤ frame.seq + MAX_PENDING_BLOCKS := by omega
    exact ⟨inv.started.trans atLeast, below, near, content⟩
  · apply pairwise_append.mpr ⟨inv.toMcuOrder, order, ?_⟩
    intro ahead inFront behind inBack
    have bound := (inv.toMcu ahead inFront).2.1
    have atLeast := (blocks behind inBack).1
    omega

variable {frame : Frame} {after : Link} {left sent : List Frame} {bytes : Bytes}

theorem mem_resent {seq : Nat} (member : frame ∈ resent seq sentQueue) :
    ∃ i < sentQueue.length, frame.seq = seq + i ∧ frame.bytes = sentQueue[i]? := by
  induction sentQueue generalizing seq with
  | nil => cases member
  | cons sent sentQueue ih =>
    rcases mem_cons.mp member with rfl | later
    · exact ⟨0, Nat.succ_pos _, rfl, rfl⟩
    · obtain ⟨i, inside, number, bytes⟩ := ih later
      refine ⟨i + 1, Nat.succ_lt_succ inside, ?_, bytes⟩
      omega

theorem resent_pairwise (seq : Nat) (sentQueue : List Bytes) :
    (resent seq sentQueue).Pairwise
      (fun ahead behind => ahead.seq < behind.seq + MAX_PENDING_BLOCKS) := by
  induction sentQueue generalizing seq with
  | nil => exact .nil
  | cons sent sentQueue ih =>
    apply Pairwise.cons
    · intro behind member
      obtain ⟨i, -, number, -⟩ := mem_resent member
      change seq < behind.seq + MAX_PENDING_BLOCKS
      omega
    · exact ih (seq + 1)

theorem Inv.sentQueue_length (inv : Inv start s) :
    s.host.receiveSeq + s.host.sentQueue.length = s.host.sendSeq := by
  have started := inv.started
  have received := inv.received
  have sent := inv.sent
  have count := inv.count
  rw [inv.sentQueue, length_drop, frames_length]
  omega

theorem Inv.retransmit (inv : Inv start s) : Inv start s.retransmit := by
  have length := inv.sentQueue_length
  have started := inv.started
  have extended : Inv start
      { s with toMcu := s.toMcu ++ resent s.host.receiveSeq s.host.sentQueue } := by
    apply inv.extendToMcu
    · intro frame member
      obtain ⟨i, inside, number, sent⟩ := mem_resent member
      refine ⟨by omega, by omega, ?_⟩
      intro bytes isBytes
      rw [sent, inv.sentQueue, getElem?_drop] at isBytes
      rw [number, show s.host.receiveSeq + i - start = s.host.receiveSeq - start + i by omega]
      exact isBytes
    · exact resent_pairwise _ _
  exact { extended with }

theorem Inv.sendBlock (inv : Inv start s) {time : SendTime}
    (sends : s.sendBlock time = some after) : Inv start after := by
  obtain ⟨⟨host, block⟩, sent, rfl⟩ := map_eq_some_iff.mp sends
  obtain ⟨ready, out, short, _, _, _, _, same⟩ := sendBlock_eq sent
  have window := needAck_window inv.noDebug ready
  have count := inv.count
  have received := inv.received
  have below := inv.sent
  have appended := frames_append start s.built block.content
  rw [← count, ← out] at appended
  -- The block is added to `built` first; nothing in the channels changes its meaning.
  have grown : Inv start { s with host, built := s.built ++ [block.content] } := by
    rw [same]
    refine { inv with
      sent := below.trans (Nat.le_succ _)
      window := ?_
      count := ?_
      short := ?_
      sentQueue := ?_
      dispatched := ?_
      toMcu := ?_ }
    · simp only
      omega
    · rw [length_append, length_singleton]
      simp only
      omega
    · exact forall_mem_append.mpr ⟨inv.short, forall_mem_singleton.mpr short⟩
    · rw [appended, drop_append_of_le_length, inv.sentQueue]
      rw [frames_length]
      simp only
      omega
    · rw [take_append_of_le_length, inv.dispatched]
      simp only
      omega
    · intro frame member
      obtain ⟨atLeast, number, near, content⟩ := inv.toMcu frame member
      refine ⟨atLeast, number.trans (Nat.lt_succ_self _), near, ?_⟩
      intro bytes isBytes
      rw [appended, getElem?_append_left]
      · exact content bytes isBytes
      · rw [frames_length]
        omega
  subst same
  apply grown.extendToMcu
  · refine forall_mem_singleton.mpr ⟨received.trans below, Nat.lt_succ_self _, ?_⟩
    intro bytes isBytes
    rw [appended, count, Nat.add_sub_cancel_left, ← frames_length start s.built,
      getElem?_concat_length]
    exact isBytes
  · exact pairwise_singleton _ _

/-! ### Steps of the channels -/

theorem Inv.subToMcu (inv : Inv start s) (fewer : left.Sublist s.toMcu) :
    Inv start { s with toMcu := left } :=
  { inv with
    toMcu := fun frame member => inv.toMcu frame (fewer.subset member)
    toMcuOrder := inv.toMcuOrder.sublist fewer }

theorem Inv.subToHost (inv : Inv start s) (fewer : left.Sublist s.toHost) :
    Inv start { s with toHost := left } :=
  { inv with
    toHost := fun frame member => inv.toHost frame (fewer.subset member)
    toHostOrder := inv.toHostOrder.sublist fewer }

section Modify

variable {α : Type} {list : List α} {change : α → α} {position : Nat}

/-- What is known of all entries is known after a change that keeps it. -/
theorem forall_mem_modify {known : α → Prop} (kept : ∀ entry, known entry → known (change entry))
    (sound : ∀ entry ∈ list, known entry) : ∀ entry ∈ list.modify position change, known entry := by
  induction list generalizing position with
  | nil => cases position <;> exact sound
  | cons first list ih =>
    obtain ⟨isFirst, rest⟩ := forall_mem_cons.mp sound
    cases position with
    | zero => exact forall_mem_cons.mpr ⟨kept first isFirst, rest⟩
    | succ position => exact forall_mem_cons.mpr ⟨isFirst, ih rest⟩

theorem pairwise_modify {relation : α → α → Prop}
    (ahead : ∀ first second, relation first second → relation (change first) second)
    (behind : ∀ first second, relation first second → relation first (change second))
    (order : list.Pairwise relation) : (list.modify position change).Pairwise relation := by
  induction order generalizing position with
  | nil => cases position <;> exact .nil
  | @cons first list before order ih =>
    cases position with
    | zero => exact .cons (fun second member => ahead first second (before second member)) order
    | succ position => exact .cons (forall_mem_modify (behind first) before) ih

end Modify

theorem Inv.damageToMcu (inv : Inv start s) (position : Nat) :
    Inv start { s with toMcu := damage position s.toMcu } :=
  { inv with
    toMcu := forall_mem_modify (fun _ ⟨atLeast, below, near, _⟩ => ⟨atLeast, below, near, nofun⟩) inv.toMcu
    toMcuOrder := pairwise_modify (fun _ _ same => same) (fun _ _ same => same) inv.toMcuOrder }

theorem Inv.damageToHost (inv : Inv start s) (position : Nat) :
    Inv start { s with toHost := damage position s.toHost } :=
  { inv with
    toHost := forall_mem_modify (fun _ ⟨atLeast, below, _⟩ => ⟨atLeast, below, nofun⟩) inv.toHost
    toHostOrder := pairwise_modify (fun _ _ same => same) (fun _ _ same => same) inv.toHostOrder }

/-! ### Steps that read a frame -/

theorem Inv.reply (inv : Inv start s) (member : frame ∈ s.toHost)
    (isBytes : frame.bytes = some bytes) : InWindow s.host frame.seq ∧ IsReply frame.seq bytes := by
  obtain ⟨atLeast, below, reply⟩ := inv.toHost frame member
  have length := inv.sentQueue_length
  have sent := inv.sent
  have window := inv.window
  rw [MAX_PENDING_BLOCKS] at window
  exact ⟨⟨atLeast, by omega, by omega, by omega⟩, reply bytes isBytes⟩

theorem Inv.hostReceive (inv : Inv start s) {needSync : Bool}
    (reads : s.hostReceive needSync = some after) : Inv start after := by
  unfold Link.hostReceive at reads
  split at reads
  · cases reads
  · rename_i frame toHost channel
    cases reads
    have rest : Inv start { s with toHost } :=
      inv.subToHost (channel ▸ sublist_cons_self _ _)
    cases bytesCase : frame.bytes with
    | none => exact { rest with }
    | some bytes =>
      have member : frame ∈ s.toHost := channel ▸ .head _
      obtain ⟨window, content, short, rfl⟩ := inv.reply member bytesCase
      dsimp only
      cases needSync : s.host.needSync with
      | true =>
        obtain ⟨_, skipped⟩ := inputFrame_outOfSync needSync
          (addFrame (sequenceByte frame.seq) content)
        rw [skipped]
        exact { rest with }
      | false =>
        obtain ⟨_, _, _, _, _, -, -, acknowledged⟩ := inputFrame_eq window needSync short
        have started := inv.started
        have blocks := inv.window
        have atLeast := window.atLeast
        have order := inv.toHostOrder
        rw [channel] at order
        rw [acknowledged]
        refine { rest with
          started := started.trans atLeast
          received := (inv.toHost frame member).2.1
          window := blocks.trans (Nat.add_le_add_right atLeast _)
          sentQueue := ?_
          toHost := ?_ }
        · rw [inv.sentQueue, drop_drop]
          exact congrArg (fun dropped => (frames start s.built).drop dropped) (by
            simp only
            omega)
        · intro other later
          exact ⟨(pairwise_cons.mp order).1 other later, (rest.toHost other later).2⟩

/-- Replies carry the number that the micro-controller expects. -/
theorem Inv.extendToHost (inv : Inv start s) (contents : List Bytes) :
    Inv start { s with
      toHost := s.toHost ++ contents.map (Link.reply s.mcu.nextSequence s.expected) } := by
  have added : ∀ frame ∈ contents.map (Link.reply s.mcu.nextSequence s.expected),
      frame.seq = s.expected ∧ ∀ bytes ∈ frame.bytes, IsReply frame.seq bytes := by
    intro frame member
    obtain ⟨content, -, rfl⟩ := mem_map.mp member
    refine ⟨rfl, ?_⟩
    intro bytes isBytes
    refine ⟨content.take MESSAGE_PAYLOAD_MAX, length_take_le _ _, ?_⟩
    rw [← some.inj isBytes, inv.nextSequence]
    rfl
  refine { inv with toHost := ?_, toHostOrder := ?_ }
  · refine forall_mem_append.mpr ⟨inv.toHost, fun frame new => ?_⟩
    obtain ⟨number, reply⟩ := added frame new
    exact ⟨number ▸ inv.received, number.le, reply⟩
  · refine pairwise_append.mpr ⟨inv.toHostOrder, ?_, ?_⟩
    · apply pairwise_of_forall_mem_list
      intro ahead inFront behind inBack
      rw [(added ahead inFront).1, (added behind inBack).1]
    · intro ahead inFront behind inBack
      rw [(added behind inBack).1]
      exact (inv.toHost ahead inFront).2.1

/-- The micro-controller accepts a frame only if its four bits are those of the
block expected next; otherwise its sequence stays. -/
theorem commandFindBlock_frame {content : Bytes} (short : content.length ≤ MESSAGE_PAYLOAD_MAX)
    (syncState : SyncState) (seq expected : Nat) :
    let found := commandFindBlock syncState (sequenceByte expected)
      (addFrame (sequenceByte seq) content)
    (found.ret = 1 ∧ seq % 16 = expected % 16 ∧
        found.popCount = (addFrame (sequenceByte seq) content).length ∧
        found.nextSequence = sequenceByte (expected + 1)) ∨
      (found.ret = -1 ∧ found.nextSequence = sequenceByte expected) := by
  obtain ⟨needSync, needValid⟩ := syncState
  cases needSync with
  | true =>
    right
    apply commandFindBlock_outOfSync
    rw [addFrame_length]
    exact Nat.succ_ne_zero _
  | false =>
    have found := @commandFindBlock_addFrame _ _ (sequenceByte expected) short
      (sequenceByte_facts seq).1 needValid []
    rw [append_nil] at found
    rw [found]
    by_cases same : sequenceByte seq = sequenceByte expected
    · left
      rw [if_neg (not_not.mpr same), same, (sequenceByte_facts expected).2.2]
      exact ⟨rfl, (sequenceByte_eq_iff _ _).mp same, rfl, rfl⟩
    · right
      rw [if_pos same]
      exact ⟨rfl, rfl⟩

theorem addFrame_content (sequence : UInt8) (content : Bytes) :
    ((addFrame sequence content).take
      ((addFrame sequence content).length - MESSAGE_TRAILER_SIZE)).drop MESSAGE_HEADER_SIZE =
      content := by
  have head : (addFrame sequence content).length - MESSAGE_TRAILER_SIZE =
      (blockHead sequence content).length := by
    rw [addFrame_length]
    exact Nat.add_sub_cancel _ 2
  rw [head, addFrame, take_left]
  rfl

variable (inv : Inv start s)
include inv

theorem Inv.block_of_bytes {seq : Nat} (member : ⟨some bytes, seq⟩ ∈ s.toMcu) :
    ∃ content, s.built[seq - start]? = some content ∧
      addFrame (sequenceByte seq) content = bytes := by
  obtain ⟨atLeast, -, -, isFrame⟩ := inv.toMcu _ member
  have block := isFrame bytes rfl
  rw [frames_getElem?, map_eq_some_iff] at block
  change start ≤ seq at atLeast
  rwa [show start + (seq - start) = seq by omega] at block

/-- The frame that is read first is the block `expected` itself when its four
bits are. -/
theorem Inv.eq_expected (member : frame ∈ s.toMcu) (same : frame.seq % 16 = s.expected % 16) :
    frame.seq = s.expected := by
  obtain ⟨atLeast, below, near, -⟩ := inv.toMcu frame member
  have received := inv.received
  have window := inv.window
  rw [MAX_PENDING_BLOCKS] at near window
  exact SequenceNumber.eq_of_mod_eq same (by omega) (by omega)

theorem Inv.accept {toMcu : List Frame} {content : Bytes} (channel : s.toMcu = frame :: toMcu)
    (number : frame.seq = s.expected) (isBlock : s.built[s.expected - start]? = some content)
    (syncState : SyncState) :
    Inv start { s with
      mcu := ⟨syncState, sequenceByte (s.expected + 1)⟩
      toMcu
      dispatched := s.dispatched ++ [content]
      expected := s.expected + 1 } := by
  have started := inv.started
  have received := inv.received
  have order := inv.toMcuOrder
  rw [channel] at order
  obtain ⟨behind, orderRest⟩ := pairwise_cons.mp order
  have below := (inv.toMcu frame (channel ▸ .head _)).2.1
  refine { inv with
    received := received.trans (Nat.le_succ _)
    sent := ?_
    dispatched := ?_
    nextSequence := rfl
    toMcu := ?_
    toMcuOrder := orderRest
    toHost := ?_ }
  · change s.expected + 1 ≤ s.host.sendSeq
    omega
  · change s.dispatched ++ [content] = s.built.take (s.expected + 1 - start)
    rw [inv.dispatched, show s.expected + 1 - start = s.expected - start + 1 by omega,
      take_add_one, isBlock]
    rfl
  · intro other member
    obtain ⟨atLeast, sent, -, bytes⟩ :=
      inv.toMcu other (channel ▸ .tail _ member)
    have ahead := behind other member
    refine ⟨atLeast, sent, ?_, bytes⟩
    change s.expected + 1 ≤ other.seq + MAX_PENDING_BLOCKS
    omega
  · intro other member
    obtain ⟨atLeast, reply, bytes⟩ := inv.toHost other member
    exact ⟨atLeast, reply.trans (Nat.le_succ _), bytes⟩

theorem Inv.reject {toMcu : List Frame} (channel : s.toMcu = frame :: toMcu)
    (syncState : SyncState) (nak : Bool) :
    Inv start { s with
      mcu := ⟨syncState, sequenceByte s.expected⟩
      toMcu
      toHost := s.toHost ++
        if nak then [Link.reply (sequenceByte s.expected) s.expected []] else [] } := by
  have rest : Inv start { s with toMcu } :=
    inv.subToMcu (channel ▸ sublist_cons_self _ _)
  have same : Inv start { s with mcu := ⟨syncState, sequenceByte s.expected⟩, toMcu } :=
    { rest with nextSequence := rfl }
  cases nak with
  | false => exact same.extendToHost []
  | true => exact same.extendToHost [[]]

theorem Inv.mcuReceive {damaged : SyncState} {nakDamaged : Bool} {responses : List Bytes}
    (reads : s.mcuReceive damaged nakDamaged responses = some after) : Inv start after := by
  unfold Link.mcuReceive at reads
  split at reads
  · cases reads
  · rename_i seq toMcu channel
    have rejected := inv.reject channel damaged nakDamaged
    rw [← inv.nextSequence] at rejected
    cases reads
    exact rejected
  · rename_i bytes seq toMcu channel
    have member : (⟨some bytes, seq⟩ : Frame) ∈ s.toMcu := channel ▸ .head _
    obtain ⟨content, isBlock, rfl⟩ := inv.block_of_bytes member
    have short := inv.short content (mem_of_getElem? isBlock)
    rw [inv.nextSequence] at reads
    rcases commandFindBlock_frame short s.mcu.syncState seq s.expected with
      ⟨ret, same, popCount, nextSequence⟩ | ⟨ret, nextSequence⟩
    · simp only [ret, popCount, nextSequence] at reads
      rw [if_pos (by decide), addFrame_content] at reads
      cases reads
      have number : seq = s.expected := inv.eq_expected member same
      have accepted := inv.accept channel number (number ▸ isBlock)
        (commandFindBlock s.mcu.syncState (sequenceByte s.expected)
          (addFrame (sequenceByte seq) content)).syncState
      exact accepted.extendToHost (responses ++ [[]])
    · simp only [ret, nextSequence] at reads
      cases reads
      exact inv.reject channel _ _

theorem Inv.step {action : Action} (steps : s.step action = some after) : Inv start after := by
  cases action with
  | queueMessages cq msgs =>
    cases steps
    obtain ⟨_, _, same⟩ := serialqueueSendBatch_eq s.host cq msgs
    rw [same]
    exact { inv with }
  | sendBlock time => exact inv.sendBlock steps
  | retransmit =>
    cases steps
    exact inv.retransmit
  | hostReceive needSync => exact inv.hostReceive steps
  | mcuReceive damaged nakDamaged responses => exact inv.mcuReceive steps
  | mcuRespond content =>
    cases steps
    exact inv.extendToHost [content]
  | loseToMcu position =>
    cases steps
    exact inv.subToMcu (eraseIdx_sublist _ _)
  | loseToHost position =>
    cases steps
    exact inv.subToHost (eraseIdx_sublist _ _)
  | damageToMcu position =>
    cases steps
    exact inv.damageToMcu position
  | damageToHost position =>
    cases steps
    exact inv.damageToHost position

end Steps

/-! ### Delivery -/

theorem inv_of_reachable {s₀ : Link} (synchronised : Synchronised s₀)
    (reached : Reachable (fun s => s = s₀) Link.step s) : Inv s₀.host.sendSeq s := by
  apply reached.induct_invariant
  · rintro _ rfl -
    exact inv_of_synchronised synchronised
  · intro state action after _ _ steps inv
    exact inv.step steps

theorem Inv.dispatched_length {start : Nat} (inv : Inv start s) :
    s.expected = start + s.dispatched.length := by
  have started := inv.started
  have received := inv.received
  have sent := inv.sent
  have count := inv.count
  rw [inv.dispatched, length_take]
  omega

/-- **Exactly-once, in-order delivery.** From any synchronised state and for any
interleaving of sends, losses, damage, naks and retransmissions, the blocks
dispatched are a prefix of the blocks built. The number of the next one lies
between `receive_seq` and `send_seq` and is the one on the wire. `sent_queue`
holds every built block from `receive_seq` on, so only dispatched ones left it. -/
theorem blocks_delivered_exactly_once {s₀ s : Link} (synchronised : Synchronised s₀)
    (reached : Reachable (fun s => s = s₀) Link.step s) :
    s.dispatched <+: s.built ∧ s.expected = s₀.host.sendSeq + s.dispatched.length ∧
      s.host.sendSeq = s₀.host.sendSeq + s.built.length ∧
      s.mcu.nextSequence = sequenceByte s.expected ∧
      s.host.receiveSeq ≤ s.expected ∧ s.expected ≤ s.host.sendSeq ∧
      s₀.host.sendSeq ≤ s.host.receiveSeq ∧
      s.host.sentQueue =
        (frames s₀.host.sendSeq s.built).drop (s.host.receiveSeq - s₀.host.sendSeq) := by
  have inv := inv_of_reachable synchronised reached
  refine ⟨?_, inv.dispatched_length, inv.count, inv.nextSequence, inv.received, inv.sent,
    inv.started, inv.sentQueue⟩
  rw [inv.dispatched]
  exact take_prefix _ _

def connected : Link where
  host :=
    { debugFile := false, needSync := false, receiveWindow := 0, sendSeq := 2, receiveSeq := 2
      ignoreNakSeq := 0, lastAckSeq := 2, retransmitSeq := 0, sentQueue := [], pendingQueues := []
      readyBytes := 0, upcomingBytes := 0, needAckBytes := 0, lastAckBytes := 0, notifyQueue := []
      receiveQueue := [], retransmitNow := false }
  mcu := ⟨⟨false, false⟩, 0x12⟩
  toMcu := []
  toHost := []
  built := []
  dispatched := []
  expected := 2

/-- Two blocks are sent and the first is lost, so that the second is nakked. Both
are sent again, and a damaged ack leaves the first on `sent_queue` until the
second is acknowledged. -/
theorem blocks_delivered_exactly_once_resent :
    Synchronised connected ∧ ∃ s : Link, s.dispatched = [[5, 1], [6]] ∧ s.host.sentQueue = [] ∧
      s.dispatched <+: s.built := by
  let time : SendTime := ⟨100, none, 0⟩
  let actions : List Action :=
    [.queueMessages 0 [⟨[5, 1], 0, 0, 0⟩], .sendBlock time, .queueMessages 0 [⟨[6], 0, 0, 0⟩],
      .sendBlock time, .loseToMcu 0, .mcuReceive ⟨false, false⟩ false [], .hostReceive false,
      .retransmit, .mcuReceive ⟨false, false⟩ false [], .mcuReceive ⟨false, false⟩ false [],
      .damageToHost 0, .hostReceive false, .hostReceive false]
  have result : (run Link.step (fun _ => True) connected actions).map
      (fun s => (s.dispatched, s.host.sentQueue)) = some ([[5, 1], [6]], []) := by
    decide +kernel
  have synchronised : Synchronised connected :=
    ⟨rfl, rfl, rfl, le_rfl, by decide, rfl, rfl, rfl, rfl, rfl⟩
  obtain ⟨s, executes, contents⟩ := map_eq_some_iff.mp result
  obtain ⟨dispatched, sentQueue⟩ := Prod.mk.inj contents
  exact ⟨synchronised, s, dispatched, sentQueue, (blocks_delivered_exactly_once synchronised
      (.of_run (fun inside => .initial rfl inside) executes)).1⟩

end MagnetoX.Serial
