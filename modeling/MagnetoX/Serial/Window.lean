import MagnetoX.Serial.Console

/-!
Owns flow control by `receive_window`. The host counts the bytes of the blocks on
`sent_queue`, and a frame other than an ack takes a block off this queue while the
micro-controller may still dispatch it. There is at most one such block, the one
before `receive_seq`, and `last_ack_bytes` is its length as long as no ack has
confirmed it.
-/

namespace MagnetoX.Serial

open Message Library.Run List Option

/-- The bytes of the last block taken off the sent queue, if only data has
acknowledged it. -/
def Serialqueue.unconfirmed (sq : Serialqueue) : Int :=
  if sq.lastAckSeq < sq.receiveSeq then sq.lastAckBytes else 0

/-- Behind another block a block is sent only when the window has room for it. -/
theorem needAck_room {sq : Serialqueue} (ready : needAck sq = false)
    (pending : sq.receiveSeq < sq.sendSeq) (limited : sq.receiveWindow ≠ 0) :
    sq.needAckBytes + MESSAGE_MAX + sq.unconfirmed ≤ sq.receiveWindow := by
  rw [needAck, Bool.or_eq_false_iff, Bool.and_eq_false_iff, Bool.and_eq_false_iff] at ready
  rcases ready.2 with idle | room
  · exact absurd ⟨pending, limited⟩ (of_decide_eq_false idle)
  · exact Int.not_lt.mp (of_decide_eq_false room)

/-! ### The invariant -/

/-- What holds in every state of a console, if the first block built has the
number `start` and the buffer has `size` bytes. -/
structure Accounted (start size : Nat) (c : Console) : Prop where
  inv : Inv start (c.link start)
  hostInSync : c.host.needSync = false
  mcuInSync : c.mcu.syncState.needSync = false
  bytes : c.receiveBuf ++ c.line = (c.unpopped start).flatten
  running : ∀ popCount ∈ c.dispatching, start < c.expected ∧
    ∃ block, (frames start c.built)[c.expected - 1 - start]? = some block ∧
      block.length = popCount ∧ popCount ≤ c.receiveBuf.length
  acks : ∀ frame ∈ c.toHost, ∀ bytes ∈ frame.bytes, bytes.length = MESSAGE_MIN →
    frame.seq ≤ c.popped
  lastAckSeq : c.host.lastAckSeq ≤ c.popped
  needAckBytes : c.host.needAckBytes = bytesOf c.host.sentQueue
  lastAckBytes : 0 ≤ c.host.lastAckBytes ∧ (start < c.host.receiveSeq →
    ∃ block, (frames start c.built)[c.host.receiveSeq - 1 - start]? = some block ∧
      c.host.lastAckBytes = block.length)
  isSize : c.size = size
  receiveWindow : c.host.receiveWindow = size
  fits : bytesOf (c.unpopped start) ≤ size
  discarded : c.discarded = []

theorem bytesOf_append (first second : List Bytes) :
    bytesOf (first ++ second) = bytesOf first + bytesOf second := by
  rw [bytesOf, map_append, sum_append]
  rfl

theorem bytesOf_cons (first : Bytes) (rest : List Bytes) :
    bytesOf (first :: rest) = first.length + bytesOf rest := by
  rw [bytesOf, map_cons, sum_cons]
  rfl

theorem bytesOf_eq (blocks : List Bytes) : bytesOf blocks = blocks.flatten.length := by
  induction blocks with
  | nil => rfl
  | cons first rest ih =>
    rw [bytesOf_cons, ih, flatten_cons, length_append]
    omega

theorem bytesOf_drop_le (blocks : List Bytes) (count : Nat) :
    bytesOf (blocks.drop count) ≤ bytesOf blocks := by
  have both := bytesOf_append (blocks.take count) (blocks.drop count)
  have nonnegative := bytesOf_eq (blocks.take count)
  rw [take_append_drop] at both
  omega

theorem drop_of_getElem? {blocks : List Bytes} {i : Nat} {block : Bytes}
    (isBlock : blocks[i]? = some block) : blocks.drop i = block :: blocks.drop (i + 1) := by
  rw [drop_eq_getElem?_toList_append, isBlock]
  rfl

section Bounds

variable {start size : Nat} {c : Console}

section

variable (accounted : Accounted start size c)
include accounted

theorem Accounted.length_le {i : Nat} {block : Bytes}
    (isBlock : (frames start c.built)[i]? = some block) : block.length ≤ MESSAGE_MAX := by
  rw [frames_getElem?, map_eq_some_iff] at isBlock
  obtain ⟨content, isContent, rfl⟩ := isBlock
  rw [addFrame_length]
  exact frame_le_max (accounted.inv.short content (mem_of_getElem? isContent))

theorem Accounted.started : start ≤ c.host.receiveSeq :=
  accounted.inv.started

theorem Accounted.received : c.host.receiveSeq ≤ c.expected :=
  accounted.inv.received

theorem Accounted.sentQueue :
    c.host.sentQueue = (frames start c.built).drop (c.host.receiveSeq - start) :=
  accounted.inv.sentQueue

theorem Accounted.start_le : start ≤ c.popped := by
  have started := accounted.started
  have received := accounted.received
  unfold Console.popped
  split
  · rename_i busy
    obtain ⟨popCount, isCount⟩ := isSome_iff_exists.mp busy
    have later := (accounted.running popCount isCount).1
    omega
  · exact started.trans received

end

theorem Console.expected_le (c : Console) : c.popped ≤ c.expected ∧ c.expected ≤ c.popped + 1 := by
  unfold Console.popped
  split
  · omega
  · omega

/-- The blocks not popped are those on the sent queue, or fewer, or one block
more, the last that was taken off. -/
theorem Accounted.unpopped_cases (accounted : Accounted start size c) :
    bytesOf (c.unpopped start) ≤ c.host.needAckBytes ∨
      (c.host.lastAckSeq < c.host.receiveSeq ∧ c.host.lastAckBytes ≤ MESSAGE_MAX ∧
        bytesOf (c.unpopped start) = c.host.lastAckBytes + c.host.needAckBytes) := by
  have startLe := accounted.start_le
  have near := c.expected_le
  have started := accounted.started
  have received := accounted.received
  rw [accounted.needAckBytes, accounted.sentQueue, Console.unpopped]
  by_cases early : c.host.receiveSeq ≤ c.popped
  · left
    have split : c.popped - start = c.host.receiveSeq - start + (c.popped - c.host.receiveSeq) := by
      omega
    rw [split, ← drop_drop]
    exact bytesOf_drop_le _ _
  · right
    obtain ⟨block, isBlock, last⟩ := accounted.lastAckBytes.2 (by omega)
    have lastAckSeq := accounted.lastAckSeq
    have position : c.host.receiveSeq - 1 - start = c.popped - start := by omega
    have next : c.host.receiveSeq - start = c.popped - start + 1 := by omega
    refine ⟨by omega, ?_, ?_⟩
    · have most := accounted.length_le isBlock
      rw [last]
      omega
    · rw [position] at isBlock
      rw [next, drop_of_getElem? isBlock, bytesOf_cons, last]

/-- A block that the host may send fits into the buffer. -/
theorem Accounted.room (accounted : Accounted start size c) {block : Bytes} (enough : 128 ≤ size)
    (ready : needAck c.host = false) (short : block.length ≤ MESSAGE_MAX) :
    bytesOf (c.unpopped start) + block.length ≤ size := by
  have cases := accounted.unpopped_cases
  have window := accounted.receiveWindow
  have nonnegative := accounted.lastAckBytes.1
  have length : c.host.receiveSeq + c.host.sentQueue.length = c.host.sendSeq :=
    accounted.inv.sentQueue_length
  rw [MESSAGE_MAX] at short cases
  by_cases pending : c.host.receiveSeq < c.host.sendSeq
  · have room := needAck_room ready pending (by omega)
    have unconfirmed : 0 ≤ c.host.unconfirmed := by
      unfold Serialqueue.unconfirmed
      split
      · exact nonnegative
      · exact Int.le_refl 0
    rw [MESSAGE_MAX] at room
    rcases cases with few | ⟨behind, -, more⟩
    · omega
    · rw [Serialqueue.unconfirmed, if_pos behind] at room
      omega
  · -- everything is acknowledged: at most one block has not been popped
    have empty : c.host.sentQueue = [] := eq_nil_of_length_eq_zero (by omega)
    have none : c.host.needAckBytes = 0 := by
      rw [accounted.needAckBytes, empty]
      rfl
    omega

end Bounds

/-! ### Steps -/

theorem resent_append (seq : Nat) (sentQueue : List Bytes) (block : Bytes) :
    resent seq (sentQueue ++ [block]) =
      resent seq sentQueue ++ [⟨some block, seq + sentQueue.length⟩] := by
  induction sentQueue generalizing seq with
  | nil => rfl
  | cons sent sentQueue ih =>
    rw [cons_append, resent, ih, resent, length_cons, cons_append]
    rw [show seq + 1 + sentQueue.length = seq + (sentQueue.length + 1) by omega]

section Steps

variable {start size : Nat} {c after : Console}

theorem Console.Starts.accounted (starts : c.Starts) : Accounted c.host.sendSeq c.size c := by
  have popped : c.popped = c.host.sendSeq := by
    rw [Console.popped, starts.dispatching, starts.expected, starts.equal]
    rfl
  have unpopped : c.unpopped c.host.sendSeq = [] := by
    rw [Console.unpopped, starts.built]
    exact drop_nil
  have synchronised : Synchronised (c.link c.host.sendSeq) := by
    refine ⟨starts.noDebug, starts.sent, starts.equal, starts.started, starts.nextSequence, ?_,
      starts.toHost, starts.built, ?_, starts.expected⟩
    · change resent c.expected ((frames c.host.sendSeq c.built).drop _) = []
      rw [starts.built]
      change resent c.expected (drop _ []) = []
      rw [drop_nil]
      rfl
    · change c.built.take _ = []
      rw [starts.built, take_nil]
  refine ⟨inv_of_synchronised synchronised, starts.inSync, starts.mcuInSync, ?_, ?_, ?_, ?_, ?_,
    ⟨starts.lastAckBytes, ?_⟩, rfl, starts.receiveWindow, ?_, starts.discarded⟩
  · rw [unpopped, starts.receiveBuf, starts.line]
    rfl
  · rw [starts.dispatching]
    exact fun popCount isCount => absurd isCount (not_mem_none popCount)
  · rw [starts.toHost]
    exact nofun
  · rw [popped, ← starts.equal]
    exact starts.acknowledged
  · rw [starts.needAckBytes, starts.sent]
    rfl
  · rw [starts.equal]
    exact fun later => absurd later (Nat.lt_irrefl _)
  · rw [unpopped]
    exact Int.natCast_nonneg _

variable (accounted : Accounted start size c)
include accounted

theorem Accounted.sendBlock (enough : 128 ≤ size) {time : SendTime}
    (steps : c.sendBlock time = some after) : Accounted start size after := by
  obtain ⟨⟨host, block⟩, sent, rfl⟩ := map_eq_some_iff.mp steps
  obtain ⟨ready, out, short, _, _, _, _, same⟩ := sendBlock_eq sent
  have startLe := accounted.start_le
  have near := c.expected_le
  have below : c.expected ≤ c.host.sendSeq := accounted.inv.sent
  have count : c.host.sendSeq = start + c.built.length := accounted.inv.count
  have received := accounted.received
  have appended := frames_append start c.built block.content
  rw [← count, ← out] at appended
  have older : ∀ {i}, i < c.built.length → (frames start (c.built ++ [block.content]))[i]? =
      (frames start c.built)[i]? := by
    intro i inside
    rw [appended, getElem?_append_left]
    rw [frames_length]
    exact inside
  have unpopped : (frames start (c.built ++ [block.content])).drop (c.popped - start) =
      c.unpopped start ++ [block.out] := by
    rw [appended, drop_append_of_le_length, Console.unpopped]
    rw [frames_length]
    omega
  have most : block.out.length ≤ MESSAGE_MAX := by
    rw [out, addFrame_length]
    exact Nat.add_le_add_right short MESSAGE_MIN
  have extended := @Inv.sendBlock (c.link start) start _ accounted.inv time (by
    change (Serial.sendBlock c.host time).map _ = _
    rw [sent]
    rfl)
  subst same
  refine { accounted with
    inv := ?_
    bytes := ?_
    running := ?_
    needAckBytes := ?_
    lastAckBytes := ⟨accounted.lastAckBytes.1, ?_⟩
    fits := ?_ }
  · have toMcu : resent c.expected
        ((frames start (c.built ++ [block.content])).drop (c.expected - start)) =
        resent c.expected ((frames start c.built).drop (c.expected - start)) ++
          [⟨some block.out, c.host.sendSeq⟩] := by
      rw [appended, drop_append_of_le_length, resent_append, length_drop, frames_length]
      · rw [show c.expected + (c.built.length - (c.expected - start)) = c.host.sendSeq by omega]
      · rw [frames_length]
        omega
    have dispatched : (c.built ++ [block.content]).take (c.expected - start) =
        c.built.take (c.expected - start) := take_append_of_le_length (by omega)
    unfold Console.link
    rw [toMcu, dispatched]
    exact extended
  · change c.receiveBuf ++ (c.line ++ block.out) =
      ((frames start (c.built ++ [block.content])).drop (c.popped - start)).flatten
    rw [unpopped, ← append_assoc, accounted.bytes, flatten_append, flatten_singleton]
  · intro popCount isCount
    obtain ⟨later, other, isBlock, rest⟩ := accounted.running popCount isCount
    exact ⟨later, other, (older (by dsimp only; omega)).trans isBlock, rest⟩
  · rw [bytesOf_append, ← accounted.needAckBytes]
    simp [bytesOf]
  · intro later
    obtain ⟨other, isBlock, last⟩ := accounted.lastAckBytes.2 later
    exact ⟨other, (older (by dsimp only at later ⊢; omega)).trans isBlock, last⟩
  · change bytesOf ((frames start (c.built ++ [block.content])).drop (c.popped - start)) ≤ size
    rw [unpopped, bytesOf_append]
    have room := accounted.room enough ready most
    simpa [bytesOf] using room

theorem Accounted.hostReceive (steps : c.hostReceive = some after) :
    Accounted start size after := by
  unfold Console.hostReceive at steps
  split at steps
  · cases steps
  · rename_i frame toHost channel
    have later : ∀ other ∈ toHost, other ∈ c.toHost := by
      intro other member
      rw [channel]
      exact .tail _ member
    have linked : (c.link start).hostReceive false =
        some { c.link start with
          host := frame.bytes.elim { c.host with needSync := false } (inputFrame c.host)
          toHost } := by
      unfold Link.hostReceive
      simp only [show (c.link start).toHost = frame :: toHost from channel]
      cases frame.bytes <;> rfl
    have extended := accounted.inv.hostReceive linked
    cases isBytes : frame.bytes with
    | none =>
      simp only [isBytes] at steps extended
      cases steps
      exact { accounted with
        inv := { extended with }
        acks := fun other member => accounted.acks other (later other member) }
    | some bytes =>
      have member : frame ∈ c.toHost := by
        rw [channel]
        exact .head _
      obtain ⟨(window : InWindow c.host frame.seq), content, short, rfl⟩ :=
        accounted.inv.reply member isBytes
      obtain ⟨lastAckSeq, lastAckBytes, _, _, _, acked, last, same⟩ :=
        inputFrame_eq window accounted.hostInSync short
      simp only [isBytes, Option.elim_some, same] at steps extended
      cases steps
      refine { accounted with
        inv := extended
        acks := fun other member => accounted.acks other (later other member)
        lastAckSeq := ?_
        needAckBytes := ?_
        lastAckBytes := ?_ }
      · rcases acked with kept | ⟨isAck, isSeq⟩
        · rw [kept]
          exact accounted.lastAckSeq
        · rw [isSeq]
          exact accounted.acks frame member _ isBytes isAck
      · have both := bytesOf_append (c.host.sentQueue.take (frame.seq - c.host.receiveSeq))
          (c.host.sentQueue.drop (frame.seq - c.host.receiveSeq))
        rw [take_append_drop, ← accounted.needAckBytes] at both
        exact sub_eq_of_eq_add' both
      · rcases last with ⟨equal, kept⟩ | ⟨newer, block, isBlock, isLength⟩
        · rw [kept, equal]
          exact accounted.lastAckBytes
        · refine ⟨by rw [isLength]; exact Int.natCast_nonneg _, fun _ => ⟨block, ?_, isLength⟩⟩
          rw [accounted.sentQueue, getElem?_drop] at isBlock
          rw [← isBlock]
          have started := accounted.started
          exact congrArg (fun i => (frames start c.built)[i]?) (by dsimp only; omega)

theorem Accounted.serialRxByte (steps : c.serialRxByte = some after) :
    Accounted start size after := by
  unfold Console.serialRxByte at steps
  split at steps
  · cases steps
  · rename_i data line isLine
    have fits := accounted.fits
    rw [bytesOf_eq, ← accounted.bytes, isLine, length_append, length_cons] at fits
    -- what is on the line fits into the buffer, so that no byte is discarded
    rw [if_neg (by rw [accounted.isSize]; omega)] at steps
    cases steps
    refine { accounted with bytes := ?_, running := ?_ }
    · change c.receiveBuf ++ [data] ++ line = (c.unpopped start).flatten
      rw [← accounted.bytes, isLine, append_assoc]
      rfl
    · intro popCount isCount
      obtain ⟨later, block, isBlock, isLength, inside⟩ := accounted.running popCount isCount
      refine ⟨later, block, isBlock, isLength, ?_⟩
      change popCount ≤ (c.receiveBuf ++ [data]).length
      rw [length_append]
      omega

theorem Accounted.respond {content : Bytes} (steps : c.respond content = some after) :
    Accounted start size after := by
  unfold Console.respond at steps
  split at steps
  · cases steps
  · rename_i nonempty
    cases steps
    refine { accounted with inv := accounted.inv.extendToHost [content], acks := ?_ }
    intro frame member bytes isBytes isAck
    rcases mem_append.mp member with old | new
    · exact accounted.acks frame old bytes isBytes isAck
    · rw [mem_singleton.mp new] at isBytes
      cases isBytes
      obtain ⟨first, rest, rfl⟩ := exists_cons_of_ne_nil nonempty
      rw [addFrame_length, MESSAGE_PAYLOAD_MAX, MESSAGE_MAX, MESSAGE_MIN, take_succ_cons,
        length_cons] at isAck
      omega

theorem Accounted.finish (steps : c.finish = some after) : Accounted start size after := by
  unfold Console.finish at steps
  split at steps
  · cases steps
  · rename_i popCount dispatching
    cases steps
    obtain ⟨later, block, isBlock, isLength, inside⟩ := accounted.running popCount dispatching
    have popped : c.popped = c.expected - 1 := by
      rw [Console.popped, dispatching]
      rfl
    have position : c.expected - 1 - start = c.popped - start := by rw [popped]
    rw [position] at isBlock
    have unpopped : c.unpopped start = block :: (frames start c.built).drop (c.expected - start) := by
      rw [Console.unpopped, drop_of_getElem? isBlock,
        show c.popped - start + 1 = c.expected - start by omega]
    have bytes := accounted.bytes
    have fits := accounted.fits
    have lastAckSeq := accounted.lastAckSeq
    rw [unpopped] at bytes
    rw [unpopped, bytesOf_cons] at fits
    refine { accounted with
      inv := accounted.inv.extendToHost [[]]
      bytes := ?_
      running := fun other isOther => absurd isOther (not_mem_none other)
      acks := ?_
      lastAckSeq := ?_
      fits := ?_ }
    · change c.receiveBuf.drop popCount ++ c.line =
        ((frames start c.built).drop (c.expected - start)).flatten
      have dropped := congrArg (fun buf => buf.drop popCount) bytes
      rw [drop_append_of_le_length inside, flatten_cons, ← isLength,
        drop_left] at dropped
      rw [← isLength]
      exact dropped
    · intro frame member other isBytes isAck
      change frame.seq ≤ c.expected
      rcases mem_append.mp member with old | new
      · have earlier := accounted.acks frame old other isBytes isAck
        omega
      · rw [mem_singleton.mp new]
        exact le_rfl
    · change c.host.lastAckSeq ≤ c.expected
      omega
    · change bytesOf ((frames start c.built).drop (c.expected - start)) ≤ size
      omega

theorem Accounted.content_of_block {block : Bytes}
    (isBlock : (frames start c.built)[c.expected - start]? = some block) :
    ∃ content, c.built[c.expected - start]? = some content ∧
      addFrame (sequenceByte c.expected) content = block := by
  have started := accounted.started
  have received := accounted.received
  rw [frames_getElem?, map_eq_some_iff] at isBlock
  rwa [show start + (c.expected - start) = c.expected by omega] at isBlock

theorem Accounted.accept (idle : c.dispatching = none) {content block : Bytes}
    (isContent : c.built[c.expected - start]? = some content)
    (isBlock : (frames start c.built)[c.expected - start]? = some block)
    (whole : block.length ≤ c.receiveBuf.length) (syncState : SyncState)
    (inSync : syncState.needSync = false) :
    Accounted start size { c with
      mcu := ⟨syncState, sequenceByte (c.expected + 1)⟩
      dispatching := some block.length
      expected := c.expected + 1 } := by
  have started := accounted.started
  have received := accounted.received
  have popped : c.popped = c.expected := by
    rw [Console.popped, idle]
    rfl
  have next : c.expected + 1 - start = c.expected - start + 1 := by omega
  have channel : (c.link start).toMcu = ⟨some block, c.expected⟩ ::
      resent (c.expected + 1) ((frames start c.built).drop (c.expected - start + 1)) := by
    change resent c.expected ((frames start c.built).drop (c.expected - start)) = _
    rw [drop_of_getElem? isBlock]
    rfl
  have accepted := accounted.inv.accept channel rfl isContent syncState
  have unpopped : ({ c with
      mcu := ⟨syncState, sequenceByte (c.expected + 1)⟩
      dispatching := some block.length
      expected := c.expected + 1 } : Console).unpopped start = c.unpopped start := by
    rw [Console.unpopped, Console.unpopped, popped]
    rfl
  refine { accounted with
    inv := ?_
    mcuInSync := inSync
    bytes := ?_
    running := ?_
    acks := ?_
    lastAckSeq := ?_
    fits := ?_ }
  · have dispatched : c.built.take (c.expected + 1 - start) =
        c.built.take (c.expected - start) ++ [content] := by
      rw [next, take_add_one, isContent]
      rfl
    unfold Console.link
    rw [dispatched, next]
    exact accepted
  · rw [unpopped]
    exact accounted.bytes
  · intro popCount isCount
    cases isCount
    refine ⟨Nat.lt_succ_of_le (started.trans received), block, ?_, rfl, whole⟩
    exact isBlock
  · intro frame member bytes isBytes isAck
    have earlier := accounted.acks frame member bytes isBytes isAck
    rw [popped] at earlier
    exact earlier
  · have earlier := accounted.lastAckSeq
    rw [popped] at earlier
    exact earlier
  · rw [unpopped]
    exact accounted.fits

theorem Accounted.findBlock (steps : c.findBlock = some after) : Accounted start size after := by
  unfold Console.findBlock at steps
  split at steps
  · cases steps
  · rename_i idle
    have popped : c.popped = c.expected := by
      rw [Console.popped, if_neg idle]
    have nothing : c.dispatching = none := not_isSome_iff_eq_none.mp idle
    have bytes := accounted.bytes
    have nextSequence : c.mcu.nextSequence = sequenceByte c.expected := accounted.inv.nextSequence
    -- no more than a part of a block leaves everything as it is
    have waits : commandFindBlock c.mcu.syncState c.mcu.nextSequence c.receiveBuf =
        ⟨0, 0, c.mcu.syncState, c.mcu.nextSequence, false⟩ → Accounted start size after := by
      intro found
      simp only [found] at steps
      cases steps
      exact { accounted with }
    cases isBlock : (frames start c.built)[c.expected - start]? with
    | none =>
      apply waits
      have empty : c.unpopped start = [] := by
        rw [Console.unpopped, popped]
        exact drop_eq_nil_of_le (getElem?_eq_none_iff.mp isBlock)
      rw [empty] at bytes
      rw [(append_eq_nil_iff.mp bytes).1]
      unfold commandFindBlock
      rw [if_neg (by simp), if_pos (by decide)]
    | some block =>
      have unpopped : c.unpopped start =
          block :: (frames start c.built).drop (c.expected - start + 1) := by
        rw [Console.unpopped, popped, drop_of_getElem? isBlock]
      rw [unpopped, flatten_cons] at bytes
      obtain ⟨content, isContent, rfl⟩ := accounted.content_of_block isBlock
      have short := accounted.inv.short content (mem_of_getElem? isContent)
      by_cases whole : (addFrame (sequenceByte c.expected) content).length ≤ c.receiveBuf.length
      · have isPrefix : addFrame (sequenceByte c.expected) content <+: c.receiveBuf := by
          apply prefix_of_prefix_length_le _ (prefix_append c.receiveBuf c.line) whole
          rw [bytes]
          exact prefix_append _ _
        obtain ⟨more, isMore⟩ := isPrefix
        have inSync : c.mcu.syncState = ⟨false, c.mcu.syncState.needValid⟩ := by
          rw [← accounted.mcuInSync]
        have found : commandFindBlock c.mcu.syncState c.mcu.nextSequence c.receiveBuf =
            ⟨1, (addFrame (sequenceByte c.expected) content).length, ⟨false, false⟩,
              sequenceByte (c.expected + 1), false⟩ := by
          rw [inSync, nextSequence, ← isMore,
            commandFindBlock_addFrame short (sequenceByte_facts c.expected).1,
            if_neg (not_not.mpr rfl), (sequenceByte_facts c.expected).2.2]
        simp only [found] at steps
        cases steps
        exact accounted.accept nothing isContent isBlock whole ⟨false, false⟩ rfl
      · apply waits
        apply commandFindBlock_partial short (sequenceByte_facts c.expected).1 accounted.mcuInSync
        · apply prefix_of_prefix_length_le (prefix_append c.receiveBuf c.line) _
            (Nat.le_of_not_le whole)
          rw [bytes]
          exact prefix_append _ _
        · exact Nat.lt_of_not_le whole

end Steps

/-! ### Flow control -/

theorem Accounted.step {start size : Nat} {c after : Console} (accounted : Accounted start size c)
    (enough : 128 ≤ size) {move : ConsoleMove} (steps : c.step move = some after) :
    Accounted start size after := by
  cases move with
  | queueMessages cq msgs =>
    cases steps
    obtain ⟨_, _, same⟩ := serialqueueSendBatch_eq c.host cq msgs
    rw [same]
    exact { accounted with inv := { accounted.inv with } }
  | sendBlock time => exact accounted.sendBlock enough steps
  | hostReceive => exact accounted.hostReceive steps
  | rxByte => exact accounted.serialRxByte steps
  | findBlock => exact accounted.findBlock steps
  | respond content => exact accounted.respond steps
  | finish => exact accounted.finish steps

/-- **The receive window is never exceeded.** From a synchronised state with an
empty receive buffer of at least 128 bytes, in every run without losses and
retransmissions, the blocks that the host has sent and the micro-controller has not
popped are what is in the buffer and on the line, they have at most
`receive_window` bytes, and `serial_rx_byte` has discarded none. -/
theorem receive_window_respected {first c : Console} (starts : first.Starts)
    (enough : 128 ≤ first.size) (reached : Reachable (fun c => c = first) Console.step c) :
    c.receiveBuf ++ c.line = (c.unpopped first.host.sendSeq).flatten ∧
      (c.unpopped first.host.sendSeq).flatten.length ≤ first.size ∧
      c.host.receiveWindow = first.size ∧ c.size = first.size ∧ c.discarded = [] := by
  have accounted : Accounted first.host.sendSeq first.size c := by
    apply reached.induct_invariant
    · rintro _ rfl -
      exact starts.accounted
    · exact fun state move after _ _ steps accounted => accounted.step enough steps
  have fits := accounted.fits
  rw [bytesOf_eq] at fits
  exact ⟨accounted.bytes, Int.ofNat_le.mp fits, accounted.receiveWindow, accounted.isSize,
    accounted.discarded⟩

def console : Console where
  host := { connected.host with receiveWindow := 192 }
  mcu := connected.mcu
  size := 192
  receiveBuf := []
  dispatching := none
  line := []
  toHost := []
  discarded := []
  built := []
  expected := 2

/-- A response takes a block off the sent queue before it is popped, and the host
sends the next one behind it. -/
theorem receive_window_respected_answered :
    console.Starts ∧ ∃ c : Console, c.host.sentQueue.length = 1 ∧
      (c.unpopped 2).length = 2 ∧ (c.unpopped 2).flatten.length ≤ 192 := by
  let time : SendTime := ⟨100, none, 0⟩
  let moves : List ConsoleMove :=
    [.queueMessages 0 [⟨[5, 1], 0, 0, 0⟩], .sendBlock time] ++ replicate 7 .rxByte ++
      [.findBlock, .respond [9], .hostReceive, .queueMessages 0 [⟨[6], 0, 0, 0⟩], .sendBlock time]
  have result : (run Console.step (fun _ => True) console moves).map
      (fun c => (c.host.sentQueue.length, (c.unpopped 2).length)) = some (1, 2) := by
    decide +kernel
  have starts : console.Starts :=
    ⟨rfl, rfl, rfl, rfl, Nat.le_refl _, le_rfl, rfl, Int.le_refl _, rfl, rfl, by decide, rfl,
      rfl, rfl, rfl, rfl, rfl, rfl⟩
  obtain ⟨c, executes, counts⟩ := map_eq_some_iff.mp result
  obtain ⟨sent, unpopped⟩ := Prod.mk.inj counts
  exact ⟨starts, c, sent, unpopped, (receive_window_respected starts (by decide)
    (.of_run (fun inside => .initial rfl inside) executes)).2.1⟩

end MagnetoX.Serial
