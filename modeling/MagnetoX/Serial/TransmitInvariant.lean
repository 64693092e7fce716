import Mathlib.Algebra.BigOperators.Ring.Finset
import Mathlib.Algebra.Order.BigOperators.Group.List
import MagnetoX.Serial.Transmit
import MagnetoX.Serial.Window

/-!
Owns the invariants of the transmit queues over all runs: the sent queue matches
the sequence numbers, the byte counters match the queues, the pending list holds
the command queues that have messages, and the messages of a command queue are
sent in the order in which they were queued.
-/

namespace MagnetoX.Serial

open Message Library Library.Run List

/-! ### Messages -/

def messageBytes (msgs : List QueueMessage) : Int := (msgs.map (fun qm => (qm.msg.length : Int))).sum

@[simp] theorem messageBytes_nil : messageBytes [] = 0 := rfl

@[simp] theorem messageBytes_cons (qm : QueueMessage) (msgs : List QueueMessage) :
    messageBytes (qm :: msgs) = qm.msg.length + messageBytes msgs := rfl

@[simp] theorem messageBytes_append (first second : List QueueMessage) :
    messageBytes (first ++ second) = messageBytes first + messageBytes second := by
  simp [messageBytes]

theorem messageBytes_nonneg (msgs : List QueueMessage) : 0 ≤ messageBytes msgs :=
  sum_nonneg (by simp)

theorem messageBytes_eq_zero {msgs : List QueueMessage} (valid : ∀ qm ∈ msgs, qm.Valid)
    (none : messageBytes msgs = 0) : msgs = [] := by
  cases msgs with
  | nil => rfl
  | cons qm msgs =>
    have positive := (valid qm (.head _)).nonempty
    have rest := messageBytes_nonneg msgs
    rw [messageBytes_cons] at none
    omega

/-! ### The queues -/

def CommandQueue.messages (q : CommandQueue) : List QueueMessage := q.readyQueue ++ q.upcomingQueue

variable {rest : List QueueMessage} {cq : Nat}

namespace Transmit

variable {c : Transmit}

def total (c : Transmit) (measure : CommandQueue → Int) : Int :=
  (c.pendingQueues.map (fun cq => measure (c.commandQueues cq))).sum

def sentFrom (c : Transmit) (cq : Nat) : List QueueMessage :=
  (c.sent.filter (fun s => s.1 == cq)).map Prod.snd

/-- The counters and the pending list agree with the command queues. -/
structure Accurate (c : Transmit) : Prop where
  number : ∀ cq, (c.commandQueues cq).number = cq
  nodup : c.pendingQueues.Nodup
  pending_iff : ∀ cq, cq ∈ c.pendingQueues ↔ (c.commandQueues cq).messages ≠ []
  readyBytes : c.link.readyBytes = c.total (fun q => messageBytes q.readyQueue)
  upcomingBytes : c.link.upcomingBytes = c.total (fun q => messageBytes q.upcomingQueue)
  valid : ∀ cq, ∀ qm ∈ (c.commandQueues cq).messages, qm.Valid
  order : ∀ cq, c.sentFrom cq ++ (c.commandQueues cq).messages = c.queued cq

theorem alloc_accurate (receiveWindow : Int) : Accurate (alloc receiveWindow) where
  number := fun _ => rfl
  nodup := .nil
  pending_iff := fun _ => iff_of_false nofun (fun some => some rfl)
  readyBytes := rfl
  upcomingBytes := rfl
  valid := nofun
  order := fun _ => rfl

/-! ### Changing one command queue -/

section Change

variable {after : Transmit} {q : CommandQueue}

/-- Changing one command queue changes a sum by the difference, however the pending
list changes with it. -/
theorem total_change (before : Accurate c) (cq : Nat)
    (queues : after.commandQueues = Function.update c.commandQueues cq q)
    (nodup : after.pendingQueues.Nodup)
    (pending_iff : ∀ i, i ∈ after.pendingQueues ↔ (after.commandQueues i).messages ≠ [])
    {measure : CommandQueue → Int} (zero : ∀ q, q.messages = [] → measure q = 0) :
    after.total measure = c.total measure - measure (c.commandQueues cq) + measure q := by
  -- both sums may be taken over a set that holds all queues concerned
  let all := insert cq (c.pendingQueues.toFinset ∪ after.pendingQueues.toFinset)
  have widen : ∀ t : Transmit, t.pendingQueues.Nodup →
      (∀ i, i ∈ t.pendingQueues ↔ (t.commandQueues i).messages ≠ []) →
      t.pendingQueues.toFinset ⊆ all → t.total measure = ∑ i ∈ all, measure (t.commandQueues i) := by
    intro t nodup pending_iff inside
    rw [total, ← sum_toFinset _ nodup]
    refine Finset.sum_subset inside (fun i _ notPending => zero _ ?_)
    by_contra some
    exact notPending (mem_toFinset.mpr ((pending_iff i).mpr some))
  rw [widen c before.nodup before.pending_iff (by intro i; simp +contextual [all]),
    widen after nodup pending_iff (by intro i; simp +contextual [all]), queues]
  have inside : cq ∈ all := Finset.mem_insert_self _ _
  have changed : (fun i => measure (Function.update c.commandQueues cq q i)) =
      Function.update (fun i => measure (c.commandQueues i)) cq (measure q) :=
    Function.comp_update measure c.commandQueues cq q
  rw [changed, Finset.sum_update_of_mem inside, ← Finset.sum_sdiff (Finset.singleton_subset_iff.mpr inside),
    Finset.sum_singleton]
  omega

theorem Accurate.change (before : Accurate c) (cq : Nat)
    (queues : after.commandQueues = Function.update c.commandQueues cq q) (number : q.number = cq)
    (nodup : after.pendingQueues.Nodup)
    (own : cq ∈ after.pendingQueues ↔ q.messages ≠ [])
    (other : ∀ i, i ≠ cq → (i ∈ after.pendingQueues ↔ i ∈ c.pendingQueues))
    (readyBytes : after.link.readyBytes =
      c.link.readyBytes - messageBytes (c.commandQueues cq).readyQueue + messageBytes q.readyQueue)
    (upcomingBytes : after.link.upcomingBytes =
      c.link.upcomingBytes - messageBytes (c.commandQueues cq).upcomingQueue +
        messageBytes q.upcomingQueue)
    (valid : ∀ qm ∈ q.messages, qm.Valid)
    (order : after.sentFrom cq ++ q.messages = after.queued cq)
    (others : ∀ i, i ≠ cq → after.sentFrom i = c.sentFrom i ∧ after.queued i = c.queued i) :
    Accurate after := by
  have everywhere : ∀ {P : Nat → CommandQueue → Prop}, P cq q →
      (∀ i, i ≠ cq → P i (c.commandQueues i)) → ∀ i, P i (after.commandQueues i) := by
    intro P here elsewhere
    rw [queues]
    exact (Function.forall_update_iff _ P).mpr ⟨here, elsewhere⟩
  have pending_iff : ∀ i, i ∈ after.pendingQueues ↔ (after.commandQueues i).messages ≠ [] :=
    everywhere (P := fun i q => i ∈ after.pendingQueues ↔ q.messages ≠ []) own
      (fun i different => (other i different).trans (before.pending_iff i))
  have change := @total_change c after q before cq queues nodup pending_iff
  refine ⟨?_, nodup, pending_iff, ?_, ?_, ?_, ?_⟩
  · exact everywhere (P := fun i q => q.number = i) number (fun i _ => before.number i)
  · rw [readyBytes, before.readyBytes, change (fun q empty => ?_)]
    rw [(append_eq_nil_iff.mp empty).1, messageBytes_nil]
  · rw [upcomingBytes, before.upcomingBytes, change (fun q empty => ?_)]
    rw [(append_eq_nil_iff.mp empty).2, messageBytes_nil]
  · exact everywhere (P := fun _ q => ∀ qm ∈ q.messages, qm.Valid) valid (fun i _ => before.valid i)
  · refine everywhere (P := fun i q => after.sentFrom i ++ q.messages = after.queued i) order ?_
    intro i different
    rw [(others i different).1, (others i different).2]
    exact before.order i

end Change

/-! ### Queueing messages -/

variable {qm : QueueMessage}

theorem setMinClock_valid (valid : qm.Valid) : (setMinClock qm).Valid := by
  unfold setMinClock
  split
  · exact ⟨valid.nonempty, valid.short, valid.clock⟩
  · exact valid

open CommandQueue

theorem isEmpty_iff (q : CommandQueue) :
    (q.readyQueue.isEmpty && q.upcomingQueue.isEmpty) = true ↔ q.messages = [] := by
  rw [Bool.and_eq_true, List.isEmpty_iff, List.isEmpty_iff, messages, append_eq_nil_iff]

theorem nodup_concat_if {l : List Nat} (nodup : l.Nodup) {a : Nat} {P : Prop} [Decidable P]
    (fresh : P → a ∉ l) : (if P then l ++ [a] else l).Nodup := by
  split
  · rename_i holds
    rw [← concat_eq_append]
    exact nodup.concat (fresh holds)
  · exact nodup

theorem Accurate.send (accurate : Accurate c) (cq : Nat) (valid : qm.Valid) :
    Accurate (c.serialqueueSend cq qm) := by
  have valid := setMinClock_valid valid
  have nonempty := valid.nonempty
  have unpending := accurate.pending_iff cq
  rw [Ne, ← isEmpty_iff] at unpending
  simp only [serialqueueSend, serialqueueSendBatch, map_cons, map_nil, sum_cons,
    sum_nil]
  rw [if_neg (by omega)]
  have messages : (c.commandQueues cq).readyQueue ++
      ((c.commandQueues cq).upcomingQueue ++ [setMinClock qm]) =
        (c.commandQueues cq).messages ++ [setMinClock qm] := (append_assoc _ _ _).symm
  refine accurate.change cq rfl (accurate.number cq) ?_ ?_ ?_ ?_ ?_ ?_ ?_ ?_
  · exact nodup_concat_if accurate.nodup (fun empty pending => unpending.mp pending empty)
  · simp only [CommandQueue.messages]
    split
    · simp
    · rename_i some
      simpa using unpending.mpr some
  · intro i different
    split
    · simp [different]
    · rfl
  · simp only [setQueue]
    omega
  · simp only [messageBytes_append, messageBytes_cons, messageBytes_nil]
    omega
  · simp only [CommandQueue.messages]
    rw [messages]
    exact forall_mem_append.mpr ⟨accurate.valid cq, forall_mem_singleton.mpr valid⟩
  · have order := accurate.order cq
    simp only [CommandQueue.messages, Function.update_self]
    rw [messages, ← order, append_assoc]
    rfl
  · intro i different
    exact ⟨rfl, Function.update_of_ne different _ _⟩

/-! ### Readying messages -/

theorem drop_takeWhile_length {α : Type} (p : α → Bool) (l : List α) :
    l.drop (l.takeWhile p).length = l.dropWhile p := by
  calc
    l.drop (l.takeWhile p).length =
        (l.takeWhile p ++ l.dropWhile p).drop (l.takeWhile p).length := by
      rw [takeWhile_append_dropWhile]
    _ = l.dropWhile p := drop_left

theorem ready_messages (q : CommandQueue) (ackClock : Nat) : (q.ready ackClock).messages = q.messages := by
  simp only [messages, ready, append_assoc, drop_takeWhile_length,
    takeWhile_append_dropWhile]

theorem ready_bytes (q : CommandQueue) (ackClock : Nat) :
    messageBytes (q.ready ackClock).readyQueue = messageBytes q.readyQueue + q.readied ackClock ∧
      messageBytes (q.ready ackClock).upcomingQueue =
        messageBytes q.upcomingQueue - q.readied ackClock := by
  have upcoming : messageBytes q.upcomingQueue = q.readied ackClock +
      messageBytes (q.upcomingQueue.dropWhile (fun qm => !decide (ackClock < qm.minClock))) := by
    conv_lhs => rw [← takeWhile_append_dropWhile
      (p := fun qm : QueueMessage => !decide (ackClock < qm.minClock)) (l := q.upcomingQueue)]
    exact messageBytes_append _ _
  constructor
  · exact messageBytes_append _ _
  · simp only [ready, drop_takeWhile_length]
    omega

theorem Accurate.readyMessages (accurate : Accurate c) (cq ackClock : Nat) :
    Accurate (c.readyMessages cq ackClock) := by
  have bytes := ready_bytes (c.commandQueues cq) ackClock
  refine accurate.change cq rfl (accurate.number cq) accurate.nodup ?_
    (fun _ _ => Iff.rfl) ?_ ?_ ?_ ?_ (fun _ _ => ⟨rfl, rfl⟩)
  · rw [ready_messages]
    exact accurate.pending_iff cq
  · simp only [Transmit.readyMessages, bytes.1]
    omega
  · simp only [Transmit.readyMessages, bytes.2]
    omega
  · rw [ready_messages]
    exact accurate.valid cq
  · rw [ready_messages]
    exact accurate.order cq

theorem Accurate.readyQueues (accurate : Accurate c) (ackClock : Nat) (queues : List Nat) :
    Accurate (readyQueues ackClock queues c) := by
  induction queues generalizing c with
  | nil => exact accurate
  | cons cq queues ih =>
    exact ih (accurate.readyMessages cq ackClock)

/-! ### Filling a block -/

theorem sentFrom_concat (sent : List (Nat × QueueMessage)) (cq : Nat) (qm : QueueMessage) (i : Nat) :
    ((sent ++ [(cq, qm)]).filter (fun s => s.1 == i)).map Prod.snd =
      (sent.filter (fun s => s.1 == i)).map Prod.snd ++ if i = cq then [qm] else [] := by
  rw [filter_append, map_append]
  by_cases same : i = cq
  · simp [same]
  · simp [same, Ne.symm same]

theorem Accurate.takeMessage (accurate : Accurate c)
    (isReady : (c.commandQueues cq).readyQueue = qm :: rest) : Accurate (c.takeMessage cq qm) := by
  have messages : (c.commandQueues cq).messages =
      qm :: (rest ++ (c.commandQueues cq).upcomingQueue) := by
    rw [messages, isReady, cons_append]
  have isPending : cq ∈ c.pendingQueues := (accurate.pending_iff cq).mpr (by simp [messages])
  refine accurate.change cq rfl (accurate.number cq) ?_ ?_ ?_ ?_ ?_ ?_ ?_ ?_
  · simp only [Transmit.takeMessage]
    split
    · exact accurate.nodup.erase cq
    · exact accurate.nodup
  · rw [← not_iff_not, not_not, ← isEmpty_iff]
    simp only [Transmit.takeMessage]
    split
    · rename_i empty
      exact iff_of_true accurate.nodup.not_mem_erase empty
    · rename_i some
      exact iff_of_false (not_not.mpr isPending) some
  · intro i different
    simp only [Transmit.takeMessage]
    split
    · exact mem_erase_of_ne different
    · rfl
  · simp only [Transmit.takeMessage, isReady, messageBytes_cons, tail_cons]
    omega
  · simp only [Transmit.takeMessage, setQueue]
    omega
  · intro m isMessage
    refine accurate.valid cq m ?_
    rw [messages]
    simp only [isReady, tail_cons] at isMessage
    exact .tail _ isMessage
  · have order := accurate.order cq
    rw [messages] at order
    simp only [sentFrom, Transmit.takeMessage, sentFrom_concat, if_true, isReady,
      tail_cons, append_assoc, singleton_append]
    exact order
  · intro i different
    refine ⟨?_, rfl⟩
    simp only [sentFrom, Transmit.takeMessage, sentFrom_concat, different, if_false, append_nil]

end Transmit

variable {queues : List CommandQueue} {found : Option (Nat × QueueMessage)} {content : Bytes}
  {qm : QueueMessage}

theorem lowestReady_mem (lowest : lowestReady queues found = some (cq, qm)) :
    found = some (cq, qm) ∨ ∃ q ∈ queues, q.number = cq ∧ ∃ rest, q.readyQueue = qm :: rest := by
  induction queues generalizing found with
  | nil => exact .inl lowest
  | cons q queues ih =>
    rw [exists_mem_cons_iff]
    rw [lowestReady] at lowest
    split at lowest
    · exact (ih lowest).imp_right .inr
    · rename_i m rest isReady
      split at lowest
      · rcases ih lowest with same | inQueues
        · cases same
          exact .inr (.inl ⟨rfl, rest, isReady⟩)
        · exact .inr (.inr inQueues)
      · exact (ih lowest).imp_right .inr

theorem lowestReady_isSome (exist : found.isSome ∨ ∃ q ∈ queues, ∃ qm rest,
      q.readyQueue = qm :: rest ∧ qm.reqClock < MAX_CLOCK) :
    (lowestReady queues found).isSome := by
  induction queues generalizing found with
  | nil =>
    refine exist.elim id ?_
    rintro ⟨_, isQueue, _⟩
    cases isQueue
  | cons q queues ih =>
    rw [exists_mem_cons_iff] at exist
    rw [lowestReady]
    split
    · rename_i isReady
      refine ih (exist.imp_right ?_)
      rintro (⟨_, _, isHead, _⟩ | others)
      · cases isReady.symm.trans isHead
      · exact others
    · rename_i m rest isReady
      split
      · exact ih (.inl rfl)
      · rename_i higher
        refine ih ?_
        cases found with
        | some best => exact .inl rfl
        | none =>
          refine exist.imp_right ?_
          rintro (⟨_, _, isHead, clock⟩ | others)
          · cases isReady.symm.trans isHead
            exact absurd clock higher
          · exact others

namespace Transmit

theorem Accurate.finds (accurate : Accurate c) (some : c.link.readyBytes ≠ 0) :
    ∃ cq qm rest, lowestReady c.pending none = Option.some (cq, qm) ∧ qm.Valid ∧
      (c.commandQueues cq).readyQueue = qm :: rest := by
  have exist : ∃ cq ∈ c.pendingQueues, (c.commandQueues cq).readyQueue ≠ [] := by
    by_contra noReady
    push Not at noReady
    refine some ?_
    rw [accurate.readyBytes, total, sum_eq_zero]
    intro bytes isBytes
    obtain ⟨cq, isPending, rfl⟩ := mem_map.mp isBytes
    rw [noReady cq isPending, messageBytes_nil]
  obtain ⟨i, isPending, isReady⟩ := exist
  obtain ⟨m, others, isReady⟩ := exists_cons_of_ne_nil isReady
  have valid : m.Valid := accurate.valid i m (by simp [CommandQueue.messages, isReady])
  have finds : (lowestReady c.pending none).isSome := lowestReady_isSome
    (.inr ⟨_, mem_map.mpr ⟨i, isPending, rfl⟩, m, others, isReady, valid.clock⟩)
  obtain ⟨⟨cq, qm⟩, lowest⟩ := Option.isSome_iff_exists.mp finds
  rcases lowestReady_mem lowest with isNone | ⟨q, isQueue, number, rest, isHead⟩
  · cases isNone
  · obtain ⟨j, _, rfl⟩ := mem_map.mp isQueue
    rw [accurate.number] at number
    subst number
    refine ⟨j, qm, rest, lowest, accurate.valid j qm ?_, isHead⟩
    simp [CommandQueue.messages, isHead]

/-- The number of ready messages, from which the loop of `build_and_send_command`
takes one at a time. -/
def readyCount (c : Transmit) : Nat := (c.pending.map (fun q => q.readyQueue.length)).sum

theorem readyCount_eq (c : Transmit) : (c.readyCount : Int) = c.total (fun q => q.readyQueue.length) := by
  rw [readyCount, total, pending, Nat.cast_list_sum, map_map, map_map]
  rfl

theorem Accurate.takeMessage_count (accurate : Accurate c)
    (isReady : (c.commandQueues cq).readyQueue = qm :: rest) :
    (c.takeMessage cq qm).readyCount + 1 = c.readyCount := by
  have taken := accurate.takeMessage isReady
  have change : (c.takeMessage cq qm).total (fun q => q.readyQueue.length) = _ :=
    total_change accurate cq rfl taken.nodup taken.pending_iff (fun q empty => by
      rw [(append_eq_nil_iff.mp empty).1]
      rfl)
  rw [← readyCount_eq, ← readyCount_eq, isReady] at change
  simp only [tail_cons, length_cons] at change
  omega

structure KeepsBlocks (c after : Transmit) : Prop where
  link : ∃ readyBytes upcomingBytes notifyQueue,
    after.link = { c.link with readyBytes, upcomingBytes, notifyQueue }
  built : after.built = c.built

theorem KeepsBlocks.refl (c : Transmit) : KeepsBlocks c c := ⟨⟨_, _, _, rfl⟩, rfl⟩

structure Fills (c after : Transmit) (content filled : Bytes) : Prop where
  accurate : Accurate after
  keeps : KeepsBlocks c after
  sent : ∃ taken : List (Nat × QueueMessage), after.sent = c.sent ++ taken ∧
    filled = content ++ (taken.map (fun s => s.2.msg)).flatten
  short : filled.length ≤ MESSAGE_PAYLOAD_MAX
  some : content = [] → c.link.readyBytes ≠ 0 → filled ≠ []

theorem Accurate.stop (accurate : Accurate c) (short : content.length ≤ MESSAGE_PAYLOAD_MAX)
    (some : content = [] → c.link.readyBytes = 0) : Fills c c content content where
  accurate := accurate
  keeps := .refl c
  sent := ⟨[], by simp⟩
  short := short
  some := fun empty ready => absurd (some empty) ready

theorem Accurate.fillBlock (accurate : Accurate c) {fuel : Nat}
    (enough : c.readyCount < fuel) (short : content.length ≤ MESSAGE_PAYLOAD_MAX) :
    ∃ after filled, fillBlock fuel c content = some (after, filled) ∧ Fills c after content filled := by
  induction fuel generalizing c content with
  | zero => omega
  | succ fuel ih =>
    rw [Transmit.fillBlock]
    by_cases ready : c.link.readyBytes = 0
    · rw [if_pos ready]
      exact ⟨c, content, rfl, accurate.stop short (fun _ => ready)⟩
    · rw [if_neg ready]
      obtain ⟨cq, qm, rest, lowest, valid, isReady⟩ := accurate.finds ready
      have limit : MESSAGE_HEADER_SIZE + MESSAGE_PAYLOAD_MAX = MESSAGE_MAX - MESSAGE_TRAILER_SIZE := rfl
      have messageShort := valid.short
      simp only [lowest]
      by_cases full : MESSAGE_HEADER_SIZE + content.length + qm.msg.length >
          MESSAGE_MAX - MESSAGE_TRAILER_SIZE
      · rw [if_pos full]
        refine ⟨c, content, rfl, accurate.stop short (fun empty => ?_)⟩
        -- the first message always fits
        rw [empty, length_nil] at full
        omega
      · rw [if_neg full]
        have count := accurate.takeMessage_count isReady
        have room : (content ++ qm.msg).length ≤ MESSAGE_PAYLOAD_MAX := by
          rw [length_append]
          omega
        obtain ⟨after, filled, fills, spec⟩ :=
          ih (accurate.takeMessage isReady) (by omega) room
        obtain ⟨taken, sent, isFilled⟩ := spec.sent
        refine ⟨after, filled, fills, spec.accurate, ?_, ?_, spec.short, ?_⟩
        · obtain ⟨_, _, _, link⟩ := spec.keeps.link
          exact ⟨⟨_, _, _, link⟩, spec.keeps.built⟩
        · refine ⟨(cq, qm) :: taken, ?_, ?_⟩
          · rw [sent, Transmit.takeMessage, append_assoc]
            rfl
          · rw [isFilled, map_cons, flatten_cons, append_assoc]
        · intro _ _ empty
          have nonempty := valid.nonempty
          rw [isFilled] at empty
          simp only [append_eq_nil_iff] at empty
          rw [empty.1.2] at nonempty
          exact absurd nonempty (by decide)

end Transmit

/-! ### The window of blocks -/

structure Windowed (sq : Serialqueue) : Prop where
  noDebug : sq.debugFile = false
  sent : sq.receiveSeq + sq.sentQueue.length = sq.sendSeq
  blocks : sq.sentQueue.length ≤ MAX_PENDING_BLOCKS
  needAckBytes : sq.needAckBytes = bytesOf sq.sentQueue
  short : ∀ block ∈ sq.sentQueue, block.length ≤ MESSAGE_MAX

variable {sq : Serialqueue}

theorem Windowed.flatten_length (windowed : Windowed sq) :
    sq.sentQueue.flatten.length ≤ MESSAGE_MAX * MAX_PENDING_BLOCKS := by
  have bounded : sq.sentQueue.flatten.length ≤ sq.sentQueue.length * MESSAGE_MAX := by
    rw [length_flatten, ← length_map length]
    refine sum_le_card_nsmul _ _ ?_
    intro length isLength
    obtain ⟨block, isBlock, rfl⟩ := mem_map.mp isLength
    exact windowed.short block isBlock
  calc
    sq.sentQueue.flatten.length ≤ sq.sentQueue.length * MESSAGE_MAX := bounded
    _ ≤ MAX_PENDING_BLOCKS * MESSAGE_MAX := Nat.mul_le_mul_right _ windowed.blocks
    _ = MESSAGE_MAX * MAX_PENDING_BLOCKS := Nat.mul_comm _ _

/-- An ack for a message not sent clears the sent queue. -/
theorem removeSent_ranOut {rseq sentSeq : Nat} {sentQueue : List Bytes}
    (beyond : sentSeq + sentQueue.length < rseq) (needAckBytes lastAckBytes : Int) :
    (removeSent rseq sentSeq sentQueue needAckBytes lastAckBytes) =
      ([], needAckBytes - bytesOf sentQueue, lastAckBytes, true) := by
  induction sentQueue generalizing sentSeq needAckBytes with
  | nil => simp [removeSent, bytesOf]
  | cons sent sentQueue ih =>
    rw [length_cons] at beyond
    rw [removeSent, if_neg (by omega), ih (by omega), bytesOf_cons]
    congr 2
    omega

theorem Windowed.updateReceiveSeq (windowed : Windowed sq) {rseq : Nat}
    (newer : sq.receiveSeq < rseq) : Windowed (updateReceiveSeq sq rseq) := by
  have sent := windowed.sent
  have blocks := windowed.blocks
  by_cases within : rseq ≤ sq.receiveSeq + sq.sentQueue.length
  · obtain ⟨_, -, updated⟩ := updateReceiveSeq_eq newer within
    rw [updated]
    refine ⟨windowed.noDebug, ?_, ?_, ?_, ?_⟩
    · rw [length_drop]
      dsimp only
      omega
    · rw [length_drop]
      exact (Nat.sub_le _ _).trans blocks
    · have both := bytesOf_append (sq.sentQueue.take (rseq - sq.receiveSeq))
        (sq.sentQueue.drop (rseq - sq.receiveSeq))
      rw [take_append_drop, ← windowed.needAckBytes] at both
      exact sub_eq_of_eq_add' both
    · exact fun block isBlock => windowed.short block (mem_of_mem_drop isBlock)
  · have ranOut := removeSent_ranOut (Nat.lt_of_not_le within) sq.needAckBytes sq.lastAckBytes
    rw [windowed.needAckBytes, Int.sub_self] at ranOut
    simp only [Serial.updateReceiveSeq, windowed.needAckBytes, ranOut, if_true]
    exact ⟨windowed.noDebug, rfl, Nat.zero_le _, rfl, by rintro _ ⟨⟩⟩

theorem Windowed.handleMessage (windowed : Windowed sq) (frame : Bytes) :
    Windowed (handleMessage sq frame) := by
  have atLeast : sq.receiveSeq ≤ frameSeq sq frame := SequenceNumber.le_resolve (by decide)
  unfold Serial.handleMessage
  dsimp only
  split
  · exact windowed
  · have processed : ∀ {middle : Serialqueue} (wakeSeq : Int), Windowed middle →
        Windowed (processMessage (frameSeq sq frame) frame (notifyAcknowledged wakeSeq middle)) := by
      intro middle wakeSeq windowed
      obtain ⟨_, _, -, processed⟩ := processMessage_eq (frameSeq sq frame) frame
        (notifyAcknowledged wakeSeq middle)
      rw [processed]
      exact { windowed with }
    refine processed _ ?_
    split
    · exact windowed.updateReceiveSeq (by omega)
    · exact windowed

theorem Windowed.inputFrame (windowed : Windowed sq) (frame : Bytes) :
    Windowed (inputFrame sq frame) := by
  have same : ∀ needSync, Windowed { sq with needSync } := fun needSync => { windowed with }
  unfold Serial.inputFrame
  dsimp only
  split
  · exact (same _).handleMessage _
  · exact same _

namespace Transmit

theorem readyQueues_eq (ackClock : Nat) {queues : List Nat} (nodup : queues.Nodup) (c : Transmit) :
    ∃ commandQueues, readyQueues ackClock queues c = { c with
      commandQueues
      link := { c.link with
        upcomingBytes := c.link.upcomingBytes -
          (queues.map (fun cq => (c.commandQueues cq).readied ackClock)).sum
        readyBytes := c.link.readyBytes +
          (queues.map (fun cq => (c.commandQueues cq).readied ackClock)).sum } } := by
  induction queues generalizing c with
  | nil => exact ⟨c.commandQueues, by simp [readyQueues]⟩
  | cons first queues ih =>
    obtain ⟨fresh, nodup⟩ := nodup_cons.mp nodup
    obtain ⟨commandQueues, same⟩ := ih nodup (c.readyMessages first ackClock)
    have others : queues.map (fun cq =>
        ((c.readyMessages first ackClock).commandQueues cq).readied ackClock) =
        queues.map (fun cq => (c.commandQueues cq).readied ackClock) := by
      refine map_congr_left (fun i inside => ?_)
      have different : i ≠ first := fun same => fresh (same ▸ inside)
      simp [readyMessages, setQueue, different]
    refine ⟨commandQueues, ?_⟩
    rw [readyQueues, same, others, map_cons, sum_cons]
    simp only [readyMessages, setQueue, Int.sub_sub, Int.add_assoc]

/-- `check_send_command` only makes messages ready. It lets a block be sent when
fewer than twelve blocks wait for an ack and some message is ready. -/
structure Checks (c : Transmit) (now : Bool) (after : Transmit) : Prop where
  accurate : Accurate after
  keeps : KeepsBlocks c after
  sent : after.sent = c.sent
  room : now = true → c.link.sendSeq - c.link.receiveSeq < MAX_PENDING_BLOCKS
  ready : now = true → after.link.readyBytes ≠ 0

theorem minReadyClock_of_none (time : SendTime)
    (noReady : ∀ q ∈ queues, q.readyQueue = []) : minReadyClock time queues = MAX_CLOCK := by
  unfold minReadyClock
  generalize MAX_CLOCK = clock
  induction queues generalizing clock with
  | nil => rfl
  | cons q queues ih =>
    rw [foldl_cons, noReady q (.head _)]
    exact ih (fun q isQueue => noReady q (.tail _ isQueue)) clock

theorem Accurate.noReady (accurate : Accurate c) (none : c.link.readyBytes = 0) :
    ∀ q ∈ c.pending, q.readyQueue = [] := by
  intro q isQueue
  obtain ⟨cq, isPending, rfl⟩ := mem_map.mp isQueue
  have valid : ∀ qm ∈ (c.commandQueues cq).readyQueue, qm.Valid := fun qm isReady =>
    accurate.valid cq qm (mem_append_left _ isReady)
  refine messageBytes_eq_zero valid (le_antisymm ?_ (messageBytes_nonneg _))
  rw [← none, accurate.readyBytes]
  refine single_le_sum ?_ _ (mem_map.mpr ⟨cq, isPending, rfl⟩)
  intro bytes isBytes
  obtain ⟨i, _, rfl⟩ := mem_map.mp isBytes
  exact messageBytes_nonneg _

theorem Accurate.checkSendCommand (accurate : Accurate c) (noDebug : c.link.debugFile = false)
    {time : SendTime} (inRange : time.InRange) :
    Checks c (c.checkSendCommand time).2 (c.checkSendCommand time).1 := by
  unfold Transmit.checkSendCommand
  by_cases waits : needAck c.link = true
  · rw [if_pos waits]
    exact ⟨accurate, .refl c, rfl, nofun, nofun⟩
  · rw [if_neg waits]
    obtain ⟨_, same⟩ := readyQueues_eq time.ackClock accurate.nodup c
    have keeps : KeepsBlocks c (Transmit.readyQueues time.ackClock c.pendingQueues c) := by
      rw [same]
      exact ⟨⟨_, _, _, rfl⟩, rfl⟩
    have sent : (Transmit.readyQueues time.ackClock c.pendingQueues c).sent = c.sent := by
      rw [same]
    have readied := accurate.readyQueues time.ackClock c.pendingQueues
    have room := needAck_window noDebug (Bool.eq_false_of_not_eq_true waits)
    generalize Transmit.readyQueues time.ackClock c.pendingQueues c = after at keeps sent readied
    have checks : ∀ {now : Bool}, (now = true → after.link.readyBytes ≠ 0) → Checks c now after :=
      fun ready => ⟨readied, keeps, sent, fun _ => room, ready⟩
    dsimp only
    split
    · rename_i enough
      refine checks (fun _ none => ?_)
      rw [none] at enough
      exact absurd enough (by decide)
    · split
      · exact checks (fun some => bne_iff_ne.mp some)
      · rename_i delta isDelta
        refine checks (fun now none => ?_)
        have early := of_decide_eq_true now
        rw [minReadyClock_of_none time (readied.noReady none)] at early
        have := inRange delta isDelta
        omega

/-- What `build_and_send_command` does when some message is ready. -/
structure Builds (c after : Transmit) (content : Bytes) : Prop where
  accurate : Accurate after
  link : ∃ readyBytes upcomingBytes notifyQueue, after.link = { c.link with
    readyBytes, upcomingBytes, notifyQueue
    sendSeq := c.link.sendSeq + 1
    needAckBytes := c.link.needAckBytes + (addFrame (sequenceByte c.link.sendSeq) content).length
    sentQueue := c.link.sentQueue ++ [addFrame (sequenceByte c.link.sendSeq) content] }
  built : after.built = c.built ++ [content]
  sent : ∃ taken : List (Nat × QueueMessage), after.sent = c.sent ++ taken ∧
    content = (taken.map (fun s => s.2.msg)).flatten
  short : content.length ≤ MESSAGE_PAYLOAD_MAX
  some : content ≠ []

theorem Accurate.build (accurate : Accurate c) (ready : c.link.readyBytes ≠ 0) :
    ∃ after content, c.buildAndSendCommand = some after ∧ Builds c after content := by
  obtain ⟨filled, content, fills, spec⟩ := accurate.fillBlock (Nat.lt_succ_self c.readyCount)
      (show ([] : Bytes).length ≤ MESSAGE_PAYLOAD_MAX from Nat.zero_le _)
  obtain ⟨_, _, _, link⟩ := spec.keeps.link
  refine ⟨_, content, congrArg (Option.map _) fills, ?_⟩
  refine ⟨{ spec.accurate with }, ?_, ?_, spec.sent, spec.short, spec.some rfl ready⟩
  · simp only [link]
    exact ⟨_, _, _, rfl⟩
  · simp only [spec.keeps.built]

/-! ### All runs -/

structure Inv (c : Transmit) : Prop where
  accurate : Accurate c
  windowed : Windowed c.link
  blocks : c.built.flatten = (c.sent.map (fun s => s.2.msg)).flatten
  nonempty : ∀ content ∈ c.built, content ≠ []

theorem alloc_inv (receiveWindow : Int) : Inv (alloc receiveWindow) where
  accurate := alloc_accurate receiveWindow
  windowed := ⟨rfl, rfl, Nat.zero_le _, rfl, nofun⟩
  blocks := rfl
  nonempty := nofun

theorem Accurate.of_link (accurate : Accurate c) {link : Serialqueue}
    (readyBytes : link.readyBytes = c.link.readyBytes)
    (upcomingBytes : link.upcomingBytes = c.link.upcomingBytes) : Accurate { c with link } where
  number := accurate.number
  nodup := accurate.nodup
  pending_iff := accurate.pending_iff
  readyBytes := readyBytes.trans accurate.readyBytes
  upcomingBytes := upcomingBytes.trans accurate.upcomingBytes
  valid := accurate.valid
  order := accurate.order

variable {after : Transmit}

theorem Checks.inv {now : Bool} (checks : Checks c now after) (inv : Inv c) : Inv after where
  accurate := checks.accurate
  windowed := by
    obtain ⟨_, _, _, link⟩ := checks.keeps.link
    rw [link]
    exact { inv.windowed with }
  blocks := by
    rw [checks.keeps.built, checks.sent]
    exact inv.blocks
  nonempty := by
    rw [checks.keeps.built]
    exact inv.nonempty

theorem Builds.inv (builds : Builds c after content) (inv : Inv c)
    (room : c.link.sendSeq - c.link.receiveSeq < MAX_PENDING_BLOCKS) : Inv after := by
  have frameLength := addFrame_length (sequenceByte c.link.sendSeq) content
  have sent := inv.windowed.sent
  obtain ⟨_, _, _, link⟩ := builds.link
  refine ⟨builds.accurate, ?_, ?_, ?_⟩
  · rw [link]
    refine ⟨inv.windowed.noDebug, ?_, ?_, ?_, ?_⟩
    · rw [length_append, length_singleton]
      dsimp only
      omega
    · rw [length_append, length_singleton]
      omega
    · rw [bytesOf_append, inv.windowed.needAckBytes]
      rfl
    · refine forall_mem_append.mpr ⟨inv.windowed.short, forall_mem_singleton.mpr ?_⟩
      rw [frameLength]
      exact Nat.add_le_add_right builds.short MESSAGE_MIN
  · obtain ⟨taken, isSent, isContent⟩ := builds.sent
    rw [builds.built, isSent, flatten_append, inv.blocks, map_append, flatten_append,
      isContent, flatten_singleton]
  · rw [builds.built]
    exact forall_mem_append.mpr ⟨inv.nonempty, forall_mem_singleton.mpr builds.some⟩

theorem serialqueueSend_blocks (c : Transmit) (cq : Nat) (qm : QueueMessage) :
    KeepsBlocks c (c.serialqueueSend cq qm) ∧ (c.serialqueueSend cq qm).sent = c.sent := by
  simp only [serialqueueSend, serialqueueSendBatch]
  split
  · exact ⟨.refl c, rfl⟩
  · exact ⟨⟨⟨_, _, _, rfl⟩, rfl⟩, rfl⟩

theorem Inv.commandEvent (inv : Inv c) {time : SendTime} (inRange : time.InRange)
    (steps : c.commandEvent time = some after) : Inv after := by
  have checks := inv.accurate.checkSendCommand inv.windowed.noDebug inRange
  simp only [Transmit.commandEvent] at steps
  split at steps
  · rename_i now
    have room := checks.room now
    obtain ⟨_, _, _, link⟩ := checks.keeps.link
    obtain ⟨last, content, isLast, builds⟩ := checks.accurate.build (checks.ready now)
    rw [isLast] at steps
    cases steps
    exact builds.inv (checks.inv inv) (by rw [link]; exact room)
  · cases steps
    exact checks.inv inv

/-- Input changes no counter of queued messages. -/
theorem inputFrame_counters (sq : Serialqueue) (frame : Bytes) :
    (inputFrame sq frame).readyBytes = sq.readyBytes ∧
      (inputFrame sq frame).upcomingBytes = sq.upcomingBytes := by
  unfold inputFrame handleMessage processMessage notifyAcknowledged updateReceiveSeq
  dsimp only
  repeat' split
  all_goals exact ⟨rfl, rfl⟩

theorem Inv.step (inv : Inv c) {input : TransmitInput} (steps : c.step input = some after) :
    Inv after := by
  cases input with
  | send cq qm =>
    cases steps
    obtain ⟨same, sent⟩ := serialqueueSend_blocks c cq qm.val
    exact Checks.inv (@Checks.mk c false _ (inv.accurate.send cq qm.property) same sent
      nofun nofun) inv
  | commandEvent time => exact inv.commandEvent time.property steps
  | input frame =>
    cases steps
    obtain ⟨readyBytes, upcomingBytes⟩ := inputFrame_counters c.link frame
    exact ⟨inv.accurate.of_link readyBytes upcomingBytes, inv.windowed.inputFrame frame, inv.blocks,
      inv.nonempty⟩
  | retransmit =>
    cases steps
    exact ⟨inv.accurate.of_link rfl rfl, { inv.windowed with }, inv.blocks, inv.nonempty⟩

/-- The states in which all queues, counters and sequence numbers agree, and from
which the next block can be built. -/
structure WellFormed (c : Transmit) : Prop where
  sentQueue : c.link.receiveSeq + c.link.sentQueue.length = c.link.sendSeq
  pendingBlocks : c.link.sentQueue.length ≤ 12
  retransmitBuffer : c.retransmitBuffer.length ≤ 12 * 64 + 1
  needAckBytes : c.link.needAckBytes = bytesOf c.link.sentQueue
  readyBytes : c.link.readyBytes = c.total (fun q => messageBytes q.readyQueue)
  upcomingBytes : c.link.upcomingBytes = c.total (fun q => messageBytes q.upcomingQueue)
  pendingOnce : c.pendingQueues.Nodup
  pendingQueues : ∀ cq, cq ∈ c.pendingQueues ↔
    (c.commandQueues cq).readyQueue ++ (c.commandQueues cq).upcomingQueue ≠ []
  /-- What is sent is what was queued, in this order. -/
  order : ∀ cq, c.sentFrom cq ++
    ((c.commandQueues cq).readyQueue ++ (c.commandQueues cq).upcomingQueue) = c.queued cq
  blocks : c.built.flatten = (c.sent.map (fun s => s.2.msg)).flatten
  nonempty : ∀ content ∈ c.built, content ≠ []
  finds : c.link.readyBytes ≠ 0 → (lowestReady c.pending none).isSome
  /-- Whenever a block is to be sent now, it is built and not empty. -/
  builds : ∀ time : SendTime, time.InRange → (c.checkSendCommand time).2 = true →
    ∃ after content, (c.checkSendCommand time).1.buildAndSendCommand = some after ∧
      after.built = c.built ++ [content] ∧ content ≠ []

theorem Inv.wellFormed (inv : Inv c) : WellFormed c where
  sentQueue := inv.windowed.sent
  pendingBlocks := inv.windowed.blocks
  retransmitBuffer := Nat.succ_le_succ inv.windowed.flatten_length
  needAckBytes := inv.windowed.needAckBytes
  readyBytes := inv.accurate.readyBytes
  upcomingBytes := inv.accurate.upcomingBytes
  pendingOnce := inv.accurate.nodup
  pendingQueues := inv.accurate.pending_iff
  order := inv.accurate.order
  blocks := inv.blocks
  nonempty := inv.nonempty
  finds := by
    intro some
    obtain ⟨_, _, _, lowest, _⟩ := inv.accurate.finds some
    rw [lowest]
    rfl
  builds := by
    intro time inRange now
    have checks := inv.accurate.checkSendCommand inv.windowed.noDebug inRange
    obtain ⟨after, content, builds, spec⟩ := checks.accurate.build (checks.ready now)
    exact ⟨after, content, builds, spec.built.trans (by rw [checks.keeps.built]), spec.some⟩

theorem Inv.of_reachable
    (reached : Reachable (fun first => ∃ receiveWindow, first = alloc receiveWindow) Transmit.step c) :
    Inv c := by
  refine reached.induct_invariant ?_ ?_
  · rintro first ⟨receiveWindow, rfl⟩ _
    exact alloc_inv receiveWindow
  · intro state input after _ _ steps inv
    exact inv.step steps

/-- In every state that sending messages, command events, incoming messages and
retransmits reach from `serialqueue_alloc`, the transmit queues are well formed. -/
theorem transmit_queues_wellFormed {c : Transmit}
    (reached : Reachable (fun first => ∃ receiveWindow, first = alloc receiveWindow) step c) :
    WellFormed c :=
  (Inv.of_reachable reached).wellFormed

/-- Two messages of one queue fill a block, a third one of another queue waits; an
ack then empties the sent queue. -/
def transmitInputs : List TransmitInput :=
  [ .send 3 ⟨⟨List.replicate 40 1, 0, 500, 0⟩, by decide, by decide, by decide⟩,
    .send 3 ⟨⟨[2], 0, 600, 7⟩, by decide, by decide, by decide⟩,
    .send 5 ⟨⟨List.replicate 40 4, 0, 700, 0⟩, by decide, by decide, by decide⟩,
    .commandEvent ⟨⟨100, none, 0⟩, nofun⟩,
    .retransmit,
    .input (addFrame (sequenceByte 2) []) ]

theorem transmit_queues_wellFormed_acknowledged : ∃ c : Transmit,
    c.built = [List.replicate 40 1 ++ [2]] ∧ c.pendingQueues = [5] ∧ c.link.sentQueue = [] ∧
      c.link.receiveSeq = 2 ∧ WellFormed c := by
  obtain ⟨c, reached, built, pending, sentQueue, receiveSeq⟩ := exists_reachable
    (fun first => ∃ receiveWindow, first = alloc receiveWindow) step (alloc 192) ⟨192, rfl⟩ transmitInputs
    (fun c => c.built = [replicate 40 1 ++ [2]] ∧ c.pendingQueues = [5] ∧
      c.link.sentQueue = [] ∧ c.link.receiveSeq = 2) (by decide +kernel)
  exact ⟨c, built, pending, sentQueue, receiveSeq, transmit_queues_wellFormed reached⟩

end Transmit

end MagnetoX.Serial
