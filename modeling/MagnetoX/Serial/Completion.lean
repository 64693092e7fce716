import MagnetoX.Serial.Session

/-!
Owns when a command is complete. The host infers it from the sequence of a frame,
which the micro-controller advances before it dispatches a block: an ack with the
number `seq` tells that every block before `seq` is dispatched, any other frame
only that every block before `seq - 1` is.

The invariant says this of the frames on their way, and that none of them wakes
the block that a response behind it belongs to.
-/

namespace MagnetoX.Serial

open Message Library.Run List

/-! ### What a frame appends to the receive queue -/

section Received

variable {sq after : Serialqueue} {seq : Nat} {content frame : Bytes}

/-- The effect of `handle_message` on the two queues: messages that wait for the
blocks up to `wake_seq` are woken, and a frame with content is appended. -/
structure Handles (sq after : Serialqueue) (wake : Int) (frame : Bytes) : Prop where
  queues : ∃ woken, sq.notifyQueue = woken ++ after.notifyQueue ∧
    (∀ qm ∈ woken, (qm.reqClock : Int) ≤ wake) ∧
    after.receiveQueue = sq.receiveQueue ++ woken.map (fun qm => .notify qm.notifyId) ++
      if frame.length = MESSAGE_MIN then [] else [.message frame]

/-- The entries that are appended, with the blocks they belong to. -/
theorem Handles.appended {wake : Int} (handles : Handles sq after wake frame)
    (response : Option Response) :
    ∃ woken : List QueueMessage, (∀ qm ∈ woken, (qm.reqClock : Int) ≤ wake) ∧
      Serial.appended sq after response =
        woken.map (fun qm => .completion qm.reqClock qm.notifyId) ++
          (if frame.length = MESSAGE_MIN then [] else [.message frame response]) ∧
      after.receiveQueue =
        sq.receiveQueue ++ (Serial.appended sq after response).map Entry.received := by
  obtain ⟨woken, notify, early, receive⟩ := handles.queues
  have isNew : Serial.appended sq after response =
      woken.map (fun qm => .completion qm.reqClock qm.notifyId) ++
        if frame.length = MESSAGE_MIN then [] else [.message frame response] := by
    unfold Serial.appended
    have count : sq.notifyQueue.length - after.notifyQueue.length = woken.length := by
      rw [notify, length_append, Nat.add_sub_cancel]
    have none : (woken.map (fun qm => Received.notify qm.notifyId)).filterMap
        (Received.entry response) = [] := by
      rw [filterMap_map]
      exact filterMap_eq_nil_iff.mpr (fun _ _ => rfl)
    rw [count, receive, append_assoc, drop_left, notify, take_left,
      filterMap_append, none, nil_append]
    split
    · rfl
    · rfl
  refine ⟨woken, early, isNew, ?_⟩
  rw [isNew, receive, map_append, map_map, append_assoc]
  split
  · rfl
  · rfl

/-- A frame of the micro-controller, read in sync. -/
theorem inputFrame_handles (window : InWindow sq seq) (inSync : sq.needSync = false)
    (short : content.length ≤ MESSAGE_PAYLOAD_MAX) (started : 2 ≤ seq) :
    Handles sq (inputFrame sq (addFrame (sequenceByte seq) content))
      (wakeSeq seq (addFrame (sequenceByte seq) content)) (addFrame (sequenceByte seq) content) := by
  rw [inputFrame_inSync window inSync short, unsignedSeq_wakeSeq started]
  generalize addFrame (sequenceByte seq) content = frame
  have handled : ∀ middle : Serialqueue, middle.notifyQueue = sq.notifyQueue →
      middle.receiveQueue = sq.receiveQueue → Handles sq
        (processMessage seq frame (notifyAcknowledged (wakeSeq seq frame) middle))
        (wakeSeq seq frame) frame := by
    intro middle notify receive
    obtain ⟨_, _, -, processed⟩ := processMessage_eq seq frame
      (notifyAcknowledged (wakeSeq seq frame) middle)
    rw [processed]
    refine ⟨sq.notifyQueue.takeWhile (fun qm => decide ((qm.reqClock : Int) ≤ wakeSeq seq frame)),
      ?_, ?_, ?_⟩
    · rw [notifyAcknowledged, notify]
      exact (prefix_iff_eq_append.mp (List.takeWhile_prefix _)).symm
    · intro qm woken
      exact of_decide_eq_true (all_eq_true.mp all_takeWhile qm woken)
    · rw [notifyAcknowledged, notify, receive]
  split
  · exact handled _ rfl rfl
  · exact handled _ rfl rfl

end Received

/-! ### The invariant -/

def Sent.Wakes (sent : Sent) (block : Nat) : Prop :=
  ∃ bytes ∈ sent.frame.bytes, (block : Int) ≤ wakeSeq sent.frame.seq bytes

structure Progress (s : Session) : Prop where
  dispatched : ∀ sent ∈ s.toHost, ∀ block, sent.Wakes block → block < s.finished
  own : ∀ sent ∈ s.toHost, ∀ response ∈ sent.response, ¬ sent.Wakes response.block ∧
    ∀ bytes ∈ sent.frame.bytes, bytes.length ≠ MESSAGE_MIN
  order : s.toHost.Pairwise (fun ahead behind =>
    ∀ response ∈ behind.response, ¬ ahead.Wakes response.block)
  completed : ∀ block notifyId, .completion block notifyId ∈ s.entries → block < s.finished ∧
    ∀ sent ∈ s.toHost, ∀ response ∈ sent.response, response.block ≠ block
  kept : ∀ response ∈ s.intact, ∃ frame, .message frame (some response) ∈ s.entries
  placed : ∀ before rest block notifyId, s.entries = before ++ .completion block notifyId :: rest →
    ∀ response ∈ s.intact, response.block = block →
      ∃ frame, .message frame (some response) ∈ before

theorem Session.Starts.progress {s : Session} (starts : s.Starts) : Progress s := by
  have channel : s.toHost = [] := map_eq_nil_iff.mp starts.link.toHost
  have entries := starts.entries
  have intact := starts.intact
  refine ⟨?_, ?_, ?_, ?_, ?_, ?_⟩
  · rw [channel]
    exact nofun
  · rw [channel]
    exact nofun
  · rw [channel]
    exact .nil
  · rw [entries]
    exact nofun
  · rw [intact]
    exact nofun
  · rw [intact]
    exact nofun

section Steps

variable {s after : Session} {content : Bytes}

theorem Progress.fewer (progress : Progress s) {left : List Sent} (fewer : left.Sublist s.toHost)
    (toHost : after.toHost = left) (finished : s.finished ≤ after.finished)
    (entries : after.entries = s.entries) (intact : after.intact = s.intact) : Progress after := by
  refine ⟨?_, ?_, ?_, ?_, ?_, ?_⟩
  · rw [toHost]
    intro sent member block wakes
    exact (progress.dispatched sent (fewer.subset member) block wakes).trans_le finished
  · rw [toHost]
    exact fun sent member => progress.own sent (fewer.subset member)
  · rw [toHost]
    exact progress.order.sublist fewer
  · rw [toHost, entries]
    intro block notifyId member
    obtain ⟨below, apart⟩ := progress.completed block notifyId member
    exact ⟨below.trans_le finished, fun sent isSent => apart sent (fewer.subset isSent)⟩
  · rw [entries, intact]
    exact progress.kept
  · rw [entries, intact]
    exact progress.placed

theorem Progress.send (progress : Progress s) {sent : Sent}
    (dispatched : ∀ block, sent.Wakes block → block < s.finished)
    (own : ∀ response ∈ sent.response, response.block = s.finished ∧
      ∀ bytes ∈ sent.frame.bytes, bytes.length ≠ MESSAGE_MIN) :
    Progress { s with toHost := s.toHost ++ [sent] } := by
  refine ⟨?_, ?_, ?_, ?_, progress.kept, progress.placed⟩
  · intro other member block wakes
    rcases mem_append.mp member with old | new
    · exact progress.dispatched other old block wakes
    · rw [mem_singleton.mp new] at wakes
      exact dispatched block wakes
  · intro other member response isResponse
    rcases mem_append.mp member with old | new
    · exact progress.own other old response isResponse
    · rw [mem_singleton.mp new] at isResponse ⊢
      obtain ⟨isBlock, long⟩ := own response isResponse
      refine ⟨?_, long⟩
      intro wakes
      exact absurd (dispatched _ wakes) (by rw [isBlock]; exact Nat.lt_irrefl _)
  · apply pairwise_append.mpr ⟨progress.order, pairwise_singleton _ _, ?_⟩
    intro ahead inFront behind inBack response isResponse wakes
    rw [mem_singleton.mp inBack] at isResponse
    have below := progress.dispatched ahead inFront _ wakes
    rw [(own response isResponse).1] at below
    exact Nat.lt_irrefl _ below
  · intro block notifyId member
    obtain ⟨below, apart⟩ := progress.completed block notifyId member
    refine ⟨below, ?_⟩
    intro other isSent response isResponse
    rcases mem_append.mp isSent with old | new
    · exact apart other old response isResponse
    · rw [mem_singleton.mp new] at isResponse
      rw [(own response isResponse).1]
      exact Nat.ne_of_gt below

/-- What a frame with the current sequence tells. -/
theorem Session.reply_wakes {response : Option Response} {block : Nat}
    (wakes : (s.reply content response).Wakes block) :
    block + (if content = [] then 1 else 2) ≤ s.expected := by
  obtain ⟨bytes, isBytes, early⟩ := wakes
  cases isBytes
  have length := addFrame_length s.mcu.nextSequence (content.take MESSAGE_PAYLOAD_MAX)
  change (block : Int) ≤ wakeSeq s.expected _ at early
  rw [wakeSeq, length] at early
  cases content with
  | nil =>
    rw [if_pos rfl]
    omega
  | cons first rest =>
    rw [if_neg (by rintro ⟨⟩)]
    rw [if_pos (by rw [MESSAGE_PAYLOAD_MAX, MESSAGE_MAX, MESSAGE_MIN, take_succ_cons,
      length_cons]; omega)] at early
    omega

open Session

theorem Session.finished_eq {place : Nat} (dispatching : s.dispatching = some place) :
    s.finished = s.expected - 1 := by
  rw [finished, dispatching]
  rfl

theorem Session.finished_idle (dispatching : s.dispatching = none) : s.finished = s.expected := by
  rw [finished, dispatching]
  rfl

theorem Session.expected_le (s : Session) : s.expected ≤ s.finished + 1 := by
  unfold finished
  split
  · omega
  · omega

/-- The host reads a frame: the messages that it wakes are completed, and its
content is appended. -/
theorem Progress.receive (progress : Progress s) {sent : Sent} {toHost : List Sent} {bytes : Bytes}
    (channel : s.toHost = sent :: toHost) (isBytes : sent.frame.bytes = some bytes)
    {woken : List QueueMessage}
    (early : ∀ qm ∈ woken, (qm.reqClock : Int) ≤ wakeSeq sent.frame.seq bytes) (host : Serialqueue) :
    Progress { s with
      host
      toHost
      entries := s.entries ++ (woken.map (fun qm => .completion qm.reqClock qm.notifyId) ++
        if bytes.length = MESSAGE_MIN then [] else [.message bytes sent.response])
      intact := s.intact ++ sent.response.toList } := by
  have first : sent ∈ s.toHost := by
    rw [channel]
    exact .head _
  have later : toHost.Sublist s.toHost := by
    rw [channel]
    exact sublist_cons_self _ _
  have order := progress.order
  rw [channel] at order
  obtain ⟨behind, orderRest⟩ := pairwise_cons.mp order
  -- a completion among the new entries is of a block that the frame wakes
  have wakes : ∀ block notifyId, .completion block notifyId ∈
      woken.map (fun qm => Entry.completion qm.reqClock qm.notifyId) ++
        (if bytes.length = MESSAGE_MIN then [] else [.message bytes sent.response]) →
      sent.Wakes block := by
    intro block notifyId member
    rcases mem_append.mp member with completed | message
    · obtain ⟨qm, isWoken, same⟩ := mem_map.mp completed
      cases same
      exact ⟨bytes, isBytes, early qm isWoken⟩
    · split at message
      · cases message
      · cases mem_singleton.mp message
  -- and a response to such a block has arrived before
  have arrived : ∀ {response}, response ∈ s.intact ++ sent.response.toList → sent.Wakes response.block →
      response ∈ s.intact := by
    intro response member isWoken
    rcases mem_append.mp member with arrived | arrives
    · exact arrived
    · exact absurd isWoken (progress.own sent first response (Option.mem_toList.mp arrives)).1
  refine ⟨?_, ?_, orderRest, ?_, ?_, ?_⟩
  · exact fun other member => progress.dispatched other (later.subset member)
  · exact fun other member => progress.own other (later.subset member)
  · intro block notifyId member
    rcases mem_append.mp member with old | new
    · obtain ⟨below, apart⟩ := progress.completed block notifyId old
      exact ⟨below, fun other isSent => apart other (later.subset isSent)⟩
    · have isWoken := wakes block notifyId new
      refine ⟨progress.dispatched sent first block isWoken, ?_⟩
      intro other isSent response isResponse same
      rw [← same] at isWoken
      exact behind other isSent response isResponse isWoken
  · intro response member
    rcases mem_append.mp member with old | new
    · obtain ⟨frame, isEntry⟩ := progress.kept response old
      exact ⟨frame, mem_append_left _ isEntry⟩
    · have isResponse := Option.mem_toList.mp new
      have long := (progress.own sent first response isResponse).2 bytes isBytes
      refine ⟨bytes, mem_append_right _ (mem_append_right _ ?_)⟩
      rw [if_neg long, ← Option.mem_def.mp isResponse]
      exact .head _
  · intro before rest block notifyId splits response member isBlock
    rcases append_eq_append_iff.mp splits with ⟨more, isBefore, isNew⟩ | ⟨more, isOld, isRest⟩
    · -- the completion is new
      have isWoken := wakes block notifyId (by
        rw [isNew]
        exact mem_append_right _ (.head _))
      obtain ⟨frame, isEntry⟩ := progress.kept response (arrived member (isBlock ▸ isWoken))
      rw [isBefore]
      exact ⟨frame, mem_append_left _ isEntry⟩
    · cases more with
      | nil =>
        have isWoken := wakes block notifyId (by
          rw [nil_append] at isRest
          rw [← isRest]
          exact .head _)
        rw [append_nil] at isOld
        rw [← isOld]
        exact progress.kept response (arrived member (isBlock ▸ isWoken))
      | cons entry more =>
        obtain ⟨rfl, _⟩ := cons_eq_cons.mp isRest
        rcases mem_append.mp member with arrived | arrives
        · exact progress.placed before more block notifyId isOld response arrived isBlock
        · have apart := (progress.completed block notifyId (by
            rw [isOld]
            exact mem_append_right _ mem_cons_self)).2
          exact absurd isBlock (apart sent first response (Option.mem_toList.mp arrives))

theorem appended_nil (sq : Serialqueue) (needSync : Bool) (response : Option Response) :
    appended sq { sq with needSync } response = [] := by
  unfold appended
  rw [Nat.sub_self, drop_length]
  rfl

/-- The host skips the next frame, or handles it. -/
theorem Session.hostReceive_some {start : Nat} (started : 2 ≤ start) (inv : Inv start s.link) {needSync : Bool}
    (steps : s.hostReceive needSync = some after) :
    ∃ sent toHost host, s.toHost = sent :: toHost ∧
      ((host.receiveQueue = s.host.receiveQueue ∧ after = { s with host, toHost }) ∨
        ∃ bytes, sent.frame.bytes = some bytes ∧
          Handles s.host host (wakeSeq sent.frame.seq bytes) bytes ∧
          after = { s with
            host
            toHost
            entries := s.entries ++ appended s.host host sent.response
            intact := s.intact ++ sent.response.toList }) := by
  unfold hostReceive at steps
  split at steps
  · cases steps
  · rename_i sent toHost channel
    refine ⟨sent, toHost, after.host, channel, ?_⟩
    split at steps
    · cases steps
      exact .inl ⟨rfl, rfl⟩
    · rename_i bytes isBytes
      cases steps
      have member : sent.frame ∈ s.link.toHost := by
        rw [link, channel]
        exact .head _
      obtain ⟨(window : InWindow s.host sent.frame.seq), content, short, rfl⟩ :=
        inv.reply member isBytes
      cases needSync : s.host.needSync with
      | true =>
        left
        obtain ⟨_, skipped⟩ := inputFrame_outOfSync needSync
          (addFrame (sequenceByte sent.frame.seq) content)
        rw [skipped, appended_nil, append_nil]
        exact ⟨rfl, rfl⟩
      | false =>
        right
        have beyond : start ≤ sent.frame.seq := inv.started.trans window.atLeast
        exact ⟨_, isBytes, inputFrame_handles window needSync short (by omega), rfl⟩

variable (progress : Progress s)
include progress

theorem Progress.hostReceive {start : Nat} (started : 2 ≤ start) (inv : Inv start s.link)
    {needSync : Bool} (steps : s.hostReceive needSync = some after) : Progress after := by
  obtain ⟨sent, toHost, host, channel, ⟨-, rfl⟩ | ⟨bytes, isBytes, handles, rfl⟩⟩ :=
    hostReceive_some started inv steps
  · have later : toHost.Sublist s.toHost := by
      rw [channel]
      exact sublist_cons_self _ _
    exact progress.fewer later rfl le_rfl rfl rfl
  · obtain ⟨woken, early, isNew, -⟩ := handles.appended sent.response
    rw [isNew]
    exact progress.receive channel isBytes early host

theorem Progress.mcuFind {damaged : SyncState} {nakDamaged : Bool}
    (steps : s.mcuFind damaged nakDamaged = some after) : Progress after := by
  unfold Session.mcuFind at steps
  split at steps
  · cases steps
  · rename_i idle
    have finished : s.finished = s.expected :=
      finished_idle (Option.not_isSome_iff_eq_none.mp idle)
    -- a nak says that the blocks before `expected` are dispatched, and they are
    have naks : ∀ (nak : Bool) (nextSequence : UInt8), Progress { s with
        toHost := s.toHost ++
          if nak then [⟨Link.reply nextSequence s.expected [], none⟩] else [] } := by
      intro nak nextSequence
      cases nak with
      | false =>
        exact progress.fewer (Sublist.refl _) (append_nil _) le_rfl rfl rfl
      | true =>
        apply progress.send
        · intro block wakes
          have early := @reply_wakes { s with mcu := ⟨s.mcu.syncState, nextSequence⟩ } []
            none block wakes
          rw [finished]
          exact early
        · exact fun response isResponse => absurd isResponse (Option.not_mem_none response)
    split at steps
    · cases steps
    · cases steps
      exact (naks nakDamaged s.mcu.nextSequence).fewer (Sublist.refl _) rfl le_rfl
        rfl rfl
    · rename_i bytes seq toMcu channel
      dsimp only at steps
      split at steps
      · cases steps
        refine progress.fewer (Sublist.refl _) rfl ?_ rfl rfl
        rw [finished]
        exact le_rfl
      · cases steps
        have replies := naks (commandFindBlock s.mcu.syncState s.mcu.nextSequence bytes).nak
          (commandFindBlock s.mcu.syncState s.mcu.nextSequence bytes).nextSequence
        exact replies.fewer (Sublist.refl _) rfl le_rfl rfl rfl

theorem Progress.mcuRespond (steps : s.mcuRespond content = some after) : Progress after := by
  obtain ⟨nonempty, rfl⟩ := mcuRespond_some steps
  apply progress.send
  · intro block wakes
    have early := reply_wakes wakes
    rw [if_neg nonempty] at early
    have near := s.expected_le
    omega
  · exact fun response isResponse => absurd isResponse (Option.not_mem_none response)

theorem Progress.mcuAnswer (steps : s.mcuAnswer content = some after) :
    Progress after := by
  obtain ⟨place, dispatching, nonempty, rfl⟩ := mcuAnswer_some steps
  have finished := finished_eq dispatching
  have sends : Progress { s with
      toHost := s.toHost ++ [s.reply content (some ⟨s.expected - 1, place⟩)] } := by
    apply progress.send
    · intro block wakes
      have early := reply_wakes wakes
      rw [if_neg nonempty] at early
      omega
    · intro response isResponse
      cases isResponse
      refine ⟨finished.symm, ?_⟩
      intro bytes isBytes
      cases isBytes
      obtain ⟨first, rest, rfl⟩ := exists_cons_of_ne_nil nonempty
      rw [addFrame_length, MESSAGE_PAYLOAD_MAX, MESSAGE_MAX, MESSAGE_MIN, take_succ_cons,
        length_cons]
      omega
  refine sends.fewer (Sublist.refl _) rfl ?_ rfl rfl
  rw [Session.finished, dispatching]
  exact le_rfl

theorem Progress.mcuFinish (steps : s.mcuFinish = some after) : Progress after := by
  obtain ⟨dispatching, rfl⟩ := mcuFinish_some steps
  have ended : Progress { s with dispatching := none } := by
    refine progress.fewer (Sublist.refl _) rfl ?_ rfl rfl
    unfold finished
    rw [if_pos dispatching]
    exact Nat.sub_le _ _
  apply ended.send
  · intro block wakes
    exact reply_wakes wakes
  · exact fun response isResponse => absurd isResponse (Option.not_mem_none response)

theorem Progress.damageToHost (position : Nat) :
    Progress { s with toHost := s.toHost.modify position (fun sent =>
      { sent with frame := { sent.frame with bytes := none } }) } := by
  have silent : ∀ (sent : Sent) block,
      ¬ Sent.Wakes { sent with frame := { sent.frame with bytes := none } } block := by
    rintro sent block ⟨bytes, ⟨⟩, -⟩
  refine ⟨?_, ?_, ?_, ?_, progress.kept, progress.placed⟩
  · exact forall_mem_modify (fun sent _ block wakes => absurd wakes (silent sent block)) progress.dispatched
  · exact forall_mem_modify (fun sent _ response _ => ⟨silent sent _, nofun⟩) progress.own
  · exact pairwise_modify (fun sent _ _ _ _ => silent sent _) (fun _ _ same => same) progress.order
  · intro block notifyId member
    obtain ⟨below, apart⟩ := progress.completed block notifyId member
    exact ⟨below, forall_mem_modify (fun _ same => same) apart⟩

theorem Progress.step {start : Nat} (started : 2 ≤ start) (inv : Inv start s.link) {move : Move}
    (steps : s.step move = some after) : Progress after := by
  have same : ∀ link, Progress (s.sends link) :=
    fun link => progress.fewer (Sublist.refl _) rfl le_rfl rfl rfl
  cases move with
  | queueMessages cq msgs =>
    cases steps
    exact same _
  | sendBlock time =>
    obtain ⟨link, -, rfl⟩ := Option.map_eq_some_iff.mp steps
    exact same link
  | retransmit =>
    cases steps
    exact same _
  | hostReceive needSync => exact progress.hostReceive started inv steps
  | mcuFind damaged nakDamaged => exact progress.mcuFind steps
  | mcuRespond content => exact progress.mcuRespond steps
  | mcuAnswer content => exact progress.mcuAnswer steps
  | mcuFinish => exact progress.mcuFinish steps
  | loseToMcu position =>
    cases steps
    exact progress.fewer (Sublist.refl _) rfl le_rfl rfl rfl
  | loseToHost position =>
    cases steps
    exact progress.fewer (eraseIdx_sublist _ _) rfl le_rfl rfl rfl
  | damageToMcu position =>
    cases steps
    exact progress.fewer (Sublist.refl _) rfl le_rfl rfl rfl
  | damageToHost position =>
    cases steps
    exact progress.damageToHost position

end Steps

/-! ### The entries are the receive queue -/

theorem Session.mcuFind_keeps {s after : Session} {damaged : SyncState} {nakDamaged : Bool}
    (steps : s.mcuFind damaged nakDamaged = some after) :
    after.host = s.host ∧ after.entries = s.entries := by
  unfold mcuFind at steps
  split at steps
  · cases steps
  · split at steps
    · cases steps
    · cases steps
      exact ⟨rfl, rfl⟩
    · dsimp only at steps
      split at steps
      · cases steps
        exact ⟨rfl, rfl⟩
      · cases steps
        exact ⟨rfl, rfl⟩

/-- The entries of a session are what `receive_queue` got. -/
theorem Session.entries_received {first s : Session} (starts : first.Starts)
    (reached : Reachable (fun s => s = first) step s) :
    s.host.receiveQueue = first.host.receiveQueue ++ s.entries.map Entry.received := by
  induction reached with
  | initial begins =>
    rw [begins, starts.entries]
    exact (append_nil _).symm
  | @next state after move before steps _ ih =>
    have inv := inv_of_reachable starts.link (link_reachable before)
    cases move with
    | queueMessages cq msgs =>
      cases steps
      obtain ⟨_, _, same⟩ := serialqueueSendBatch_eq state.host cq msgs
      rw [same]
      exact ih
    | sendBlock time =>
      obtain ⟨link, sends, rfl⟩ := Option.map_eq_some_iff.mp steps
      obtain ⟨⟨host, block⟩, sent, rfl⟩ := Option.map_eq_some_iff.mp sends
      obtain ⟨-, -, -, _, _, _, _, rfl⟩ := sendBlock_eq sent
      exact ih
    | hostReceive needSync =>
      obtain ⟨sent, toHost, host, -, ⟨receive, rfl⟩ | ⟨bytes, -, handles, rfl⟩⟩ :=
        hostReceive_some starts.link.started inv steps
      · exact receive.trans ih
      · change host.receiveQueue = _
        obtain ⟨woken, -, isNew, receive⟩ := handles.appended sent.response
        rw [receive, ih, map_append, append_assoc]
    | mcuFind damaged nakDamaged =>
      obtain ⟨host, entries⟩ := mcuFind_keeps steps
      rw [host, entries]
      exact ih
    | mcuRespond content =>
      obtain ⟨_, rfl⟩ := mcuRespond_some steps
      exact ih
    | mcuAnswer content =>
      obtain ⟨place, _, _, rfl⟩ := mcuAnswer_some steps
      exact ih
    | mcuFinish =>
      obtain ⟨_, rfl⟩ := mcuFinish_some steps
      exact ih
    | retransmit =>
      cases steps
      exact ih
    | loseToMcu position =>
      cases steps
      exact ih
    | loseToHost position =>
      cases steps
      exact ih
    | damageToMcu position =>
      cases steps
      exact ih
    | damageToHost position =>
      cases steps
      exact ih

/-! ### Completion -/

theorem progress_of_reachable {first s : Session} (starts : first.Starts)
    (reached : Reachable (fun s => s = first) Session.step s) : Progress s := by
  induction reached with
  | initial begins =>
    rw [begins]
    exact starts.progress
  | next before steps _ ih =>
    exact ih.step starts.link.started
      (inv_of_reachable starts.link (Session.link_reachable before)) steps

/-- **Completion is sound, and ordered after the responses.** In every session
from a synchronised state, for any interleaving of responses, acks, naks, losses,
damage and retransmissions: when a message of a block is moved from the notify
queue to `receive_queue`, the block is dispatched to its end, and every response
to the block that reached the host intact is on `receive_queue` before it. -/
theorem completion_after_responses {first s : Session} (starts : first.Starts)
    (reached : Reachable (fun s => s = first) Session.step s) :
    s.host.receiveQueue = first.host.receiveQueue ++ s.entries.map Entry.received ∧
      (∀ block notifyId, .completion block notifyId ∈ s.entries → block < s.finished) ∧
      ∀ before rest block notifyId, s.entries = before ++ .completion block notifyId :: rest →
        ∀ response ∈ s.intact, response.block = block →
          ∃ frame, .message frame (some response) ∈ before := by
  have progress := progress_of_reachable starts reached
  refine ⟨Session.entries_received starts reached, ?_, progress.placed⟩
  intro block notifyId member
  exact (progress.completed block notifyId member).1

def opened : Session where
  host := connected.host
  mcu := connected.mcu
  dispatching := none
  toMcu := []
  toHost := []
  built := []
  dispatched := []
  expected := 2
  entries := []
  intact := []

/-- The block of a command is answered, and a sensor reports while it is
dispatched. The ack is lost, and so is the next block; when that is sent again and
arrives damaged, the nak completes the command. -/
theorem completion_after_responses_nakked :
    opened.Starts ∧ ∃ s : Session, s.intact = [⟨2, 0⟩] ∧
      ∃ before, s.entries = before ++ [.completion 2 7] ∧
        ∃ frame, .message frame (some ⟨2, 0⟩) ∈ before := by
  let time : SendTime := ⟨100, none, 0⟩
  let moves : List Move :=
    [.queueMessages 0 [⟨[5, 1], 0, 0, 7⟩], .sendBlock time, .mcuFind ⟨false, false⟩ false,
      .mcuAnswer [9], .hostReceive false, .mcuRespond [8], .mcuFinish, .loseToHost 1,
      .hostReceive false, .queueMessages 0 [⟨[6], 0, 0, 0⟩], .sendBlock time, .loseToMcu 0,
      .retransmit, .damageToMcu 0, .mcuFind ⟨false, false⟩ true, .hostReceive false]
  have result : (run Session.step (fun _ => True) opened moves).map
      (fun s => (s.intact, s.entries.getLast?, s.entries.length)) =
        some ([⟨2, 0⟩], some (.completion 2 7), 3) := by
    decide +kernel
  have starts : opened.Starts :=
    ⟨⟨rfl, rfl, rfl, le_rfl, by decide, rfl, rfl, rfl, rfl, rfl⟩, rfl, rfl, rfl⟩
  obtain ⟨s, executes, facts⟩ := Option.map_eq_some_iff.mp result
  obtain ⟨intact, rest⟩ := Prod.mk.inj facts
  obtain ⟨before, splits⟩ := getLast?_eq_some_iff.mp (Prod.mk.inj rest).1
  refine ⟨starts, s, intact, before, splits, ?_⟩
  apply (completion_after_responses starts (.of_run (fun inside => .initial rfl inside) executes)).2.2
    before [] 2 7 splits ⟨2, 0⟩
  · rw [intact]
    exact .head _
  · rfl

end MagnetoX.Serial
