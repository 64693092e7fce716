import MagnetoX.Serial.TransmitInvariant

/-!
Owns the connection between the two models of the transmit queues: with the
pending command queues put into the list, every step of `Transmit` is the step of
`Serialqueue`. The list holds the command queues by value there, so the order of
`pending_queues` and what is on it must agree at each step.
-/

namespace MagnetoX.Serial.Transmit

open Message Library.Run List

variable {c after : Transmit}

def withQueues (sq : Serialqueue) (pendingQueues : List CommandQueue) : Serialqueue :=
  { sq with pendingQueues }

def toSerialqueue (c : Transmit) : Serialqueue := withQueues c.link c.pending

theorem toSerialqueue_eq {sq : Serialqueue} (pending : c.pending = sq.pendingQueues)
    (link : withQueues c.link sq.pendingQueues = sq) : c.toSerialqueue = sq := by
  rw [toSerialqueue, pending, link]

/-- Changing one command queue by its number is changing it in the list. -/
theorem Accurate.map_update (accurate : Accurate c) (cq : Nat) (change : CommandQueue → CommandQueue) :
    c.pendingQueues.map (Function.update c.commandQueues cq (change (c.commandQueues cq))) =
      c.pending.map (fun q => if q.number = cq then change q else q) := by
  rw [pending, map_map]
  refine map_congr_left (fun i _ => ?_)
  rw [Function.comp_apply, accurate.number]
  by_cases same : i = cq
  · subst same
    simp
  · simp [same]

theorem Accurate.any_number (accurate : Accurate c) (cq : Nat) :
    (c.pending.any (fun q => q.number == cq)) = true ↔ cq ∈ c.pendingQueues := by
  simp [pending, accurate.number]

theorem Accurate.refines_send (accurate : Accurate c) (cq : Nat) (msgs : List QueueMessage) :
    (c.serialqueueSendBatch cq msgs).toSerialqueue =
      Serial.serialqueueSendBatch c.toSerialqueue cq msgs := by
  unfold Transmit.serialqueueSendBatch Serial.serialqueueSendBatch
  dsimp only
  split
  · rfl
  · refine toSerialqueue_eq ?_ rfl
    have isPending := accurate.pending_iff cq
    rw [Ne, ← isEmpty_iff] at isPending
    by_cases empty :
        ((c.commandQueues cq).readyQueue.isEmpty && (c.commandQueues cq).upcomingQueue.isEmpty) = true
    · have notPending : cq ∉ c.pendingQueues := fun inside => isPending.mp inside empty
      have notAny : ¬ (c.toSerialqueue.pendingQueues.any (fun q => q.number == cq)) = true :=
        fun any => notPending ((accurate.any_number cq).mp any)
      have old : c.pendingQueues.map (Function.update c.commandQueues cq { c.commandQueues cq with
            upcomingQueue := (c.commandQueues cq).upcomingQueue ++ msgs.map setMinClock }) =
          c.pending := by
        refine map_congr_left (fun i inside => Function.update_of_ne ?_ _ _)
        rintro rfl
        exact notPending inside
      rw [if_neg notAny]
      simp only [pending, empty, if_true, setQueue, map_append, old, map_cons, map_nil,
        Function.update_self]
      rw [Bool.and_eq_true, List.isEmpty_iff, List.isEmpty_iff] at empty
      rw [empty.1, empty.2, accurate.number]
      rfl
    · have any : (c.toSerialqueue.pendingQueues.any (fun q => q.number == cq)) = true :=
        (accurate.any_number cq).mpr (isPending.mpr empty)
      rw [if_pos any]
      simp only [pending, empty, if_false, Bool.false_eq_true]
      exact accurate.map_update cq
        (fun q => { q with upcomingQueue := q.upcomingQueue ++ msgs.map setMinClock })

theorem readyQueues_commandQueues (ackClock : Nat) {queues : List Nat} (nodup : queues.Nodup)
    (c : Transmit) (cq : Nat) :
    (readyQueues ackClock queues c).commandQueues cq =
      if cq ∈ queues then (c.commandQueues cq).ready ackClock else c.commandQueues cq := by
  induction queues generalizing c with
  | nil => rfl
  | cons first queues ih =>
    obtain ⟨fresh, nodup⟩ := nodup_cons.mp nodup
    rw [readyQueues, ih nodup]
    by_cases same : cq = first
    · subst same
      simp [fresh, readyMessages, setQueue]
    · simp [same, readyMessages, setQueue]

section

variable (accurate : Accurate c)
include accurate

theorem Accurate.refines_checkSendCommand (time : SendTime) :
    ((c.checkSendCommand time).1.toSerialqueue, (c.checkSendCommand time).2) =
      Serial.checkSendCommand c.toSerialqueue time := by
  obtain ⟨_, ready⟩ := readyQueues_eq time.ackClock accurate.nodup c
  have readied : (Transmit.readyQueues time.ackClock c.pendingQueues c).pending =
      c.pending.map (fun q => q.ready time.ackClock) := by
    rw [pending, show (Transmit.readyQueues time.ackClock c.pendingQueues c).pendingQueues =
      c.pendingQueues by rw [ready], pending, map_map]
    refine map_congr_left (fun i inside => ?_)
    rw [readyQueues_commandQueues _ accurate.nodup, if_pos inside]
    rfl
  have bytes : (c.pending.map (fun q => q.readied time.ackClock)) =
      c.pendingQueues.map (fun cq => (c.commandQueues cq).readied time.ackClock) := by
    rw [pending, map_map]
    rfl
  unfold Transmit.checkSendCommand Serial.checkSendCommand
  have same : needAck c.toSerialqueue = needAck c.link := rfl
  rw [same]
  by_cases waits : needAck c.link = true
  · rw [if_pos waits, if_pos waits]
  · rw [if_neg waits, if_neg waits]
    have isReadied : (Transmit.readyQueues time.ackClock c.pendingQueues c).toSerialqueue =
        { c.toSerialqueue with
          pendingQueues := c.toSerialqueue.pendingQueues.map (fun q => q.ready time.ackClock)
          upcomingBytes := c.toSerialqueue.upcomingBytes -
            (c.toSerialqueue.pendingQueues.map (fun q => q.readied time.ackClock)).sum
          readyBytes := c.toSerialqueue.readyBytes +
            (c.toSerialqueue.pendingQueues.map (fun q => q.readied time.ackClock)).sum } := by
      refine toSerialqueue_eq readied ?_
      rw [ready]
      simp only [toSerialqueue, withQueues, bytes]
    let decides : Serialqueue → Serialqueue × Bool := fun sq =>
      if sq.readyBytes ≥ (MESSAGE_PAYLOAD_MAX : Int) then (sq, true)
      else time.reqclockDelta.elim (sq, sq.readyBytes != 0) (fun delta =>
        (sq, decide (minReadyClock time sq.pendingQueues ≤ time.ackClock + delta)))
    refine Eq.trans ?_ ((congrArg decides isReadied).trans ?_)
    · generalize Transmit.readyQueues time.ackClock c.pendingQueues c = after
      have readyBytes : after.toSerialqueue.readyBytes = after.link.readyBytes := rfl
      simp only [decides, readyBytes]
      split
      · rfl
      · cases time.reqclockDelta <;> rfl
    · dsimp only [decides]
      cases time.reqclockDelta <;> rfl

theorem Accurate.removeReady_eq (cq : Nat) (qm : QueueMessage) :
    removeReady cq c.pending = (c.takeMessage cq qm).pending := by
  rw [removeReady, ← accurate.map_update cq (fun q => { q with readyQueue := q.readyQueue.tail }),
    filter_map]
  refine congrArg (map _) ?_
  unfold Transmit.takeMessage
  dsimp only
  split
  · rename_i empty
    rw [accurate.nodup.erase_eq_filter]
    refine filter_congr (fun i _ => ?_)
    by_cases same : i = cq
    · subst same
      simpa [accurate.number] using empty
    · simp [beq_eq_false_iff_ne.mpr same, same, accurate.number, bne]
  · rename_i some
    refine filter_eq_self.mpr (fun i _ => ?_)
    by_cases same : i = cq
    · subst same
      rw [Bool.and_eq_true, not_and_or] at some
      simpa [accurate.number] using some
    · simp [same, accurate.number]

theorem Accurate.refines_fillBlock (fuel : Nat) (content : Bytes) :
    (Transmit.fillBlock fuel c content).map (fun r => (r.1.toSerialqueue, r.2)) =
      Serial.fillBlock fuel c.toSerialqueue content := by
  induction fuel generalizing c content with
  | zero => rfl
  | succ fuel ih =>
    rw [Transmit.fillBlock, Serial.fillBlock]
    by_cases ready : c.link.readyBytes = 0
    · rw [if_pos ready, if_pos (show c.toSerialqueue.readyBytes = 0 from ready)]
      rfl
    · rw [if_neg ready, if_neg (show ¬ c.toSerialqueue.readyBytes = 0 from ready)]
      obtain ⟨cq, qm, rest, lowest, _, isReady⟩ := accurate.finds ready
      have sameLowest : lowestReady c.toSerialqueue.pendingQueues none = some (cq, qm) := lowest
      simp only [lowest, sameLowest]
      split
      · rfl
      · rw [ih (accurate.takeMessage isReady)]
        congr 1
        exact toSerialqueue_eq (accurate.removeReady_eq cq qm).symm rfl

theorem Accurate.refines_build :
    c.buildAndSendCommand.map toSerialqueue = (Serial.buildAndSendCommand c.toSerialqueue).map Prod.fst := by
  have fills := accurate.refines_fillBlock (c.readyCount + 1) []
  unfold Transmit.buildAndSendCommand Serial.buildAndSendCommand
  dsimp only
  have same : (c.toSerialqueue.pendingQueues.map (fun q => q.readyQueue.length)).sum + 1 = c.readyCount + 1 := rfl
  rw [same, ← fills, Option.map_map, Option.map_map, Option.map_map]
  rfl

end

section Receiving

variable (sq : Serialqueue) (pendingQueues : List CommandQueue)

theorem processMessage_withQueues (rseq : Nat) (frame : Bytes) :
    processMessage rseq frame (withQueues sq pendingQueues) =
      withQueues (processMessage rseq frame sq) pendingQueues := by
  simp only [processMessage, apply_ite (fun sq => withQueues sq pendingQueues)]
  rfl

theorem handleMessage_withQueues (frame : Bytes) :
    handleMessage (withQueues sq pendingQueues) frame = withQueues (handleMessage sq frame) pendingQueues := by
  have number : frameSeq (withQueues sq pendingQueues) frame = frameSeq sq frame := rfl
  have updated : ∀ rseq, updateReceiveSeq (withQueues sq pendingQueues) rseq =
      withQueues (updateReceiveSeq sq rseq) pendingQueues := fun _ => rfl
  have notified : ∀ wakeSeq sq, notifyAcknowledged wakeSeq (withQueues sq pendingQueues) =
      withQueues (notifyAcknowledged wakeSeq sq) pendingQueues := fun _ _ => rfl
  simp only [handleMessage, number, updated, ← apply_ite (fun sq => withQueues sq pendingQueues),
    notified, processMessage_withQueues]
  rfl

theorem inputFrame_withQueues (frame : Bytes) :
    inputFrame (withQueues sq pendingQueues) frame = withQueues (inputFrame sq frame) pendingQueues := by
  simp only [inputFrame]
  rw [apply_ite (fun sq => withQueues sq pendingQueues), ← handleMessage_withQueues]
  rfl

end Receiving

/-- One step of `Serialqueue`. A command event that builds no block only makes
messages ready. -/
def abstractStep (sq : Serialqueue) : TransmitInput → Option Serialqueue
  | .send cq qm => some (Serial.serialqueueSendBatch sq cq [qm.val])
  | .commandEvent time =>
      if (Serial.checkSendCommand sq time.val).2 then
        (Serial.buildAndSendCommand (Serial.checkSendCommand sq time.val).1).map Prod.fst
      else some (Serial.checkSendCommand sq time.val).1
  | .input frame => some (inputFrame sq frame)
  | .retransmit => some (retransmitEvent sq)

/-- Steps with command queues as objects are steps with command queues by value. -/
theorem Inv.refines_step (inv : Inv c) (input : TransmitInput) :
    (c.step input).map toSerialqueue = abstractStep c.toSerialqueue input := by
  cases input with
  | send cq qm => exact congrArg some (inv.accurate.refines_send cq [qm.val])
  | commandEvent time =>
    have checks := inv.accurate.checkSendCommand inv.windowed.noDebug time.property
    have same := inv.accurate.refines_checkSendCommand time.val
    simp only [Transmit.step, Transmit.commandEvent, abstractStep, ← same]
    split
    · exact checks.accurate.refines_build
    · rfl
  | input frame => exact congrArg some (inputFrame_withQueues c.link c.pending frame).symm
  | retransmit => rfl

/-- Every run with command queues as objects is a run of `Serialqueue`. -/
theorem toSerialqueue_reachable
    (reached : Reachable (fun first => ∃ receiveWindow, first = alloc receiveWindow) step c) :
    Reachable (fun first => ∃ receiveWindow, first = (alloc receiveWindow).toSerialqueue) abstractStep
      c.toSerialqueue := by
  induction reached with
  | initial begins _ =>
    obtain ⟨receiveWindow, rfl⟩ := begins
    exact .initial ⟨receiveWindow, rfl⟩ trivial
  | @next _ _ input before steps _ ih =>
    refine ih.after input ?_
    rw [← (Inv.of_reachable before).refines_step, steps]
    rfl

end MagnetoX.Serial.Transmit
