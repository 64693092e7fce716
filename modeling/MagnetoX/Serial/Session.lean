import Mathlib.Data.List.InsertIdx
import MagnetoX.Serial.Delivery

/-!
Owns the serial link at the grain of `console_task`: a block is found, which
advances the sequence, then `command_dispatch` runs its commands, which may send
responses, and then the block is acknowledged. The host and the channels go on
while a block is dispatched, and other code of the micro-controller may send
responses at any time. A shutdown in the middle of a block is left out.

A frame to the host carries the response to a block that it is, if any, and the
session remembers which responses reached the host, and what went into
`receive_queue` with the blocks it belongs to. No step reads these.

Contract: every session is a run of the link, in which a block is dispatched and
acknowledged in one step.
-/

namespace MagnetoX.Serial

open Message Library.Run List Option

/-- A response sent while a block is dispatched: the block, and its place among
the responses to it. -/
structure Response where
  block : Nat
  place : Nat
deriving DecidableEq, Repr

structure Sent where
  frame : Frame
  response : Option Response
deriving DecidableEq, Repr

inductive Entry where
  | message (frame : Bytes) (response : Option Response)
  | completion (block : Nat) (notifyId : Nat)
deriving DecidableEq, Repr

def Entry.received : Entry → Received
  | .message frame _ => .message frame
  | .completion _ notifyId => .notify notifyId

structure Session where
  host : Serialqueue
  mcu : Receiver
  /-- `command_dispatch` is running, and has sent so many responses. -/
  dispatching : Option Nat
  toMcu : List Frame
  toHost : List Sent
  built : List Bytes
  dispatched : List Bytes
  expected : Nat
  /-- What went into `receive_queue`. -/
  entries : List Entry
  /-- The responses to blocks that reached the host intact. -/
  intact : List Response
deriving DecidableEq, Repr

inductive Move where
  | queueMessages (cq : Nat) (msgs : List QueueMessage)
  | sendBlock (time : SendTime)
  | retransmit
  | hostReceive (needSync : Bool)
  | mcuFind (damaged : SyncState) (nakDamaged : Bool)
  | mcuRespond (content : Bytes)
  | mcuAnswer (content : Bytes)
  | mcuFinish
  | loseToMcu (position : Nat)
  | loseToHost (position : Nat)
  | damageToMcu (position : Nat)
  | damageToHost (position : Nat)
deriving Repr

def Received.entry (response : Option Response) : Received → Option Entry
  | .message frame => some (.message frame response)
  | .notify _ => none

/-- What a call of `handle_message` appended to `receive_queue`: first the
messages that left the notify queue, then the frame itself. -/
def appended (sq after : Serialqueue) (response : Option Response) : List Entry :=
  (sq.notifyQueue.take (sq.notifyQueue.length - after.notifyQueue.length)).map
      (fun qm => .completion qm.reqClock qm.notifyId) ++
    (after.receiveQueue.drop sq.receiveQueue.length).filterMap (Received.entry response)

namespace Session

variable (s : Session)

def link : Link where
  host := s.host
  mcu := s.mcu
  toMcu := s.toMcu
  toHost := s.toHost.map Sent.frame
  built := s.built
  dispatched := s.dispatched
  expected := s.expected

def finished : Nat := if s.dispatching.isSome then s.expected - 1 else s.expected

/-- A step of the host's sender or of the channel behind it. -/
def sends (link : Link) : Session :=
  { s with host := link.host, toMcu := link.toMcu, built := link.built }

/-- The micro-controller sends a frame with its current sequence. -/
def reply (content : Bytes) (response : Option Response) : Sent :=
  ⟨Link.reply s.mcu.nextSequence s.expected content, response⟩

def hostReceive (needSync : Bool) : Option Session :=
  match s.toHost with
  | [] => none
  | sent :: toHost =>
      match sent.frame.bytes with
      | none => some { s with host := { s.host with needSync }, toHost }
      | some bytes =>
          some { s with
            host := inputFrame s.host bytes
            toHost
            entries := s.entries ++ appended s.host (inputFrame s.host bytes) sent.response
            intact := if s.host.needSync then s.intact else s.intact ++ sent.response.toList }

/-- `command_find_block` on the next frame. If it accepts the block, the next
sequence is set and `command_dispatch` begins. -/
def mcuFind (damaged : SyncState) (nakDamaged : Bool) : Option Session :=
  if s.dispatching.isSome then none
  else match s.toMcu with
    | [] => none
    | ⟨none, _⟩ :: toMcu =>
        some { s with
          mcu := { s.mcu with syncState := damaged }
          toMcu
          toHost := s.toHost ++ if nakDamaged then [s.reply [] none] else [] }
    | ⟨some bytes, _⟩ :: toMcu =>
        let found := commandFindBlock s.mcu.syncState s.mcu.nextSequence bytes
        if found.ret > 0 then
          some { s with
            mcu := ⟨found.syncState, found.nextSequence⟩
            dispatching := some 0
            toMcu
            dispatched := s.dispatched ++
              [(bytes.take (found.popCount - MESSAGE_TRAILER_SIZE)).drop MESSAGE_HEADER_SIZE]
            expected := s.expected + 1 }
        else
          some { s with
            mcu := ⟨found.syncState, found.nextSequence⟩
            toMcu
            toHost := s.toHost ++
              if found.nak then [⟨Link.reply found.nextSequence s.expected [], none⟩] else [] }

/-- A response from outside of `command_dispatch`. It has at least the byte of
its message id. -/
def mcuRespond (content : Bytes) : Option Session :=
  if content = [] then none else some { s with toHost := s.toHost ++ [s.reply content none] }

/-- A command of the block being dispatched sends a response. -/
def mcuAnswer (content : Bytes) : Option Session :=
  match s.dispatching with
  | none => none
  | some place =>
      if content = [] then none
      else some { s with
        dispatching := some (place + 1)
        toHost := s.toHost ++ [s.reply content (some ⟨s.expected - 1, place⟩)] }

/-- The block is dispatched; `console_task` acknowledges it. -/
def mcuFinish : Option Session :=
  match s.dispatching with
  | none => none
  | some _ => some { s with dispatching := none, toHost := s.toHost ++ [s.reply [] none] }

def step : Move → Option Session
  | .queueMessages cq msgs => some (s.sends { s.link with host := serialqueueSendBatch s.host cq msgs })
  | .sendBlock time => (s.link.sendBlock time).map s.sends
  | .retransmit => some (s.sends s.link.retransmit)
  | .hostReceive needSync => s.hostReceive needSync
  | .mcuFind damaged nakDamaged => s.mcuFind damaged nakDamaged
  | .mcuRespond content => s.mcuRespond content
  | .mcuAnswer content => s.mcuAnswer content
  | .mcuFinish => s.mcuFinish
  | .loseToMcu position => some { s with toMcu := s.toMcu.eraseIdx position }
  | .loseToHost position => some { s with toHost := s.toHost.eraseIdx position }
  | .damageToMcu position => some { s with toMcu := damage position s.toMcu }
  | .damageToHost position =>
      some { s with toHost := s.toHost.modify position (fun sent =>
        { sent with frame := { sent.frame with bytes := none } }) }

end Session

structure Session.Starts (s : Session) : Prop where
  link : Synchronised s.link
  dispatching : s.dispatching = none
  entries : s.entries = []
  intact : s.intact = []

section Simulation

variable {start : Link → Prop} {s after first : Session} {content : Bytes}

theorem Session.mcuRespond_some (steps : s.mcuRespond content = some after) :
    content ≠ [] ∧ after = { s with toHost := s.toHost ++ [s.reply content none] } := by
  unfold mcuRespond at steps
  split at steps
  · cases steps
  · rename_i nonempty
    exact ⟨nonempty, (some.inj steps).symm⟩

theorem Session.mcuAnswer_some (steps : s.mcuAnswer content = some after) :
    ∃ place, s.dispatching = some place ∧ content ≠ [] ∧ after = { s with
      dispatching := some (place + 1)
      toHost := s.toHost ++ [s.reply content (some ⟨s.expected - 1, place⟩)] } := by
  unfold mcuAnswer at steps
  split at steps
  · cases steps
  · rename_i place isPlace
    split at steps
    · cases steps
    · rename_i nonempty
      exact ⟨place, isPlace, nonempty, (some.inj steps).symm⟩

theorem Session.mcuFinish_some (steps : s.mcuFinish = some after) :
    s.dispatching.isSome ∧
      after = { s with dispatching := none, toHost := s.toHost ++ [s.reply [] none] } := by
  unfold mcuFinish at steps
  split at steps
  · cases steps
  · rename_i place isPlace
    rw [isPlace]
    exact ⟨rfl, (some.inj steps).symm⟩

theorem Session.hostReceive_link {needSync : Bool} (steps : s.hostReceive needSync = some after) :
    s.link.hostReceive needSync = some after.link := by
  unfold hostReceive at steps
  split at steps
  · cases steps
  · rename_i sent toHost channel
    have linkChannel : s.link.toHost = sent.frame :: toHost.map Sent.frame := by
      rw [link, channel, map_cons]
    unfold Link.hostReceive
    rw [linkChannel]
    split at steps
    · rename_i damaged
      cases steps
      simp only [damaged]
      rfl
    · rename_i bytes isBytes
      cases steps
      simp only [isBytes]
      rfl

/-- Finding a block is dispatching it at once and losing the ack. -/
theorem Session.mcuFind_link {damaged : SyncState} {nakDamaged : Bool}
    (reached : Reachable start Link.step s.link) (steps : s.mcuFind damaged nakDamaged = some after) :
    Reachable start Link.step after.link := by
  unfold mcuFind at steps
  split at steps
  · cases steps
  · split at steps
    · cases steps
    · rename_i seq toMcu channel
      have linkChannel : s.link.toMcu = ⟨none, seq⟩ :: toMcu := channel
      cases steps
      apply reached.after (.mcuReceive damaged nakDamaged [])
      change s.link.mcuReceive damaged nakDamaged [] = _
      unfold Link.mcuReceive
      rw [linkChannel]
      cases nakDamaged with
      | false => simp [link]
      | true => simp [link, reply]
    · rename_i bytes seq toMcu channel
      have linkChannel : s.link.toMcu = ⟨some bytes, seq⟩ :: toMcu := channel
      dsimp only at steps
      split at steps
      · rename_i accepted
        cases steps
        have dispatches : s.link.mcuReceive damaged nakDamaged [] = some { s.link with
            mcu := ⟨(commandFindBlock s.mcu.syncState s.mcu.nextSequence bytes).syncState,
              (commandFindBlock s.mcu.syncState s.mcu.nextSequence bytes).nextSequence⟩
            toMcu
            toHost := s.link.toHost ++ [Link.reply
              (commandFindBlock s.mcu.syncState s.mcu.nextSequence bytes).nextSequence
              (s.expected + 1) []]
            dispatched := s.dispatched ++ [(bytes.take
              ((commandFindBlock s.mcu.syncState s.mcu.nextSequence bytes).popCount -
                MESSAGE_TRAILER_SIZE)).drop MESSAGE_HEADER_SIZE]
            expected := s.expected + 1 } := by
          unfold Link.mcuReceive
          rw [linkChannel]
          exact if_pos accepted
        apply (reached.after (.mcuReceive damaged nakDamaged []) dispatches).after
          (.loseToHost s.link.toHost.length)
        simp only [Link.step, eraseIdx_append_of_length_le le_rfl, Nat.sub_self,
          eraseIdx_zero, tail_cons, append_nil]
        rfl
      · rename_i refused
        cases steps
        apply reached.after (.mcuReceive damaged nakDamaged [])
        change s.link.mcuReceive damaged nakDamaged [] = _
        unfold Link.mcuReceive
        rw [linkChannel]
        refine (if_neg refused).trans ?_
        by_cases nak : (commandFindBlock s.mcu.syncState s.mcu.nextSequence bytes).nak
        · simp [link, nak]
        · simp [link, nak]

theorem Session.damage_link (position : Nat) (toHost : List Sent) :
    (toHost.modify position (fun sent =>
      { sent with frame := { sent.frame with bytes := none } })).map Sent.frame =
      damage position (toHost.map Sent.frame) := by
  induction toHost generalizing position with
  | nil => simp [damage]
  | cons sent toHost ih =>
    cases position with
    | zero => rfl
    | succ position =>
      rw [modify_succ_cons, map_cons, ih, map_cons, damage,
        damage, modify_succ_cons]

/-- **Every session is a run of the link.** -/
theorem Session.link_reachable (reached : Reachable (fun s => s = first) step s) :
    Reachable (fun link => link = first.link) Link.step s.link := by
  apply reached.induct_invariant
  · rintro _ rfl -
    exact .initial rfl trivial
  · intro state move after _ _ steps reached
    cases move with
    | queueMessages cq msgs =>
      cases steps
      exact reached.after (.queueMessages cq msgs) rfl
    | sendBlock time =>
      obtain ⟨link, sends, rfl⟩ := map_eq_some_iff.mp steps
      apply reached.after (.sendBlock time)
      obtain ⟨block, sent, rfl⟩ := map_eq_some_iff.mp sends
      exact sends
    | retransmit =>
      cases steps
      exact reached.after .retransmit rfl
    | hostReceive needSync =>
      exact reached.after (.hostReceive needSync) (hostReceive_link steps)
    | mcuFind damaged nakDamaged => exact mcuFind_link reached steps
    | mcuRespond content =>
      obtain ⟨_, rfl⟩ := mcuRespond_some steps
      apply reached.after (.mcuRespond content)
      simp [Link.step, Link.mcuRespond, link, reply]
    | mcuAnswer content =>
      obtain ⟨place, _, _, rfl⟩ := mcuAnswer_some steps
      apply reached.after (.mcuRespond content)
      simp [Link.step, Link.mcuRespond, link, reply]
    | mcuFinish =>
      obtain ⟨_, rfl⟩ := mcuFinish_some steps
      apply reached.after (.mcuRespond [])
      simp [Link.step, Link.mcuRespond, link, reply]
    | loseToMcu position =>
      cases steps
      exact reached.after (.loseToMcu position) rfl
    | loseToHost position =>
      cases steps
      apply reached.after (.loseToHost position)
      simp [Link.step, link, eraseIdx_map]
    | damageToMcu position =>
      cases steps
      exact reached.after (.damageToMcu position) rfl
    | damageToHost position =>
      cases steps
      apply reached.after (.damageToHost position)
      simp only [Link.step, link, damage_link]

end Simulation

end MagnetoX.Serial
