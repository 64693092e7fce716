import MagnetoX.Serial.Serialqueue

/-!
Owns the transmit queues of `klippy/chelper/serialqueue.c` with the command queues
as objects of their own: `pending_queues` holds only references to them, as the
list nodes of the source do. A command queue is put on the list by
`serialqueue_send_batch` and taken off by `build_and_send_command`.

The other fields of `struct serialqueue` are those of `Serialqueue`, whose own
queues stay empty here. What was queued and what was sent is remembered for the
proofs only.
-/

namespace MagnetoX.Serial

open Message

structure Transmit where
  link : Serialqueue
  commandQueues : Nat → CommandQueue
  pendingQueues : List Nat
  /-- All messages that were added to each command queue. -/
  queued : Nat → List QueueMessage
  /-- All messages that were put into blocks, with their command queues. -/
  sent : List (Nat × QueueMessage)
  /-- The contents of all blocks that were built. -/
  built : List Bytes

namespace Transmit

/-- `serialqueue_alloc` for a device, with command queues as
`serialqueue_alloc_commandqueue` makes them. -/
def alloc (receiveWindow : Int) : Transmit where
  link :=
    { debugFile := false
      needSync := false
      receiveWindow
      sendSeq := 1
      receiveSeq := 1
      ignoreNakSeq := 0
      lastAckSeq := 0
      retransmitSeq := 0
      sentQueue := []
      pendingQueues := []
      readyBytes := 0
      upcomingBytes := 0
      needAckBytes := 0
      lastAckBytes := 0
      notifyQueue := []
      receiveQueue := []
      retransmitNow := false }
  commandQueues := fun cq => ⟨cq, [], []⟩
  pendingQueues := []
  queued := fun _ => []
  sent := []
  built := []

variable (c : Transmit)

def pending : List CommandQueue := c.pendingQueues.map c.commandQueues

def setQueue (cq : Nat) (q : CommandQueue) : Transmit :=
  { c with commandQueues := Function.update c.commandQueues cq q }

def serialqueueSendBatch (cq : Nat) (msgs : List QueueMessage) : Transmit :=
  let msgs := msgs.map setMinClock
  let len := (msgs.map (fun qm => qm.msg.length)).sum
  if len = 0 then c
  else
    let q := c.commandQueues cq
    { c.setQueue cq { q with upcomingQueue := q.upcomingQueue ++ msgs } with
      pendingQueues :=
        if q.readyQueue.isEmpty && q.upcomingQueue.isEmpty then c.pendingQueues ++ [cq]
        else c.pendingQueues
      link.upcomingBytes := c.link.upcomingBytes + len
      queued := Function.update c.queued cq (c.queued cq ++ msgs) }

def serialqueueSend (cq : Nat) (qm : QueueMessage) : Transmit := c.serialqueueSendBatch cq [qm]

/-- Move messages of one command queue from the upcoming queue to the ready
queue. -/
def readyMessages (cq : Nat) (ackClock : Nat) : Transmit :=
  let q := c.commandQueues cq
  { c.setQueue cq (q.ready ackClock) with
    link.upcomingBytes := c.link.upcomingBytes - q.readied ackClock
    link.readyBytes := c.link.readyBytes + q.readied ackClock }

/-- The loop of `check_send_command` over the given queues. -/
def readyQueues (ackClock : Nat) : List Nat → Transmit → Transmit
  | [], c => c
  | cq :: queues, c => readyQueues ackClock queues (c.readyMessages cq ackClock)

def checkSendCommand (time : SendTime) : Transmit × Bool :=
  if needAck c.link then (c, false)
  else
    let c := readyQueues time.ackClock c.pendingQueues c
    if c.link.readyBytes ≥ (MESSAGE_PAYLOAD_MAX : Int) then (c, true)
    else match time.reqclockDelta with
      | none => (c, c.link.readyBytes != 0)
      | some delta => (c, decide (minReadyClock time c.pending ≤ time.ackClock + delta))

/-- Take the first ready message off its command queue and append it to the
outgoing block. -/
def takeMessage (cq : Nat) (qm : QueueMessage) : Transmit :=
  let q := { c.commandQueues cq with readyQueue := (c.commandQueues cq).readyQueue.tail }
  { c.setQueue cq q with
    pendingQueues :=
      if q.readyQueue.isEmpty && q.upcomingQueue.isEmpty then c.pendingQueues.erase cq
      else c.pendingQueues
    link.readyBytes := c.link.readyBytes - qm.msg.length
    link.notifyQueue :=
      if qm.notifyId ≠ 0 then c.link.notifyQueue ++ [{ qm with reqClock := c.link.sendSeq }]
      else c.link.notifyQueue
    sent := c.sent ++ [(cq, qm)] }

/-- The loop of `build_and_send_command`. There is no result if `ready_bytes`
counts a message that is not there. -/
def fillBlock : Nat → Transmit → Bytes → Option (Transmit × Bytes)
  | 0, _, _ => none
  | fuel + 1, c, content =>
      if c.link.readyBytes = 0 then some (c, content)
      else match lowestReady c.pending none with
        | none => none
        | some (cq, qm) =>
            if MESSAGE_HEADER_SIZE + content.length + qm.msg.length >
                MESSAGE_MAX - MESSAGE_TRAILER_SIZE then some (c, content)
            else fillBlock fuel (c.takeMessage cq qm) (content ++ qm.msg)

def buildAndSendCommand : Option Transmit :=
  let ready := (c.pending.map (fun q => q.readyQueue.length)).sum
  (fillBlock (ready + 1) c []).map (fun (c, content) =>
    let out := addFrame (sequenceByte c.link.sendSeq) content
    { c with
      link.sendSeq := c.link.sendSeq + 1
      link.needAckBytes := c.link.needAckBytes + out.length
      link.sentQueue := c.link.sentQueue ++ [out]
      built := c.built ++ [content] })

/-- One round of `command_event`. -/
def commandEvent (time : SendTime) : Option Transmit :=
  let (c, now) := c.checkSendCommand time
  if now then c.buildAndSendCommand else some c

/-- The buffer of `retransmit_event`. -/
def retransmitBuffer : Bytes := MESSAGE_SYNC :: c.link.sentQueue.flatten

end Transmit

/-- A message as the firmware accepts it, with a clock. -/
structure QueueMessage.Valid (qm : QueueMessage) : Prop where
  nonempty : 0 < qm.msg.length
  short : qm.msg.length ≤ MESSAGE_PAYLOAD_MAX
  clock : qm.reqClock < MAX_CLOCK

def SendTime.InRange (time : SendTime) : Prop :=
  ∀ delta ∈ time.reqclockDelta, time.ackClock + delta < MAX_CLOCK

inductive TransmitInput where
  | send (cq : Nat) (qm : { qm : QueueMessage // qm.Valid })
  | commandEvent (time : { time : SendTime // time.InRange })
  | input (frame : Bytes)
  | retransmit

def Transmit.step (c : Transmit) : TransmitInput → Option Transmit
  | .send cq qm => some (c.serialqueueSend cq qm.val)
  | .commandEvent time => c.commandEvent time.val
  | .input frame => some { c with link := inputFrame c.link frame }
  | .retransmit => some { c with link := retransmitEvent c.link }

end MagnetoX.Serial
