import MagnetoX.Library.SequenceNumber
import MagnetoX.Message.Receive

/-!
Owns the host's end of the serial link, `klippy/chelper/serialqueue.c`: which
messages go into a block, when a block may be sent, what is sent again, and what
an incoming frame changes.

The counters of blocks are natural numbers, which do not reach `2^64`: only a
subtraction can wrap around. A debug output file, which the code marks by a
`receive_seq` of `-1`, is a flag. Times are floating point numbers that depend on
the clock estimate: the clocks derived from them enter as inputs, and the
estimates of the round trip time are left out.
-/

namespace MagnetoX.Serial

open Message Library

def MAX_PENDING_BLOCKS : Nat := 12
def MAX_CLOCK : Nat := 0x7fffffffffffffff
def BACKGROUND_PRIORITY_CLOCK : Nat := 0x7fffffff00000000

/-- The fields of `struct queue_message` on a command queue. On the notify queue
`reqClock` is the number of the block that carries the message. -/
structure QueueMessage where
  msg : Bytes
  minClock : Nat
  reqClock : Nat
  notifyId : Nat
deriving DecidableEq, Repr

/-- `struct command_queue`, with a number as its identity. -/
structure CommandQueue where
  number : Nat
  upcomingQueue : List QueueMessage
  readyQueue : List QueueMessage
deriving DecidableEq, Repr

/-- An entry of `receive_queue`: a message of the micro-controller, or the
notification that a message was acknowledged. -/
inductive Received where
  | message (frame : Bytes)
  | notify (notifyId : Nat)
deriving DecidableEq, Repr

structure Serialqueue where
  debugFile : Bool
  needSync : Bool
  receiveWindow : Int
  sendSeq : Nat
  receiveSeq : Nat
  ignoreNakSeq : Nat
  lastAckSeq : Nat
  retransmitSeq : Nat
  sentQueue : List Bytes
  pendingQueues : List CommandQueue
  readyBytes : Int
  upcomingBytes : Int
  needAckBytes : Int
  lastAckBytes : Int
  notifyQueue : List QueueMessage
  receiveQueue : List Received
  /-- `SQPT_RETRANSMIT` is due now, because of a nak. -/
  retransmitNow : Bool
deriving DecidableEq, Repr

def setMinClock (qm : QueueMessage) : QueueMessage :=
  if qm.minClock + 2 ^ 31 < qm.reqClock ∧ qm.reqClock ≠ BACKGROUND_PRIORITY_CLOCK then
    { qm with minClock := qm.reqClock - 2 ^ 31 }
  else qm

/-- Add a batch of messages to the given command queue, which is on
`pending_queues` while it has messages. -/
def serialqueueSendBatch (sq : Serialqueue) (cq : Nat) (msgs : List QueueMessage) : Serialqueue :=
  let msgs := msgs.map setMinClock
  let len := (msgs.map (fun qm => qm.msg.length)).sum
  if len = 0 then sq
  else
    { sq with
      pendingQueues :=
        if sq.pendingQueues.any (fun q => q.number == cq) then
          sq.pendingQueues.map (fun q =>
            if q.number = cq then { q with upcomingQueue := q.upcomingQueue ++ msgs } else q)
        else sq.pendingQueues ++ [⟨cq, msgs, []⟩]
      upcomingBytes := sq.upcomingBytes + len }

/-- The clocks that `check_send_command` derives from the time: the clock at
which the block would arrive, `MIN_REQTIME_DELTA` in ticks unless the frequency
is still unknown, and the clock for background messages. -/
structure SendTime where
  ackClock : Nat
  reqclockDelta : Option Nat
  backgroundClock : Nat
deriving DecidableEq, Repr

/-- Move messages from the upcoming queue to the ready queue. -/
def CommandQueue.ready (q : CommandQueue) (ackClock : Nat) : CommandQueue :=
  let moved := q.upcomingQueue.takeWhile (fun qm => !decide (ackClock < qm.minClock))
  { q with
    upcomingQueue := q.upcomingQueue.drop moved.length
    readyQueue := q.readyQueue ++ moved }

def CommandQueue.readied (q : CommandQueue) (ackClock : Nat) : Int :=
  ((q.upcomingQueue.takeWhile (fun qm => !decide (ackClock < qm.minClock))).map
    (fun qm => (qm.msg.length : Int))).sum

/-- The first two checks of `check_send_command`: an ack is needed before more
messages can be sent. -/
def needAck (sq : Serialqueue) : Bool :=
  (decide (sq.sendSeq - sq.receiveSeq ≥ MAX_PENDING_BLOCKS) && !sq.debugFile) ||
    (decide (sq.sendSeq > sq.receiveSeq ∧ sq.receiveWindow ≠ 0) &&
      decide (sq.needAckBytes + MESSAGE_MAX +
        (if sq.lastAckSeq < sq.receiveSeq then sq.lastAckBytes else 0) > sq.receiveWindow))

/-- `min_ready_clock` over all queues. -/
def minReadyClock (time : SendTime) (queues : List CommandQueue) : Nat :=
  queues.foldl (fun clock q =>
    match q.readyQueue with
    | [] => clock
    | qm :: _ => min clock
        (if qm.reqClock = BACKGROUND_PRIORITY_CLOCK then time.backgroundClock else qm.reqClock))
    MAX_CLOCK

/-- `check_send_command`: the state with stalled messages made ready, and whether
a block is to be sent now. -/
def checkSendCommand (sq : Serialqueue) (time : SendTime) : Serialqueue × Bool :=
  if needAck sq then (sq, false)
  else
    let readied := (sq.pendingQueues.map (fun q => q.readied time.ackClock)).sum
    let sq :=
      { sq with
        pendingQueues := sq.pendingQueues.map (fun q => q.ready time.ackClock)
        upcomingBytes := sq.upcomingBytes - readied
        readyBytes := sq.readyBytes + readied }
    if sq.readyBytes ≥ (MESSAGE_PAYLOAD_MAX : Int) then (sq, true)
    else match time.reqclockDelta with
      | none => (sq, sq.readyBytes != 0)
      | some delta =>
          (sq, decide (minReadyClock time sq.pendingQueues ≤ time.ackClock + delta))

/-- Find highest priority message (message with lowest `req_clock`), and its
queue. -/
def lowestReady : List CommandQueue → Option (Nat × QueueMessage) → Option (Nat × QueueMessage)
  | [], found => found
  | q :: queues, found =>
      match q.readyQueue with
      | [] => lowestReady queues found
      | m :: _ =>
          if m.reqClock < found.elim MAX_CLOCK (fun best => best.2.reqClock) then
            lowestReady queues (some (q.number, m))
          else lowestReady queues found

/-- Take the first ready message off its queue; an empty queue leaves
`pending_queues`. -/
def removeReady (cq : Nat) (queues : List CommandQueue) : List CommandQueue :=
  (queues.map (fun q =>
    if q.number = cq then { q with readyQueue := q.readyQueue.tail } else q)).filter
    (fun q => !(q.number == cq && q.readyQueue.isEmpty && q.upcomingQueue.isEmpty))

/-- The loop of `build_and_send_command`. The content of the block so far is
`content`; a message that does not fit ends the block. There is no result if
`ready_bytes` counts a message that is not there. -/
def fillBlock : Nat → Serialqueue → Bytes → Option (Serialqueue × Bytes)
  | 0, _, _ => none
  | fuel + 1, sq, content =>
      if sq.readyBytes = 0 then some (sq, content)
      else match lowestReady sq.pendingQueues none with
        | none => none
        | some (cq, qm) =>
            if MESSAGE_HEADER_SIZE + content.length + qm.msg.length >
                MESSAGE_MAX - MESSAGE_TRAILER_SIZE then some (sq, content)
            else
              fillBlock fuel
                { sq with
                  pendingQueues := removeReady cq sq.pendingQueues
                  readyBytes := sq.readyBytes - qm.msg.length
                  notifyQueue :=
                    if qm.notifyId ≠ 0 then
                      sq.notifyQueue ++ [{ qm with reqClock := sq.sendSeq }]
                    else sq.notifyQueue }
                (content ++ qm.msg)

/-- `MESSAGE_DEST | (seq & MESSAGE_SEQ_MASK)`. -/
def sequenceByte (seq : Nat) : UInt8 := MESSAGE_DEST ||| UInt8.ofNat (seq % 16)

/-- A built block: its content, and the frame that is written and kept on
`sent_queue`. -/
structure Block where
  content : Bytes
  out : Bytes
deriving DecidableEq, Repr

/-- Construct a block of data to be sent to the serial port. -/
def buildAndSendCommand (sq : Serialqueue) : Option (Serialqueue × Block) :=
  let ready := (sq.pendingQueues.map (fun q => q.readyQueue.length)).sum
  (fillBlock (ready + 1) sq []).map (fun (sq, content) =>
    let out := addFrame (sequenceByte sq.sendSeq) content
    ({ sq with
        sendSeq := sq.sendSeq + 1
        needAckBytes := sq.needAckBytes + out.length
        sentQueue := sq.sentQueue ++ [out] }, ⟨content, out⟩))

/-- One round of `command_event`: a block is built only when
`check_send_command` allows it. -/
def sendBlock (sq : Serialqueue) (time : SendTime) : Option (Serialqueue × Block) :=
  if (checkSendCommand sq time).2 then buildAndSendCommand (checkSendCommand sq time).1 else none

/-- Callback timer for when a retransmit should be done. All of `sent_queue` is
written again. -/
def retransmitEvent (sq : Serialqueue) : Serialqueue :=
  { sq with
    ignoreNakSeq :=
      if sq.retransmitNow then
        -- Second nak for this retransmit - don't allow third
        if sq.receiveSeq < sq.retransmitSeq then sq.retransmitSeq else sq.receiveSeq
      else sq.sendSeq
    retransmitSeq := sq.sendSeq
    retransmitNow := false }

/-- Remove from sent queue, up to the block before `rseq`. The flag is set when
the queue runs out first. -/
def removeSent (rseq : Nat) : Nat → List Bytes → Int → Int → List Bytes × Int × Int × Bool
  | _, [], needAckBytes, lastAckBytes => ([], needAckBytes, lastAckBytes, true)
  | sentSeq, sent :: sentQueue, needAckBytes, lastAckBytes =>
      if rseq = sentSeq + 1 then
        (sentQueue, needAckBytes - sent.length, sent.length, false)
      else removeSent rseq (sentSeq + 1) sentQueue (needAckBytes - sent.length) lastAckBytes

/-- Update internal state when the receive sequence increases. -/
def updateReceiveSeq (sq : Serialqueue) (rseq : Nat) : Serialqueue :=
  let (sentQueue, needAckBytes, lastAckBytes, ranOut) :=
    removeSent rseq sq.receiveSeq sq.sentQueue sq.needAckBytes sq.lastAckBytes
  { sq with
    -- Got an ack for a message not sent; must be connection init
    sendSeq := if ranOut then rseq else sq.sendSeq
    sentQueue
    needAckBytes
    lastAckBytes
    receiveSeq := rseq
    retransmitNow := false }

/-- Move acknowledged messages from the notify queue to the receive queue. -/
def notifyAcknowledged (wakeSeq : Int) (sq : Serialqueue) : Serialqueue :=
  let woken := sq.notifyQueue.takeWhile (fun qm => decide ((qm.reqClock : Int) ≤ wakeSeq))
  { sq with
    notifyQueue := sq.notifyQueue.drop woken.length
    receiveQueue := sq.receiveQueue ++ woken.map (fun qm => .notify qm.notifyId) }

/-- The last part of `handle_message`: an ack or nak, or a message for the
receive queue. -/
def processMessage (rseq : Nat) (frame : Bytes) (sq : Serialqueue) : Serialqueue :=
  if frame.length = MESSAGE_MIN then
    if sq.lastAckSeq < rseq then { sq with lastAckSeq := rseq }
    else if rseq > sq.ignoreNakSeq ∧ sq.sentQueue ≠ [] then
      -- Duplicate Ack is a Nak - do fast retransmit
      { sq with retransmitNow := true }
    else sq
  else { sq with receiveQueue := sq.receiveQueue ++ [.message frame] }

/-- The receive sequence number of a frame: the four bits of the frame resolved
from `receive_seq` on. -/
def frameSeq (sq : Serialqueue) (frame : Bytes) : Nat :=
  SequenceNumber.resolve 16 sq.receiveSeq ((byteAt frame 1).toNat % 16)

/-- How far the blocks are complete that a frame with the number `rseq` tells of.
A frame with content may have been sent while the last block was dispatched. -/
def wakeSeq (rseq : Nat) (frame : Bytes) : Int :=
  rseq - 1 - if frame.length > MESSAGE_MIN then 1 else 0

/-- The result of a subtraction in `uint64_t`. -/
def unsignedSeq (seq : Int) : Int := if seq < 0 then seq + 2 ^ 64 else seq

/-- From the second block on there is nothing to wrap around. -/
theorem unsignedSeq_wakeSeq {rseq : Nat} (started : 2 ≤ rseq) (frame : Bytes) :
    unsignedSeq (wakeSeq rseq frame) = wakeSeq rseq frame := by
  rw [unsignedSeq, wakeSeq]
  apply if_neg
  split <;> omega

def handleMessage (sq : Serialqueue) (frame : Bytes) : Serialqueue :=
  let rseq := frameSeq sq frame
  if rseq ≠ sq.receiveSeq ∧ rseq > sq.sendSeq ∧ sq.receiveSeq ≠ 1 then
    -- An ack for a message not sent? Out of order message?
    sq
  else
    let sq := if rseq ≠ sq.receiveSeq then updateReceiveSeq sq rseq else sq
    processMessage rseq frame (notifyAcknowledged (unsignedSeq (wakeSeq rseq frame)) sq)

/-- A frame arrives at `input_event`; bytes that are no valid message are
skipped. -/
def inputFrame (sq : Serialqueue) (frame : Bytes) : Serialqueue :=
  let (len, needSync) := msgblockCheck sq.needSync frame
  let sq := { sq with needSync }
  if len > 0 then handleMessage sq (frame.take len.toNat) else sq

end MagnetoX.Serial
