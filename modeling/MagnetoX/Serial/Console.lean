import MagnetoX.Serial.Delivery

/-!
Owns the micro-controller's console on a UART, `src/generic/serial_irq.c`, at the
grain of bytes: the receive interrupt stores bytes in `receive_buf` or discards
them, and `console_task` finds, dispatches, pops and acknowledges blocks. The
line from the host neither loses nor damages bytes, nor does the way back, and
nothing is sent again.

`receive_buf` is the list of its first `receive_pos` bytes; the retry loop of
`console_pop_input`, which makes the pop atomic, is one step.
-/

namespace MagnetoX.Serial

open Message

structure Console where
  host : Serialqueue
  mcu : Receiver
  /-- `sizeof(receive_buf)`. -/
  size : Nat
  receiveBuf : Bytes
  /-- `command_dispatch` is running on a block of so many bytes. -/
  dispatching : Option Nat
  /-- Bytes that the host wrote and the interrupt has not read. -/
  line : Bytes
  toHost : List Frame
  /-- The bytes that `serial_rx_byte` discarded. -/
  discarded : Bytes
  built : List Bytes
  expected : Nat
deriving DecidableEq, Repr

inductive ConsoleMove where
  | queueMessages (cq : Nat) (msgs : List QueueMessage)
  | sendBlock (time : SendTime)
  | hostReceive
  | rxByte
  | findBlock
  | respond (content : Bytes)
  | finish
deriving Repr

namespace Console

variable (c : Console)

def sendBlock (time : SendTime) : Option Console :=
  (Serial.sendBlock c.host time).map (fun (host, block) =>
    { c with host, line := c.line ++ block.out, built := c.built ++ [block.content] })

def hostReceive : Option Console :=
  match c.toHost with
  | [] => none
  | frame :: toHost =>
      some { c with
        host := match frame.bytes with
          | some bytes => inputFrame c.host bytes
          | none => c.host
        toHost }

/-- Rx interrupt - store read data. -/
def serialRxByte : Option Console :=
  match c.line with
  | [] => none
  | data :: line =>
      if c.receiveBuf.length ≥ c.size then
        -- Serial overflow - ignore it as crc error will force retransmit
        some { c with line, discarded := c.discarded ++ [data] }
      else some { c with line, receiveBuf := c.receiveBuf ++ [data] }

def consolePopInput (len : Nat) : Console := { c with receiveBuf := c.receiveBuf.drop len }

/-- `console_task` up to the call of `command_dispatch`. -/
def findBlock : Option Console :=
  if c.dispatching.isSome then none
  else
    let found := commandFindBlock c.mcu.syncState c.mcu.nextSequence c.receiveBuf
    let c := { c with mcu := ⟨found.syncState, found.nextSequence⟩ }
    if found.ret > 0 then
      some { c with dispatching := some found.popCount, expected := c.expected + 1 }
    else if found.ret = 0 then some c
    else
      let replies := if found.nak then [Link.reply found.nextSequence c.expected []] else []
      some (consolePopInput { c with toHost := c.toHost ++ replies } found.popCount)

/-- A response, sent while a block is dispatched or at any other time. -/
def respond (content : Bytes) : Option Console :=
  if content = [] then none
  else some { c with
    toHost := c.toHost ++ [Link.reply c.mcu.nextSequence c.expected content] }

/-- `console_task` after `command_dispatch`: pop the block and acknowledge it. -/
def finish : Option Console :=
  match c.dispatching with
  | none => none
  | some popCount =>
      some { c.consolePopInput popCount with
        dispatching := none
        toHost := c.toHost ++ [Link.reply c.mcu.nextSequence c.expected []] }

def step : ConsoleMove → Option Console
  | .queueMessages cq msgs => some { c with host := serialqueueSendBatch c.host cq msgs }
  | .sendBlock time => c.sendBlock time
  | .hostReceive => c.hostReceive
  | .rxByte => c.serialRxByte
  | .findBlock => c.findBlock
  | .respond content => c.respond content
  | .finish => c.finish

def popped : Nat := if c.dispatching.isSome then c.expected - 1 else c.expected

/-- The blocks that the host has sent and the micro-controller has not popped, if
the first block built has the number `start`. -/
def unpopped (start : Nat) : List Bytes := (frames start c.built).drop (c.popped - start)

def link (start : Nat) : Link where
  host := c.host
  mcu := c.mcu
  toMcu := resent c.expected ((frames start c.built).drop (c.expected - start))
  toHost := c.toHost
  built := c.built
  dispatched := c.built.take (c.expected - start)
  expected := c.expected

end Console

/-- A synchronised state: nothing is in flight, the receive buffer is empty, and
the host knows its size. -/
structure Console.Starts (c : Console) : Prop where
  noDebug : c.host.debugFile = false
  inSync : c.host.needSync = false
  sent : c.host.sentQueue = []
  equal : c.host.receiveSeq = c.host.sendSeq
  started : 2 ≤ c.host.sendSeq
  acknowledged : c.host.lastAckSeq ≤ c.host.receiveSeq
  needAckBytes : c.host.needAckBytes = 0
  lastAckBytes : 0 ≤ c.host.lastAckBytes
  receiveWindow : c.host.receiveWindow = c.size
  mcuInSync : c.mcu.syncState.needSync = false
  nextSequence : c.mcu.nextSequence = sequenceByte c.host.receiveSeq
  receiveBuf : c.receiveBuf = []
  dispatching : c.dispatching = none
  line : c.line = []
  toHost : c.toHost = []
  discarded : c.discarded = []
  built : c.built = []
  expected : c.expected = c.host.receiveSeq

theorem byteAt_of_isPrefix {buf whole : Bytes} (isPrefix : buf <+: whole) {pos : Nat}
    (inside : pos < buf.length) : byteAt buf pos = byteAt whole pos := by
  obtain ⟨rest, rfl⟩ := isPrefix
  unfold byteAt
  rw [List.getD_eq_getElem?_getD, List.getD_eq_getElem?_getD, List.getElem?_append_left inside]

theorem commandFindBlock_partial {buf content : Bytes} {sequence nextSequence : UInt8}
    {syncState : SyncState} (short : content.length ≤ MESSAGE_PAYLOAD_MAX)
    (dest : sequence &&& ~~~MESSAGE_SEQ_MASK = MESSAGE_DEST) (inSync : syncState.needSync = false)
    (isPrefix : buf <+: addFrame sequence content)
    (partially : buf.length < (addFrame sequence content).length) :
    commandFindBlock syncState nextSequence buf = ⟨0, 0, syncState, nextSequence, false⟩ := by
  unfold commandFindBlock
  rw [if_neg (by rw [inSync]; exact fun both => Bool.false_ne_true both.2)]
  by_cases few : buf.length < MESSAGE_MIN
  · rw [if_pos few]
  · have framed := wellFramed_addFrame sequence short []
    have enough : MESSAGE_MIN ≤ buf.length := Nat.le_of_not_lt few
    rw [MESSAGE_MIN] at enough
    have msglen : (byteAt buf 0).toNat = content.length + MESSAGE_MIN := by
      rw [byteAt_of_isPrefix isPrefix (by omega)]
      exact framed.msglen
    have msgseq : byteAt buf 1 = sequence := by
      rw [byteAt_of_isPrefix isPrefix (by omega)]
      exact framed.msgseq
    rw [addFrame_length] at partially
    have most := frame_le_max short
    rw [if_neg few, msglen, msgseq, if_neg (by omega), if_neg (not_not.mpr dest), if_pos partially]

end MagnetoX.Serial
