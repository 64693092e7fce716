import MagnetoX.Library.Run
import MagnetoX.Serial.Serialqueue

/-!
Owns the serial link as one system: the host's `serialqueue`, the
micro-controller's receiver, and two channels that keep the order of frames but
may lose or damage any of them.

A damaged frame is one that the receiver does not take for a valid block; what
it does to the receiver's synchronisation is an input. Each frame in a channel
carries the full number of its block, and the system remembers the contents
built and dispatched. These are for the proofs only, no step reads them.
-/

namespace MagnetoX.Serial

open Message

/-- A frame on its way; `bytes` is `none` once it was damaged. -/
structure Frame where
  bytes : Option Bytes
  seq : Nat
deriving DecidableEq, Repr

structure Receiver where
  syncState : SyncState
  nextSequence : UInt8
deriving DecidableEq, Repr

structure Link where
  host : Serialqueue
  mcu : Receiver
  toMcu : List Frame
  toHost : List Frame
  /-- The contents of all blocks that the host built. -/
  built : List Bytes
  /-- The contents of all blocks that the micro-controller dispatched. -/
  dispatched : List Bytes
  /-- The full number of the block that the micro-controller expects. -/
  expected : Nat
deriving DecidableEq, Repr

inductive Action where
  | queueMessages (cq : Nat) (msgs : List QueueMessage)
  | sendBlock (time : SendTime)
  | retransmit
  | hostReceive (needSync : Bool)
  | mcuReceive (damaged : SyncState) (nakDamaged : Bool) (responses : List Bytes)
  | mcuRespond (content : Bytes)
  | loseToMcu (position : Nat)
  | loseToHost (position : Nat)
  | damageToMcu (position : Nat)
  | damageToHost (position : Nat)
deriving Repr

def damage (position : Nat) (frames : List Frame) : List Frame :=
  frames.modify position (fun frame => { frame with bytes := none })

/-- All blocks of `sent_queue`, numbered from `receive_seq` on. -/
def resent (seq : Nat) : List Bytes → List Frame
  | [] => []
  | sent :: sentQueue => ⟨some sent, seq⟩ :: resent (seq + 1) sentQueue

namespace Link

variable (s : Link)

/-- `command_encode_and_frame` of a response, with the current sequence. A
response never exceeds a block. -/
def reply (nextSequence : UInt8) (seq : Nat) (content : Bytes) : Frame :=
  ⟨some (addFrame nextSequence (content.take MESSAGE_PAYLOAD_MAX)), seq⟩

def sendBlock (time : SendTime) : Option Link :=
  (Serial.sendBlock s.host time).map (fun (host, block) =>
    { s with
      host
      toMcu := s.toMcu ++ [⟨some block.out, s.host.sendSeq⟩]
      built := s.built ++ [block.content] })

def retransmit : Link :=
  { s with
    host := retransmitEvent s.host
    toMcu := s.toMcu ++ resent s.host.receiveSeq s.host.sentQueue }

def hostReceive (needSync : Bool) : Option Link :=
  match s.toHost with
  | [] => none
  | frame :: toHost =>
      some { s with
        host := match frame.bytes with
          | some bytes => inputFrame s.host bytes
          | none => { s.host with needSync }
        toHost }

/-- The micro-controller reads the next frame, as `canserial_rx_task` does. An
accepted block is dispatched, which may send responses, and acknowledged. What a
receiver out of sync leaves of a frame is lost. -/
def mcuReceive (damaged : SyncState) (nakDamaged : Bool) (responses : List Bytes) :
    Option Link :=
  match s.toMcu with
  | [] => none
  | ⟨none, _⟩ :: toMcu =>
      some { s with
        mcu := { s.mcu with syncState := damaged }
        toMcu
        toHost := s.toHost ++ if nakDamaged then [reply s.mcu.nextSequence s.expected []] else [] }
  | ⟨some bytes, _⟩ :: toMcu =>
      let found := commandFindBlock s.mcu.syncState s.mcu.nextSequence bytes
      if found.ret > 0 then
        some { s with
          mcu := ⟨found.syncState, found.nextSequence⟩
          toMcu
          toHost := s.toHost ++ (responses ++ [[]]).map (reply found.nextSequence (s.expected + 1))
          dispatched := s.dispatched ++
            [(bytes.take (found.popCount - MESSAGE_TRAILER_SIZE)).drop MESSAGE_HEADER_SIZE]
          expected := s.expected + 1 }
      else
        some { s with
          mcu := ⟨found.syncState, found.nextSequence⟩
          toMcu
          toHost := s.toHost ++
            if found.nak then [reply found.nextSequence s.expected []] else [] }

def mcuRespond (content : Bytes) : Link :=
  { s with toHost := s.toHost ++ [reply s.mcu.nextSequence s.expected content] }

def step : Action → Option Link
  | .queueMessages cq msgs => some { s with host := serialqueueSendBatch s.host cq msgs }
  | .sendBlock time => s.sendBlock time
  | .retransmit => some s.retransmit
  | .hostReceive needSync => s.hostReceive needSync
  | .mcuReceive damaged nakDamaged responses => s.mcuReceive damaged nakDamaged responses
  | .mcuRespond content => some (s.mcuRespond content)
  | .loseToMcu position => some { s with toMcu := s.toMcu.eraseIdx position }
  | .loseToHost position => some { s with toHost := s.toHost.eraseIdx position }
  | .damageToMcu position => some { s with toMcu := damage position s.toMcu }
  | .damageToHost position => some { s with toHost := damage position s.toHost }

end Link

structure Synchronised (s : Link) : Prop where
  noDebug : s.host.debugFile = false
  sent : s.host.sentQueue = []
  equal : s.host.receiveSeq = s.host.sendSeq
  started : 2 ≤ s.host.sendSeq
  nextSequence : s.mcu.nextSequence = sequenceByte s.host.receiveSeq
  toMcu : s.toMcu = []
  toHost : s.toHost = []
  built : s.built = []
  dispatched : s.dispatched = []
  expected : s.expected = s.host.receiveSeq

end MagnetoX.Serial
