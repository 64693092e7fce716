import MagnetoX.Library.Run

/-!
Owns the reports on user interface buttons: `src/buttons.c` in the
micro-controller, `MCU_buttons` of `klippy/extras/buttons.py` in the host, and the
messages between them.

One object with its buttons is modelled. The tasks of the micro-controller do not
preempt each other, but the timer interrupts them: `buttons_task` is two steps, its
critical section and the `sendf` behind it. Messages arrive in order. A
`buttons_state` may be lost, or arrive once more; `buttons_ack` is reliable. The
records also keep all reports that were enqueued and all calls that were made.
-/

namespace MagnetoX.Buttons

/-- `reports` and `report_count`. -/
structure Reports where
  slots : Vector UInt8 8
  count : Nat
  fits : count ≤ 8
deriving DecidableEq, Repr

namespace Reports

def empty : Reports := ⟨Vector.replicate 8 0, 0, Nat.zero_le 8⟩

def toList (reports : Reports) : List UInt8 := reports.slots.toList.take reports.count

def push (reports : Reports) (pressed : UInt8) : Option Reports :=
  if room : reports.count < 8 then
    some ⟨reports.slots.set reports.count pressed, reports.count + 1, room⟩
  else none

/-- The loop that moves entries to the front. -/
def shift (slots : Vector UInt8 8) (count : Nat) : (pending : Nat) → pending + count ≤ 8 → Vector UInt8 8
  | 0, _ => slots
  | i + 1, inside =>
      let slots := shift slots count i (by omega)
      slots.set i (slots.get ⟨i + count, by omega⟩)

def acknowledge (reports : Reports) (count : Nat) : Reports :=
  if partially : count < reports.count then
    ⟨shift reports.slots count (reports.count - count) (by have := reports.fits; omega), reports.count - count,
      by have := reports.fits; omega⟩
  else { reports with count := 0, fits := Nat.zero_le 8 }

end Reports

def BF_NO_RETRANSMIT : UInt8 := 0x80
def BF_PENDING : UInt8 := 0xff
def BF_ACKED : UInt8 := 0xfe

/-- `struct buttons`, `buttons_wake`, and `report_count` of `buttons_task` if this
is about to send. -/
structure Mcu where
  pressed : UInt8
  lastPressed : UInt8
  reports : Reports
  ackCount : UInt8
  retransmitState : UInt8
  retransmitCount : UInt8
  buttonsWake : Bool
  sending : Option Nat
  enqueued : List UInt8
deriving DecidableEq, Repr

/-- `command_buttons_query`; a retransmit count that is too large is a shutdown. -/
def buttonsQuery (retransmitCount invert : UInt8) : Option Mcu :=
  if BF_NO_RETRANSMIT ≤ retransmitCount then none
  else some {
    pressed := invert
    lastPressed := invert
    reports := .empty
    ackCount := 0
    retransmitState := BF_ACKED
    retransmitCount
    buttonsWake := false
    sending := none
    enqueued := [] }

def readPins (values : List Bool) : UInt8 :=
  (values.foldl (fun (status, bit) value => (if value then status ||| bit else status, bit <<< 1))
    ((0, 1) : UInt8 × UInt8)).1

namespace Mcu

/-- Pin has been consistently different - report it. -/
def report (b : Mcu) (pressed : UInt8) : Mcu :=
  match b.reports.push pressed with
  | none => { b with pressed }
  | some reports =>
      { b with
        pressed
        reports
        buttonsWake := true
        retransmitState := BF_PENDING
        enqueued := b.enqueued ++ [pressed] }

def checkPins (b : Mcu) (status : UInt8) : Mcu :=
  let diff := status ^^^ b.pressed
  let debounced := ~~~(status ^^^ b.lastPressed)
  if diff ≠ 0 ∧ diff &&& debounced ≠ 0 then
    b.report ((b.pressed &&& ~~~debounced) ||| (status &&& debounced))
  else b

def checkRetransmit (b : Mcu) : Mcu :=
  if b.retransmitState &&& BF_NO_RETRANSMIT = 0 then
    let retransmitState := b.retransmitState - 1
    { b with
      buttonsWake := b.buttonsWake || retransmitState &&& BF_NO_RETRANSMIT ≠ 0
      retransmitState }
  else b

def buttonsEvent (b : Mcu) (values : List Bool) : Mcu :=
  let status := readPins values
  { b.checkPins status with lastPressed := status }.checkRetransmit

def buttonsAck (b : Mcu) (count : UInt8) : Mcu :=
  { b with
    ackCount := b.ackCount + count
    reports := b.reports.acknowledge count.toNat
    retransmitState := if b.reports.count ≤ count.toNat then BF_ACKED else b.retransmitState }

/-- `buttons_task` up to the end of its critical section. -/
def buttonsTask (b : Mcu) : Mcu :=
  if b.buttonsWake = false then b
  else if b.retransmitState ≠ BF_PENDING ∨ b.reports.count = 0 then { b with buttonsWake := false }
  else
    { b with
      buttonsWake := false
      retransmitState := b.retransmitCount
      sending := some b.reports.count }

end Mcu

/-- `buttons_state`. -/
structure Message where
  ackCount : UInt8
  state : List UInt8
deriving DecidableEq, Repr

/-- The `sendf` of `buttons_task`. -/
def Mcu.message (b : Mcu) (reportCount : Nat) : Message :=
  ⟨b.ackCount, b.reports.slots.toList.take reportCount⟩

/-- `MCU_buttons`, the calls of `handle_button` that are registered with the
reactor, and those that were made. A callback is known by its place in
`callbacks`. -/
structure Host where
  ackCount : Int
  lastButton : Nat
  asyncCallbacks : List UInt8
  handled : List UInt8
  calls : List (Nat × Nat)
deriving DecidableEq, Repr

def Host.initial : Host := ⟨0, 0, [], [], []⟩

namespace Host

def received (host : Host) : List UInt8 := host.handled ++ host.asyncCallbacks

/-- Expand the message ack_count from 8-bit. -/
def expandAckCount (ackCount : Int) (low : UInt8) : Int :=
  let ackDiff := (ackCount - low.toNat) % 256
  ackCount - if ackDiff.toNat &&& 0x80 ≠ 0 then ackDiff - 256 else ackDiff

/-- `handle_buttons_state`: the ack that is sent, if any. -/
def handleButtonsState (host : Host) (params : Message) : Host × Option Nat :=
  let msgAckCount := expandAckCount host.ackCount params.ackCount
  let newCount := msgAckCount + params.state.length - host.ackCount
  if newCount ≤ 0 then (host, none)
  else
    ({ host with
      ackCount := host.ackCount + newCount
      asyncCallbacks := host.asyncCallbacks ++ params.state.drop (params.state.length - newCount.toNat) },
      some newCount.toNat)

/-- `handle_button`. An entry of `callbacks` is a mask and a shift. -/
def handleButton (invert : Nat) (callbacks : List (Nat × Nat)) (host : Host) (button : UInt8) : Host :=
  let button' := button.toNat ^^^ invert
  let changed := button' ^^^ host.lastButton
  { host with
    lastButton := button'
    handled := host.handled ++ [button]
    calls := host.calls ++ callbacks.zipIdx.filterMap (fun ((mask, shift), index) =>
      if changed &&& mask ≠ 0 then some (index, (button' &&& mask) >>> shift) else none) }

end Host

structure Link where
  mcu : Mcu
  host : Host
  states : List Message
  acks : List Nat
deriving DecidableEq, Repr

/-- The micro-controller has processed its `buttons_query`. -/
def Begins (link : Link) : Prop :=
  ∃ retransmitCount invert, buttonsQuery retransmitCount invert = some link.mcu ∧
    link.host = .initial ∧ link.states = [] ∧ link.acks = []

inductive Input where
  /-- The timer reads these pins. -/
  | event (values : List Bool)
  /-- Another object wakes the task. -/
  | wake
  | task
  | send
  | ack
  | deliver
  | deliverAgain
  | lose (place : Nat)
  | callback
deriving DecidableEq, Repr

namespace Link

/-- The first message arrives, and stays under way if it is to arrive once more. -/
def receive (link : Link) (again : Bool) : Option Link :=
  match link.states with
  | [] => none
  | message :: rest =>
      let (host, ack) := link.host.handleButtonsState message
      some { link with
        host
        states := if again then message :: rest else rest
        acks := link.acks ++ ack.toList }

def step (invert : Nat) (callbacks : List (Nat × Nat)) (link : Link) : Input → Option Link
  | .event values => some { link with mcu := link.mcu.buttonsEvent values }
  | .wake => some { link with mcu := { link.mcu with buttonsWake := true } }
  | .task => if link.mcu.sending = none then some { link with mcu := link.mcu.buttonsTask } else none
  | .send =>
      link.mcu.sending.map (fun reportCount =>
        { link with
          mcu := { link.mcu with sending := none }
          states := link.states ++ [link.mcu.message reportCount] })
  | .ack =>
      match link.acks, link.mcu.sending with
      | count :: acks, none => some { link with mcu := link.mcu.buttonsAck (UInt8.ofNat count), acks }
      | _, _ => none
  | .deliver => link.receive false
  | .deliverAgain => link.receive true
  | .lose place => some { link with states := link.states.eraseIdx place }
  | .callback =>
      match link.host.asyncCallbacks with
      | [] => none
      | button :: rest =>
          some { link with
            host := { link.host with asyncCallbacks := rest }.handleButton invert callbacks button }

end Link

end MagnetoX.Buttons
