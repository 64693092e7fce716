import MagnetoX.Library.Run
import Mathlib.Order.Nat

/-!
Owns the model of `klippy/reactor.py` around `ReactorMutex`: the timers and
`_check_timers`, the greenlets and how `pause` and `_end_greenlet` switch between
them, and the mutex.

Greenlets and timers are numbered as they are created. One greenlet has control:
the one that dispatches, at the head of its loop or among the timers that
`_check_timers` has still to look at, or one that is in a callback. A callback is
any sequence of calls into the reactor and the mutex. Times are only compared, and
are natural numbers.

A greenlet that pauses while it dispatches leaves the timers that it had still to
look at: once it returns to `_check_timers`, it is no longer the one that
dispatches, and ends.
-/

namespace MagnetoX.Host.Reactor

def NOW : Nat := 0
def NEVER : Nat := 9999999999999999

inductive Mode where
  | unused
  /-- Its dispatch loop, or a callback that has not paused. -/
  | dispatching
  /-- `_end_greenlet`, until it is used again. -/
  | cached
  /-- A callback that has paused before. -/
  | active
  /-- A callback that is paused. -/
  | paused
  /-- A callback that is paused in the loop of `ReactorMutex.__enter__`. -/
  | waiting
deriving DecidableEq, Repr

/-- How a callback came to run. For a timer, also the time and the timers that
`_check_timers` has still to look at. -/
inductive Call where
  | readCallback
  /-- The callback of a timer. -/
  | callback (timer eventtime : Nat) (remaining : List Nat)
  /-- The timer of a greenlet, whose callback is `switch`. -/
  | switch (timer eventtime : Nat) (remaining : List Nat)
deriving DecidableEq, Repr

inductive Control where
  | loop
  | scan (eventtime : Nat) (remaining : List Nat)
  | run (g : Nat) (call : Call)
deriving DecidableEq, Repr

structure SelectReactor where
  /-- `_timers` -/
  timers : List Nat
  waketime : Nat → Nat
  /-- The greenlet to which the callback of a timer switches, if it does. -/
  switches : Nat → Option Nat
  timerCount : Nat
  /-- `_next_timer` -/
  nextTimer : Nat
  /-- `_g_dispatch` -/
  gDispatch : Nat
  /-- `_greenlets` -/
  greenlets : List Nat
  greenletCount : Nat
  /-- `timer` of a greenlet. -/
  timer : Nat → Option Nat
  /-- The timer in whose callback a greenlet paused first, if it was in one. -/
  base : Nat → Option Nat
  mode : Nat → Mode
  control : Control

/-- `ReactorMutex`. Also the greenlets between `lock` and `unlock`, all calls of
`lock`, and those that have returned, each in order. -/
structure ReactorMutex where
  isLocked : Bool
  nextPending : Bool
  queue : List Nat
  inside : List Nat
  arrivals : List Nat
  acquired : List Nat
deriving DecidableEq, Repr

namespace SelectReactor

def updateTimer (r : SelectReactor) (timer waketime : Nat) : SelectReactor :=
  { r with
    waketime := Function.update r.waketime timer waketime
    nextTimer := min r.nextTimer waketime }

/-- A new timer, which switches to a greenlet or has another callback. -/
def registerTimer (r : SelectReactor) (target : Option Nat) (waketime : Nat) : SelectReactor :=
  { r with
    timers := r.timers ++ [r.timerCount]
    waketime := Function.update r.waketime r.timerCount waketime
    switches := Function.update r.switches r.timerCount target
    timerCount := r.timerCount + 1
    nextTimer := min r.nextTimer waketime }

def unregisterTimer (r : SelectReactor) (timer : Nat) : SelectReactor :=
  { r with
    timers := r.timers.erase timer
    waketime := Function.update r.waketime timer NEVER }

def checkTimers (r : SelectReactor) (eventtime : Nat) : SelectReactor :=
  if eventtime < r.nextTimer then r
  else { r with nextTimer := NEVER, control := .scan eventtime r.timers }

/-- A timer that `_check_timers` finds not due. -/
def skip (r : SelectReactor) (timer eventtime : Nat) (remaining : List Nat) : SelectReactor :=
  { r with
    nextTimer := min r.nextTimer (r.waketime timer)
    control := .scan eventtime remaining }

def invoke (r : SelectReactor) (timer eventtime : Nat) (remaining : List Nat) : SelectReactor :=
  { r with
    waketime := Function.update r.waketime timer NEVER
    control := .run r.gDispatch (.callback timer eventtime remaining) }

/-- Back in `_check_timers` after a callback returned `waketime`. -/
def returned (r : SelectReactor) (timer waketime eventtime : Nat) (remaining : List Nat) : SelectReactor :=
  { r.updateTimer timer waketime with control := .scan eventtime remaining }

def setMode (r : SelectReactor) (g : Nat) (mode : Mode) : SelectReactor :=
  { r with mode := Function.update r.mode g mode }

def switchTo (r : SelectReactor) (g timer eventtime : Nat) (remaining : List Nat) : SelectReactor :=
  { r.setMode g .active with
    waketime := Function.update r.waketime timer NEVER
    control := .run g (.switch timer eventtime remaining) }

/-- The next greenlet dispatches: the last one that was cached, or a new one. -/
def dispatchNext (r : SelectReactor) : SelectReactor :=
  match r.greenlets.getLast? with
  | some next =>
      { r.setMode next .dispatching with
        greenlets := r.greenlets.dropLast
        gDispatch := next
        control := .loop }
  | none =>
      { r.setMode r.greenletCount .dispatching with
        gDispatch := r.greenletCount
        greenletCount := r.greenletCount + 1
        control := .loop }

/-- The dispatch greenlet pauses in a callback: it gets a timer of its own. -/
def beginPause (r : SelectReactor) (g : Nat) (base : Option Nat) (mode : Mode) (waketime : Nat) : SelectReactor :=
  let paused := { r.setMode g mode with
    base := Function.update r.base g base
    timer := Function.update r.timer g (some r.timerCount) }
  { paused.registerTimer (some g) waketime with nextTimer := NOW }

def pauseDispatch (r : SelectReactor) (g : Nat) (base : Option Nat) (mode : Mode) (waketime : Nat) : SelectReactor :=
  (r.beginPause g base mode waketime).dispatchNext

/-- `pause`, and the greenlet is in `mode` until it has control again. -/
def pause (r : SelectReactor) (g : Nat) (call : Call) (mode : Mode) (waketime : Nat) : SelectReactor :=
  match call with
  | .readCallback => r.pauseDispatch g none mode waketime
  | .callback timer _ _ => r.pauseDispatch g (some timer) mode waketime
  | .switch timer eventtime remaining => (r.setMode g mode).returned timer waketime eventtime remaining

/-- `_end_greenlet` up to its switch. -/
def endGreenlet (r : SelectReactor) (g timer : Nat) : SelectReactor :=
  { r.setMode g .cached with
    greenlets := r.greenlets ++ [g]
    timer := Function.update r.timer g none }.unregisterTimer timer

/-- What a greenlet whose callback has paused does to the timer that it began with. -/
def setBase (r : SelectReactor) (g waketime : Nat) : SelectReactor :=
  match r.base g with
  | none => r
  | some timer => r.updateTimer timer waketime

/-- A callback returns `waketime` to the loop of its greenlet. -/
def finish (r : SelectReactor) (g : Nat) (call : Call) (waketime : Nat) : SelectReactor :=
  match call with
  | .readCallback => { r with control := .loop }
  | .callback timer eventtime remaining => r.returned timer waketime eventtime remaining
  | .switch timer eventtime remaining =>
      ((r.setBase g waketime).endGreenlet g timer).returned timer NEVER eventtime remaining

end SelectReactor

namespace ReactorMutex

def acquire (m : ReactorMutex) (g : Nat) : ReactorMutex :=
  { m with inside := m.inside ++ [g], acquired := m.acquired ++ [g] }

/-- The test of `__enter__` for a mutex that is not locked. -/
def enterFree (m : ReactorMutex) (g : Nat) : ReactorMutex :=
  { m.acquire g with isLocked := true, arrivals := m.arrivals ++ [g] }

def enqueue (m : ReactorMutex) (g : Nat) : ReactorMutex :=
  { m with queue := m.queue ++ [g], arrivals := m.arrivals ++ [g] }

/-- The lock is handed to the greenlet at the head of the queue. -/
def enterNext (m : ReactorMutex) (g : Nat) : ReactorMutex :=
  { m.acquire g with nextPending := false, queue := m.queue.tail }

def exitFree (m : ReactorMutex) (g : Nat) : ReactorMutex :=
  { m with inside := m.inside.erase g, isLocked := false }

def exitNext (m : ReactorMutex) (g : Nat) : ReactorMutex :=
  { m with inside := m.inside.erase g, nextPending := true }

end ReactorMutex

structure State where
  reactor : SelectReactor
  mutex : ReactorMutex

namespace State

/-- `ReactorMutex.__enter__` up to its first pause. -/
def lock (s : State) (g : Nat) (call : Call) : State :=
  if s.mutex.isLocked = false then { s with mutex := s.mutex.enterFree g }
  else ⟨s.reactor.pause g call .waiting NEVER, s.mutex.enqueue g⟩

/-- `ReactorMutex.__exit__`; it fails if the greenlet ahead has no timer. -/
def unlock (s : State) (g : Nat) : Option State :=
  match s.mutex.queue with
  | [] => some { s with mutex := s.mutex.exitFree g }
  | ahead :: _ =>
      (s.reactor.timer ahead).map (fun timer => ⟨s.reactor.updateTimer timer NOW, s.mutex.exitNext g⟩)

/-- The timer of a greenlet switches to it. In the loop of `__enter__` the greenlet
takes the lock that is handed to it, or pauses again. -/
def resume (s : State) (g timer eventtime : Nat) (remaining : List Nat) : State :=
  if s.reactor.mode g = .waiting then
    if s.mutex.nextPending ∧ s.mutex.queue.head? = some g then
      ⟨s.reactor.switchTo g timer eventtime remaining, s.mutex.enterNext g⟩
    else { s with reactor := s.reactor.returned timer NEVER eventtime remaining }
  else { s with reactor := s.reactor.switchTo g timer eventtime remaining }

def visit (s : State) (timer eventtime : Nat) (remaining : List Nat) : State :=
  if s.reactor.waketime timer ≤ eventtime then
    match s.reactor.switches timer with
    | none => { s with reactor := s.reactor.invoke timer eventtime remaining }
    | some g => s.resume g timer eventtime remaining
  else { s with reactor := s.reactor.skip timer eventtime remaining }

end State

inductive Input where
  | checkTimers (eventtime : Nat)
  | readCallback
  | visit
  | lock
  | unlock
  | pause (waketime : Nat)
  | finish (waketime : Nat)
  | registerTimer (waketime : Nat)
  | unregisterTimer (timer : Nat)
  | updateTimer (timer waketime : Nat)
  /-- `update_timer` for the timer of a greenlet; `ReactorCompletion` and the mutex
  only ever make it due. -/
  | wake (timer : Nat)
deriving DecidableEq, Repr

/-- A call of a callback that does not concern the mutex. -/
def SelectReactor.step (r : SelectReactor) (g : Nat) (call : Call) : Input → Option SelectReactor
  | .pause waketime => some (r.pause g call .paused waketime)
  | .finish waketime => some (r.finish g call waketime)
  | .registerTimer waketime => some (r.registerTimer none waketime)
  | .unregisterTimer timer =>
      if timer ∈ r.timers ∧ r.switches timer = none then some (r.unregisterTimer timer) else none
  | .updateTimer timer waketime =>
      if timer ∈ r.timers ∧ r.switches timer = none then some (r.updateTimer timer waketime) else none
  | .wake timer =>
      if timer ∈ r.timers ∧ r.switches timer ≠ none then some (r.updateTimer timer NOW) else none
  | _ => none

/-- One step. A greenlet unlocks only what it has locked. -/
def step (s : State) (input : Input) : Option State :=
  match s.reactor.control with
  | .loop =>
      match input with
      | .checkTimers eventtime =>
          if eventtime < NEVER then some { s with reactor := s.reactor.checkTimers eventtime } else none
      | .readCallback =>
          some { s with reactor := { s.reactor with control := .run s.reactor.gDispatch .readCallback } }
      | _ => none
  | .scan eventtime remaining =>
      match input, remaining with
      | .visit, [] => some { s with reactor := { s.reactor with control := .loop } }
      | .visit, timer :: remaining => some (s.visit timer eventtime remaining)
      | _, _ => none
  | .run g call =>
      match input with
      | .lock => some (s.lock g call)
      | .unlock => if g ∈ s.mutex.inside then s.unlock g else none
      | input => (s.reactor.step g call input).map (fun reactor => { s with reactor })

def SelectReactor.initial : SelectReactor where
  timers := []
  waketime := fun _ => NEVER
  switches := fun _ => none
  timerCount := 0
  nextTimer := NEVER
  gDispatch := 0
  greenlets := []
  greenletCount := 1
  timer := fun _ => none
  base := fun _ => none
  mode := fun g => if g = 0 then .dispatching else .unused
  control := .loop

/-- The mutex may have been made locked, by a greenlet that is to unlock it. -/
def Begins (s : State) : Prop :=
  s = ⟨.initial, ⟨false, false, [], [], [], []⟩⟩ ∨ ∃ g, s = ⟨.initial, ⟨true, false, [], [g], [], []⟩⟩

end MagnetoX.Host.Reactor
