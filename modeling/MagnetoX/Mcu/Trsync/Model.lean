import Mathlib.Data.List.FinRange

/-!
Owns the model of `src/trsync.c`: several `struct trsync` objects, the signals
that are registered with them, and the commands, timer callbacks and the shutdown
handler that act on them.

The signals are nodes of a memory: a signal has a callback and a successor, and an
object points to its first signal. Walking a list fails when a pointer to a
callback is null; it is cut off after more nodes than there are.

A callback is only recorded when it is invoked. The callbacks of the firmware,
`stepper_stop`, do not call into this file. A timer that is too close shuts the
micro-controller down, which is a shutdown behind the command.
-/

namespace MagnetoX.Mcu.Triggers

/-- `struct trsync`; the flags are separate fields, and a timer is scheduled or
not. -/
structure Trsync (n : Nat) where
  reportScheduled : Bool
  reportWaketime : UInt32
  reportTicks : UInt32
  expireScheduled : Bool
  expireWaketime : UInt32
  signals : Option (Fin n)
  canTrigger : Bool
  report : Bool
  triggerReason : UInt8
  expireReason : UInt8
deriving DecidableEq, Repr

structure Round (n : Nat) where
  /-- There was a start, and no shutdown since. -/
  running : Bool
  /-- The reasons of all calls of `trsync_do_trigger`. -/
  causes : List UInt8
  /-- The reasons of the calls that took effect. -/
  effects : List UInt8
  /-- The signals and callbacks that were registered before the trigger. -/
  registered : List (Fin n × Nat)
  /-- The callbacks that were invoked, with their signals and reasons. -/
  invoked : List ((Fin n × Nat) × UInt8)
deriving DecidableEq, Repr

structure Machine (m n : Nat) where
  objects : Fin m → Trsync n
  func : Fin n → Option Nat
  next : Fin n → Option (Fin n)
  trsyncWake : Bool
  rounds : Fin m → Round n

variable {m n : Nat}

def configTrsync : Trsync n where
  reportScheduled := false
  reportWaketime := 0
  reportTicks := 0
  expireScheduled := false
  expireWaketime := 0
  signals := none
  canTrigger := false
  report := false
  triggerReason := 0
  expireReason := 0

/-- `trsync_clear` on the fields of an object. -/
def Trsync.clear (ts : Trsync n) : Trsync n :=
  { ts with
    reportScheduled := false
    expireScheduled := false
    signals := none
    canTrigger := false
    report := false
    triggerReason := 0
    expireReason := 0 }

def Trsync.trigger (ts : Trsync n) (reason : UInt8) : Trsync n :=
  { ts with triggerReason := reason, canTrigger := false, report := true }

def Round.empty (running : Bool) : Round n := ⟨running, [], [], [], []⟩

/-- The history of an object after a shutdown: signals that no trigger has invoked
are dropped. -/
def Round.shutDown (round : Round n) : Round n :=
  { round with running := false, registered := if round.effects = [] then [] else round.registered }

namespace Machine

def config (m n : Nat) : Machine m n where
  objects := fun _ => configTrsync
  func := fun _ => none
  next := fun _ => none
  trsyncWake := false
  rounds := fun _ => .empty false

variable (s : Machine m n)

def setObject (i : Fin m) (ts : Trsync n) : Machine m n :=
  { s with objects := Function.update s.objects i ts }

def setRound (i : Fin m) (round : Round n) : Machine m n :=
  { s with rounds := Function.update s.rounds i round }

/-- `tss->next = NULL; tss->func = NULL`. -/
def release (tss : Fin n) : Machine m n :=
  { s with next := Function.update s.next tss none, func := Function.update s.func tss none }

/-- Take the first signal off the list of an object and invoke its callback. -/
def invoke (i : Fin m) (tss : Fin n) (func : Nat) (reason : UInt8) : Machine m n :=
  let round := s.rounds i
  ((s.setObject i { s.objects i with signals := s.next tss }).release tss).setRound i
    { round with invoked := round.invoked ++ [((tss, func), reason)] }

def dispatchSignals (i : Fin m) (reason : UInt8) : Nat → Machine m n → Option (Machine m n)
  | 0, _ => none
  | fuel + 1, s =>
      match (s.objects i).signals with
      | none => some s
      | some tss =>
          match s.func tss with
          | none => none
          | some func => dispatchSignals i reason fuel (s.invoke i tss func reason)

def trsyncDoTrigger (i : Fin m) (reason : UInt8) : Option (Machine m n) :=
  let ts := s.objects i
  let round := { s.rounds i with causes := (s.rounds i).causes ++ [reason] }
  if !ts.canTrigger then some (s.setRound i round)
  else
    let s := (s.setRound i { round with effects := round.effects ++ [reason] }).setObject i
      (ts.trigger reason)
    (dispatchSignals i reason (n + 1) s).map (fun s => { s with trsyncWake := true })

def trsyncExpireEvent (i : Fin m) : Option (Machine m n) :=
  -- The callback returns `SF_DONE`
  (s.setObject i { s.objects i with expireScheduled := false }).trsyncDoTrigger i
    (s.objects i).expireReason

def trsyncReportEvent (i : Fin m) : Machine m n :=
  let ts := s.objects i
  { s.setObject i { ts with report := true, reportWaketime := ts.reportWaketime + ts.reportTicks } with
    trsyncWake := true }

def clearSignals : Nat → Option (Fin n) → Machine m n → Option (Machine m n)
  | 0, _, _ => none
  | _ + 1, none, s => some s
  | fuel + 1, some tss, s => clearSignals fuel (s.next tss) (s.release tss)

def trsyncClear (i : Fin m) : Option (Machine m n) :=
  (clearSignals (n + 1) (s.objects i).signals s).map (fun s =>
    s.setObject i (s.objects i).clear)

/-- `trsync_shutdown`, after all timers were removed. -/
def trsyncShutdown : Option (Machine m n) :=
  (List.finRange m).foldlM (fun s i => (s.trsyncClear i).map (fun s =>
    s.setRound i (Round.shutDown (s.rounds i)))) s

/-- Add a callback to invoke on a trigger. A null callback is `none`. -/
def trsyncAddSignal (i : Fin m) (tss : Fin n) (func : Option Nat) : Option (Machine m n) :=
  match s.func tss, func with
  | none, some f =>
      let round := s.rounds i
      let s := { s with
        func := Function.update s.func tss (some f)
        next := Function.update s.next tss (s.objects i).signals }
      let s := s.setObject i { s.objects i with signals := some tss }
      some (s.setRound i { round with
        registered := if round.effects = [] then round.registered ++ [(tss, f)] else round.registered })
  -- shutdown("Can't add signal that is already active")
  | _, _ => s.trsyncShutdown

def commandTrsyncStart (i : Fin m) (reportClock reportTicks : UInt32) (expireReason : UInt8) :
    Option (Machine m n) :=
  (s.trsyncClear i).map (fun s =>
    (s.setObject i { s.objects i with
      canTrigger := true
      reportWaketime := reportClock
      reportTicks
      reportScheduled := reportTicks != 0
      expireReason }).setRound i (.empty true))

def commandTrsyncSetTimeout (i : Fin m) (clock : UInt32) : Machine m n :=
  if (s.objects i).canTrigger then
    s.setObject i { s.objects i with expireWaketime := clock, expireScheduled := true }
  else s

def commandTrsyncTrigger (i : Fin m) (reason : UInt8) : Option (Machine m n) :=
  (s.trsyncDoTrigger i reason).map (fun s =>
    s.setObject i { s.objects i with
      reportScheduled := false
      expireScheduled := false
      canTrigger := false
      report := false })

/-- `trsync_task`, which reports the objects that are marked. -/
def trsyncTask : Machine m n :=
  if s.trsyncWake then
    { s with
      trsyncWake := false
      objects := fun i => { s.objects i with report := false } }
  else s

end Machine

inductive Input (m n : Nat) where
  | start (i : Fin m) (reportClock reportTicks : UInt32) (expireReason : UInt8)
  | setTimeout (i : Fin m) (clock : UInt32)
  | trigger (i : Fin m) (reason : UInt8)
  /-- `endstop_oversample_event` triggers. -/
  | endstop (i : Fin m) (reason : UInt8)
  | expire (i : Fin m)
  | reportEvent (i : Fin m)
  | task
  | addSignal (i : Fin m) (tss : Fin n) (func : Option Nat)
  | shutdown

/-- Timer callbacks run when their timer is scheduled; all else may happen at any
time. -/
def Machine.enabled (s : Machine m n) : Input m n → Bool
  | .expire i => (s.objects i).expireScheduled
  | .reportEvent i => (s.objects i).reportScheduled
  | _ => true

/-- What an input does. There is no result if a null pointer is called or a list
has no end. -/
def Machine.execute (s : Machine m n) : Input m n → Option (Machine m n)
  | .start i reportClock reportTicks expireReason =>
      s.commandTrsyncStart i reportClock reportTicks expireReason
  | .setTimeout i clock => some (s.commandTrsyncSetTimeout i clock)
  | .trigger i reason => s.commandTrsyncTrigger i reason
  | .endstop i reason => s.trsyncDoTrigger i reason
  | .expire i => s.trsyncExpireEvent i
  | .reportEvent i => some (s.trsyncReportEvent i)
  | .task => some s.trsyncTask
  | .addSignal i tss func => s.trsyncAddSignal i tss func
  | .shutdown => s.trsyncShutdown

def Machine.step (s : Machine m n) (input : Input m n) : Option (Machine m n) :=
  if s.enabled input then s.execute input else none

end MagnetoX.Mcu.Triggers
