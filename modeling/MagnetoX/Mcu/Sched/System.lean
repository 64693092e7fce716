import MagnetoX.Mcu.Sched.Model

/-!
Owns the scheduler together with what its list of timers is for: the live timers
in the order in which they were scheduled, each with its waketime before it was
wrapped to 32 bits. Every operation acts on both. The operations of the
scheduler read nothing of the second part.

Does not own how the two parts are related.
-/

namespace MagnetoX.Mcu.Sched

open Library.Word

structure Entry (count : Nat) where
  timer : TimerId count
  waketime : Int
deriving DecidableEq, Repr

variable {count : Nat}

/-- `status` is `none` once an operation did not return. -/
structure System (count : Nat) where
  status : Option (SchedStatus count)
  now : Int
  arrivals : List (Entry count)

inductive Operation (count : Nat) where
  | elapse (ticks : Nat)
  | addTimer (oid : Fin count) (waketime : Int)
  | delTimer (oid : Fin count)
  | timerDispatch (callback : Callback count)
  | timerReset
  | shutdown
  | clearShutdown
deriving Repr

def liveAfterReset (arrivals : List (Entry count)) : List (Entry count) :=
  arrivals.filter (fun entry => entry.timer = .periodicTimer)

def liveAfterDel (oid : Fin count) (arrivals : List (Entry count)) : List (Entry count) :=
  arrivals.filter (fun entry => entry.timer ≠ .user oid)

/-- The dispatched timer leaves, and arrives again if it is rescheduled. The dummy
timer is never live. -/
def liveAfterDispatch (clockFreq : Nat) (head : TimerId count) (callback : Callback count)
    (arrivals : List (Entry count)) : List (Entry count) :=
  match head with
  | .periodicTimer =>
      arrivals.filter (fun entry => entry.timer ≠ .periodicTimer) ++
        (liveAfterReset arrivals).map (fun entry =>
          { entry with waketime := entry.waketime + timerFromUs clockFreq 100000 })
  | .sentinelTimer => arrivals
  | .deletedTimer => arrivals
  | .user oid =>
      let others := liveAfterDel oid
        (callback.deletes.foldl (fun live del => liveAfterDel del live) arrivals)
      match callback.result with
      | .done => others
      | .reschedule => others ++ [⟨.user oid, callback.waketime⟩]

namespace System

def Initial (s : System count) : Prop :=
  s.status = some SchedStatus.init ∧ s.arrivals = [⟨.periodicTimer, 0⟩]

/-- A timer that is being added must not be listed; it gets its waketime first. -/
def addTimer (s : System count) (status : SchedStatus count) (oid : Fin count) (waketime : Int) :
    Option (System count) :=
  if ∀ entry ∈ s.arrivals, entry.timer ≠ .user oid then
    let timers := setWaketime status.timers (.user oid) (u32 waketime)
    let result := schedAddTimer { status with timers } (u32 s.now) (.user oid)
    some { s with
      status := result.map Prod.fst
      arrivals :=
        if result.all Prod.snd then s.arrivals ++ [⟨.user oid, waketime⟩]
        else liveAfterReset s.arrivals }
  else none

/-- The timer at the head must be due, and its callback only deletes other
timers. -/
def dispatch (clockFreq : Nat) (s : System count) (status : SchedStatus count)
    (callback : Callback count) : Option (System count) :=
  if timerIsBefore (u32 s.now) (status.timers status.timerList).waketime = false ∧
      ∀ del ∈ callback.deletes, status.timerList ≠ .user del then
    some { s with
      status := (schedTimerDispatch clockFreq status callback).map Prod.fst
      arrivals := liveAfterDispatch clockFreq status.timerList callback s.arrivals }
  else none

def step (clockFreq : Nat) (s : System count) (operation : Operation count) :
    Option (System count) :=
  s.status.bind (fun status =>
    match operation with
    | .elapse ticks => some { s with now := s.now + ticks }
    | .addTimer oid waketime => s.addTimer status oid waketime
    | .delTimer oid =>
        some { s with
          status := schedDelTimer status (.user oid)
          arrivals := liveAfterDel oid s.arrivals }
    | .timerDispatch callback => s.dispatch clockFreq status callback
    | .timerReset =>
        some { s with
          status := some (schedTimerReset status)
          arrivals := liveAfterReset s.arrivals }
    | .shutdown =>
        some { s with
          status := some (runShutdown status)
          arrivals := liveAfterReset s.arrivals }
    | .clearShutdown => some { s with status := some { status with shutdownStatus := false } })

/-- The current time and all waketimes lie in one window shorter than `2^30`
ticks. -/
def Window (s : System count) : Prop :=
  ∀ first ∈ s.now :: s.arrivals.map Entry.waketime,
    ∀ second ∈ s.now :: s.arrivals.map Entry.waketime, first - second < 2 ^ 30

instance : DecidablePred (@Window count) := fun s => by
  unfold Window
  infer_instance

end System

end MagnetoX.Mcu.Sched
