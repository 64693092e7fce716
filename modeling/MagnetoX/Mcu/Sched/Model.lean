import MagnetoX.Library.Word

/-!
Owns the model of the timers of `src/sched.c`: the linked list of timers in
memory, the functions that change it, and the dispatch of the next timer.

The memory has a fixed number of user timers. A walk along the list that reads a
null pointer or visits more nodes than there are gives no result, and so does
the sentinel timer's callback. Where the source waits for, kicks or
reads the hardware timer, only the time read is kept.
-/

namespace MagnetoX.Mcu.Sched

open Library.Word

/-- The addresses of the timers: three belong to the scheduler. -/
inductive TimerId (count : Nat) where
  | periodicTimer
  | sentinelTimer
  | deletedTimer
  | user (oid : Fin count)
deriving DecidableEq, Repr

/-- `struct timer`; the callback belongs to the address. -/
structure Timer (count : Nat) where
  next : Option (TimerId count)
  waketime : Int
deriving DecidableEq, Repr

variable {count : Nat}

abbrev Memory (count : Nat) : Type := TimerId count → Timer count

def setNext (timers : Memory count) (t : TimerId count) (next : Option (TimerId count)) :
    Memory count :=
  fun other => if other = t then { timers t with next } else timers other

def setWaketime (timers : Memory count) (t : TimerId count) (waketime : Int) : Memory count :=
  fun other => if other = t then { timers t with waketime } else timers other

/-- `SchedStatus`; `shutdownStatus` tells whether `shutdown_status` is set. -/
structure SchedStatus (count : Nat) where
  timers : Memory count
  timerList : TimerId count
  lastInsert : TimerId count
  shutdownStatus : Bool

def SchedStatus.init : SchedStatus count where
  timers
    | .periodicTimer => ⟨some .sentinelTimer, 0⟩
    | .sentinelTimer => ⟨none, 0x80000000⟩
    | .deletedTimer => ⟨none, 0⟩
    | .user _ => ⟨none, 0⟩
  timerList := .periodicTimer
  lastInsert := .periodicTimer
  shutdownStatus := false

def timerIsBefore (time1 time2 : Int) : Bool := decide (i32 (time1 - time2) < 0)

/-- Return the number of clock ticks for a given number of microseconds. -/
def timerFromUs (clockFreq : Nat) (us : Int) : Int := u32 (us * (clockFreq / 1000000 : Nat))

/-- No walk along the list visits more nodes. -/
def walkLimit (count : Nat) : Nat := count + 3

def insertTimer : Nat → Memory count → TimerId count → TimerId count → Int →
    Option (Memory count)
  | 0, _, _, _, _ => none
  | fuel + 1, timers, prev, t, waketime =>
      match (timers prev).next with
      | none => none
      | some pos =>
          if timerIsBefore waketime (timers pos).waketime then
            some (setNext (setNext timers t (some pos)) prev (some t))
          else insertTimer fuel timers pos t waketime

def schedTimerReset (s : SchedStatus count) : SchedStatus count :=
  let timers := setWaketime s.timers .deletedTimer (s.timers .periodicTimer).waketime
  let timers := setNext timers .deletedTimer (some .periodicTimer)
  { s with
    timers := setNext timers .periodicTimer (some .sentinelTimer)
    timerList := .deletedTimer
    lastInsert := .periodicTimer }

def runShutdown (s : SchedStatus count) : SchedStatus count :=
  { schedTimerReset s with shutdownStatus := true }

/-- Schedule a function call at a supplied time; `now` is what
`timer_read_time` returns. The flag tells that the timer was added. A timer that
is too close shuts the machine down, unless it is already. -/
def schedAddTimer (s : SchedStatus count) (now : Int) (add : TimerId count) :
    Option (SchedStatus count × Bool) :=
  let waketime := (s.timers add).waketime
  let tl := s.timerList
  if timerIsBefore waketime (s.timers tl).waketime then
    if timerIsBefore waketime now ∧ s.shutdownStatus = false then some (runShutdown s, false)
    else
      let next := if tl = .deletedTimer then (s.timers .deletedTimer).next else some tl
      let timers := setNext s.timers add next
      let timers := setWaketime timers .deletedTimer waketime
      let timers := setNext timers .deletedTimer (some add)
      some ({ s with timers, timerList := .deletedTimer }, true)
  else
    (insertTimer (walkLimit count) s.timers tl add waketime).map
      (fun timers => ({ s with timers }, true))

def removeTimer : Nat → Memory count → TimerId count → TimerId count → Option (Memory count)
  | 0, _, _, _ => none
  | fuel + 1, timers, pos, del =>
      match (timers pos).next with
      | none => some timers
      | some next =>
          if next = del then some (setNext timers pos (timers del).next)
          else removeTimer fuel timers next del

/-- Remove a timer that may be live. -/
def schedDelTimer (s : SchedStatus count) (del : TimerId count) : Option (SchedStatus count) :=
  let lastInsert := if s.lastInsert = del then .periodicTimer else s.lastInsert
  if s.timerList = del then
    let timers := setWaketime s.timers .deletedTimer (s.timers del).waketime
    some { s with
      timers := setNext timers .deletedTimer (s.timers del).next
      timerList := .deletedTimer
      lastInsert }
  else
    (removeTimer (walkLimit count) s.timers s.timerList del).map
      (fun timers => { s with timers, lastInsert })

inductive Sf where
  | done
  | reschedule
deriving DecidableEq, Repr

def periodicEvent (clockFreq : Nat) (s : SchedStatus count) : SchedStatus count :=
  let waketime := u32 ((s.timers .periodicTimer).waketime + timerFromUs clockFreq 100000)
  { s with
    timers := setWaketime (setWaketime s.timers .periodicTimer waketime) .sentinelTimer
      (u32 (waketime + 0x80000000)) }

/-- What the callback of a user timer does: it deletes other timers, sets its
own waketime and returns. -/
structure Callback (count : Nat) where
  deletes : List (Fin count)
  waketime : Int
  result : Sf
deriving DecidableEq, Repr

def invoke (clockFreq : Nat) (s : SchedStatus count) (callback : Callback count) :
    Option (SchedStatus count × Sf) :=
  match s.timerList with
  | .periodicTimer => some (periodicEvent clockFreq s, .reschedule)
  | .sentinelTimer => none
  | .deletedTimer => some (s, .done)
  | .user oid =>
      (callback.deletes.foldlM (fun s del => schedDelTimer s (.user del)) s).map (fun s =>
        ({ s with timers := setWaketime s.timers (.user oid) (u32 callback.waketime) },
          callback.result))

/-- The second part of `sched_timer_dispatch`: update `timer_list`, rescheduling
the current timer if necessary. `start` chooses where the search for the
position begins. -/
def updateTimerList (start : SchedStatus count → Int → TimerId count) (t : TimerId count)
    (s : SchedStatus count) (res : Sf) : Option (SchedStatus count × Int) :=
  let updatedWaketime := (s.timers t).waketime
  match (s.timers t).next with
  | none => none
  | some next =>
      match res with
      | .done =>
          some ({ s with
            timerList := next
            lastInsert := if s.lastInsert = t then next else s.lastInsert },
            (s.timers next).waketime)
      | .reschedule =>
          if !timerIsBefore updatedWaketime (s.timers next).waketime then
            let s := { s with timerList := next }
            (insertTimer (walkLimit count) s.timers (start s updatedWaketime) t
              updatedWaketime).map (fun timers =>
                ({ s with timers, lastInsert := t }, (s.timers next).waketime))
          else some (s, updatedWaketime)

/-- The search begins at `last_insert`, unless that is too late. -/
def insertionPoint (s : SchedStatus count) (updatedWaketime : Int) : TimerId count :=
  if timerIsBefore updatedWaketime (s.timers s.lastInsert).waketime then s.timerList
  else s.lastInsert

/-- Invoke the next timer; the result is the waketime of the one after it. -/
def schedTimerDispatch (clockFreq : Nat) (s : SchedStatus count) (callback : Callback count) :
    Option (SchedStatus count × Int) :=
  (invoke clockFreq s callback).bind (fun (called, res) =>
    updateTimerList insertionPoint s.timerList called res)

/-- Dispatch without the cached insertion point: the search begins at the head. -/
def dispatchFromHead (clockFreq : Nat) (s : SchedStatus count) (callback : Callback count) :
    Option (SchedStatus count × Int) :=
  (invoke clockFreq s callback).bind (fun (called, res) =>
    updateTimerList (fun s _ => s.timerList) s.timerList called res)

end MagnetoX.Mcu.Sched
