import MagnetoX.Library.Run
import MagnetoX.Mcu.Sched.Model

/-!
Owns the hardware PWM outputs of `src/pwmcmds.c`: the queue of updates, the timer that
applies them and then guards the last one, and that no update is lost, applied twice or
left without a guard.

The command writes the queue with interrupts disabled, and sets the timer up in separate
steps. Timer events may come between them. A clock is an integer that stands for its
residue modulo `2 ^ 32`, and no order of the clocks is assumed.
-/

namespace MagnetoX.Mcu.Pwm

open Library.Run Mcu.Sched List

inductive TimerFunc where
  | pwmEvent
  | pwmEndEvent
deriving DecidableEq, Repr

structure PwmMove where
  waketime : Int
  value : Nat
deriving DecidableEq, Repr

/-- `struct pwm_out_s`; `pin` is the last value written to the pin. -/
structure PwmOut where
  scheduled : Bool
  waketime : Int
  func : TimerFunc
  pin : Nat
  maxDuration : Nat
  defaultValue : Nat
  mq : List PwmMove
deriving DecidableEq, Repr

/-- Why an event or a command does not complete: a shutdown, with the output as the
shutdown handler leaves it, or a move read from an empty queue. -/
inductive Failure where
  | shutdown (reason : String) (p : PwmOut)
  | nullMove
deriving DecidableEq, Repr

def pwmShutdown (p : PwmOut) : PwmOut := { p with pin := p.defaultValue, func := .pwmEvent, mq := [] }

/-- A shutdown removes all timers and runs the handlers. -/
def shutdown {α : Type} (reason : String) (p : PwmOut) : Except Failure α :=
  .error (.shutdown reason (pwmShutdown { p with scheduled := false }))

def pwmEndEvent (p : PwmOut) : Except Failure PwmOut := shutdown "Missed scheduling of next hard pwm event" p

def pwmEvent (p : PwmOut) : Except Failure PwmOut :=
  match p.mq with
  | [] => .error .nullMove
  | m :: mq =>
      -- Apply next update and remove it from queue
      let p := { p with pin := m.value, mq }
      -- Check if more updates queued
      match mq with
      | [] =>
          if m.value = p.defaultValue ∨ p.maxDuration = 0 then .ok { p with scheduled := false }
          else
            -- Start the safety timeout
            .ok { p with waketime := p.waketime + p.maxDuration, func := .pwmEndEvent }
      | next :: _ =>
          if m.value ≠ p.defaultValue ∧ p.maxDuration ≠ 0 ∧
              timerIsBefore (p.waketime + p.maxDuration) next.waketime = true then
            shutdown "Scheduled pwm event will exceed max_duration" p
          else .ok { p with waketime := next.waketime }

/-- `config_pwm_out`; its `value` has been set on the pin. -/
def commandConfigPwmOut (value defaultValue maxDuration : Nat) : PwmOut :=
  ⟨false, 0, .pwmEvent, value, maxDuration, defaultValue % 2 ^ 16, []⟩

def pwmMove (clock : Int) (value : Nat) : PwmMove := ⟨clock, value % 2 ^ 16⟩

/-- The end of `queue_pwm_out`, where the queue was empty and the timer has been
removed. -/
def setTimer (p : PwmOut) (m : PwmMove) : Except Failure PwmOut :=
  if p.func = .pwmEndEvent ∧ timerIsBefore p.waketime m.waketime = true then
    shutdown "Scheduled pwm event will exceed max_duration" p
  else .ok { p with func := .pwmEvent, waketime := m.waketime, scheduled := true }

inductive Phase where
  | idle
  | pushed (m : PwmMove)
  | removed (m : PwmMove)
deriving DecidableEq, Repr

/-- An output, the command in execution, all updates that were queued and those that were
applied. -/
structure System where
  p : PwmOut
  phase : Phase
  queued : List PwmMove
  applied : List PwmMove
deriving DecidableEq, Repr

inductive Input where
  | queuePwmOut (clock : Int) (value : Nat)
  | schedDelTimer
  | schedAddTimer
  | timer
deriving DecidableEq, Repr

/-- The outcome of an input: commands follow each other, and a timer that is not
scheduled does not run. -/
def outcome (s : System) : Input → Option (Except Failure System)
  | .queuePwmOut clock value =>
      if s.phase = .idle then
        let m := pwmMove clock value
        some (.ok { s with
          p := { s.p with mq := s.p.mq ++ [m] }
          queued := s.queued ++ [m]
          phase := if s.p.mq = [] then .pushed m else .idle })
      else none
  | .schedDelTimer =>
      match s.phase with
      | .pushed m => some (.ok { s with p := { s.p with scheduled := false }, phase := .removed m })
      | _ => none
  | .schedAddTimer =>
      match s.phase with
      | .removed m => some ((setTimer s.p m).map (fun p => { s with p, phase := .idle }))
      | _ => none
  | .timer =>
      if s.p.scheduled then
        match s.p.func with
        | .pwmEndEvent => some ((pwmEndEvent s.p).map (fun p => { s with p }))
        | .pwmEvent =>
            some ((pwmEvent s.p).map (fun p => { s with p, applied := s.applied ++ s.p.mq.head?.toList }))
      else none

def step (s : System) (input : Input) : Option System :=
  match outcome s input with
  | some (.ok after) => some after
  | _ => none

def Configured (s : System) : Prop :=
  ∃ defaultValue maxDuration, 0 < maxDuration ∧ maxDuration < 2 ^ 31 ∧
    s = ⟨commandConfigPwmOut (defaultValue % 2 ^ 16) defaultValue maxDuration, .idle, [], []⟩

/-- Between commands, the timer is set for the first update on the queue, or for the
expiry. -/
structure TimerIdle (p : PwmOut) : Prop where
  due : ∀ m ∈ p.mq.head?, p.scheduled = true ∧ p.func = .pwmEvent ∧ p.waketime = m.waketime
  empty : p.mq = [] → p.scheduled = true → p.func = .pwmEndEvent

/-- The timer, as far as the command has come. -/
def TimerSet (s : System) : Prop :=
  match s.phase with
  | .idle => TimerIdle s.p
  | .pushed m => s.p.mq = [m] ∧ (s.p.scheduled = true → s.p.func = .pwmEndEvent)
  | .removed m => s.p.mq = [m] ∧ s.p.scheduled = false

structure Guarded (s : System) : Prop where
  limited : s.p.maxDuration ≠ 0
  account : s.queued = s.applied ++ s.p.mq
  pin : s.p.pin = (s.applied.getLast?.map PwmMove.value).getD s.p.defaultValue
  timer : TimerSet s
  expiry : s.p.mq = [] → ∀ m ∈ s.applied.getLast?, m.value ≠ s.p.defaultValue →
    s.p.scheduled = true ∧ s.p.func = .pwmEndEvent ∧ s.p.waketime = m.waketime + s.p.maxDuration

variable {s after : System} {input : Input}

theorem outcome_of_step (moves : step s input = some after) :
    outcome s input = some (.ok after) := by
  rw [step] at moves
  split at moves
  · rename_i result isResult
    cases moves
    exact isResult
  · cases moves

theorem Configured.guarded (configured : Configured s) : Guarded s := by
  obtain ⟨defaultValue, maxDuration, positive, -, rfl⟩ := configured
  refine ⟨Nat.ne_of_gt positive, rfl, rfl, ⟨?_, ?_⟩, ?_⟩
  · exact nofun
  · exact fun _ scheduled => (Bool.false_ne_true scheduled).elim
  · exact nofun

section

variable (guarded : Guarded s)
include guarded

/-- An update is queued behind the others; for the first one, the timer is next. -/
theorem Guarded.queuePwmOut {clock : Int} {value : Nat}
    (moves : step s (.queuePwmOut clock value) = some after) : Guarded after := by
  have isResult := outcome_of_step moves
  rw [outcome] at isResult
  split at isResult
  case isFalse => cases isResult
  case isTrue isIdle =>
    cases isResult
    have timer := guarded.timer
    rw [TimerSet, isIdle] at timer
    refine ⟨guarded.limited, ?_, guarded.pin, ?_, ?_⟩
    · change s.queued ++ _ = s.applied ++ (s.p.mq ++ _)
      rw [guarded.account, append_assoc]
    · cases isQueue : s.p.mq with
      | nil =>
        rw [if_pos rfl]
        exact ⟨rfl, timer.empty isQueue⟩
      | cons first rest =>
        rw [if_neg nofun]
        refine ⟨fun m isFirst => timer.due m ?_, nofun⟩
        rw [isQueue]
        exact isFirst
    · intro empty
      exact absurd empty (append_ne_nil_of_right_ne_nil _ nofun)

theorem Guarded.schedDelTimer (moves : step s .schedDelTimer = some after) : Guarded after := by
  have isResult := outcome_of_step moves
  rw [outcome] at isResult
  split at isResult
  case h_1 m isPhase =>
    cases isResult
    have timer := guarded.timer
    rw [TimerSet, isPhase] at timer
    refine { guarded with timer := ⟨timer.1, rfl⟩, expiry := ?_ }
    intro empty
    exact nomatch timer.1.symm.trans empty
  case h_2 => cases isResult

theorem Guarded.schedAddTimer (moves : step s .schedAddTimer = some after) : Guarded after := by
  have isResult := outcome_of_step moves
  rw [outcome] at isResult
  split at isResult
  case h_1 m isPhase =>
    obtain ⟨p, isSet, rfl⟩ := map_eq_ok (Option.some.inj isResult)
    have timer := guarded.timer
    rw [TimerSet, isPhase] at timer
    rw [setTimer] at isSet
    split at isSet
    case isTrue => cases isSet
    case isFalse =>
      cases isSet
      refine ⟨guarded.limited, guarded.account, guarded.pin, ⟨?_, ?_⟩, ?_⟩
      · intro first isFirst
        rw [timer.1] at isFirst
        cases isFirst
        exact ⟨rfl, rfl, rfl⟩
      · exact fun empty => nomatch timer.1.symm.trans empty
      · exact fun empty => nomatch timer.1.symm.trans empty
  case h_2 => cases isResult

/-- A `pwm_event` finds an update on the queue, at its time. -/
theorem Guarded.due (scheduled : s.p.scheduled = true) (isEvent : s.p.func = .pwmEvent) :
    s.phase = .idle ∧ ∃ m rest, s.p.mq = m :: rest ∧ s.p.waketime = m.waketime := by
  have timer := guarded.timer
  rw [TimerSet] at timer
  cases isPhase : s.phase with
  | idle =>
    rw [isPhase] at timer
    refine ⟨rfl, ?_⟩
    cases isQueue : s.p.mq with
    | nil => exact nomatch isEvent.symm.trans (timer.empty isQueue scheduled)
    | cons m rest => exact ⟨m, rest, rfl, (timer.due m (by rw [isQueue]; rfl)).2.2⟩
  | pushed m =>
    rw [isPhase] at timer
    exact nomatch isEvent.symm.trans (timer.2 scheduled)
  | removed m =>
    rw [isPhase] at timer
    exact nomatch scheduled.symm.trans timer.2

theorem Guarded.timerEvent (moves : step s .timer = some after) : Guarded after := by
  have isResult := outcome_of_step moves
  rw [outcome] at isResult
  split at isResult
  case isFalse => cases isResult
  case isTrue scheduled =>
    cases isFunc : s.p.func with
    | pwmEndEvent =>
      rw [isFunc] at isResult
      cases isResult
    | pwmEvent =>
      rw [isFunc] at isResult
      obtain ⟨isIdle, m, rest, isQueue, isTime⟩ := guarded.due scheduled isFunc
      obtain ⟨p, isApplied, rfl⟩ := map_eq_ok (Option.some.inj isResult)
      have limited := guarded.limited
      have account : s.queued = s.applied ++ s.p.mq.head?.toList ++ rest := by
        rw [guarded.account, isQueue, append_assoc]
        rfl
      have isLast : (s.applied ++ s.p.mq.head?.toList).getLast? = some m := by
        rw [isQueue]
        exact getLast?_concat
      have pin : m.value = ((s.applied ++ s.p.mq.head?.toList).getLast?.map PwmMove.value).getD
          s.p.defaultValue := by
        rw [isLast]
        rfl
      rw [pwmEvent, isQueue] at isApplied
      cases rest with
      | nil =>
        dsimp only at isApplied
        split at isApplied
        case isTrue isDefault =>
          cases isApplied
          have isDefault : m.value = s.p.defaultValue := isDefault.resolve_right limited
          refine ⟨limited, account, pin, ?_, ?_⟩
          · rw [TimerSet, isIdle]
            exact ⟨nofun, fun _ => nofun⟩
          · intro _ last isEnd differs
            cases isLast.symm.trans isEnd
            exact absurd isDefault differs
        case isFalse =>
          cases isApplied
          refine ⟨limited, account, pin, ?_, ?_⟩
          · rw [TimerSet, isIdle]
            exact ⟨nofun, fun _ _ => rfl⟩
          · intro _ last isEnd _
            cases isLast.symm.trans isEnd
            exact ⟨scheduled, rfl, by rw [isTime]⟩
      | cons next rest =>
        dsimp only at isApplied
        split at isApplied
        case isTrue => cases isApplied
        case isFalse =>
          cases isApplied
          refine ⟨limited, account, pin, ?_, nofun⟩
          rw [TimerSet, isIdle]
          refine ⟨?_, nofun⟩
          intro first isFirst
          cases isFirst
          exact ⟨scheduled, isFunc, rfl⟩

theorem Guarded.step (moves : step s input = some after) : Guarded after := by
  cases input with
  | queuePwmOut clock value => exact guarded.queuePwmOut moves
  | schedDelTimer => exact guarded.schedDelTimer moves
  | schedAddTimer => exact guarded.schedAddTimer moves
  | timer => exact guarded.timerEvent moves

end

theorem guarded_of_reachable (reached : Reachable Configured step s) : Guarded s := by
  refine reached.induct_invariant ?_ ?_
  · exact fun _ configured _ => configured.guarded
  · exact fun _ _ _ _ _ moves guarded => guarded.step moves

/-- The only way to read an empty queue is a `pwm_event`. -/
theorem Guarded.not_nullMove (guarded : Guarded s) (input : Input) : outcome s input ≠ some (.error .nullMove) := by
  cases input with
  | queuePwmOut clock value =>
    rw [outcome]
    split <;> exact nofun
  | schedDelTimer =>
    rw [outcome]
    cases s.phase <;> exact nofun
  | schedAddTimer =>
    rw [outcome]
    cases s.phase with
    | idle => exact nofun
    | pushed m => exact nofun
    | removed m =>
      dsimp only [setTimer]
      split <;> exact nofun
  | timer =>
    rw [outcome]
    split
    case isFalse => exact nofun
    case isTrue scheduled =>
      cases isFunc : s.p.func with
      | pwmEndEvent => exact nofun
      | pwmEvent =>
        obtain ⟨-, m, rest, isQueue, -⟩ := guarded.due scheduled isFunc
        rw [pwmEvent, isQueue]
        cases rest with
        | nil =>
          dsimp only
          split <;> exact nofun
        | cons next rest =>
          dsimp only
          split <;> exact nofun

/-- **Hardware PWM outputs are complete and guarded.** In every run: the updates that were
applied are the first ones that were queued, in order and each once, and the others are
on the queue; an update on the queue has the timer set for it as soon as its command is
done, and no event reads an empty queue; the pin has the value that was applied last; and
if this is not the default and no update is queued, `pwm_end_event` is scheduled for the
time of the update plus `max_duration`. -/
theorem pwm_out_watchdog (reached : Reachable Configured step s) :
    s.queued = s.applied ++ s.p.mq ∧ (s.phase = .idle → ∀ m ∈ s.p.mq.head?,
        s.p.scheduled = true ∧ s.p.func = .pwmEvent ∧ s.p.waketime = m.waketime) ∧
      (∀ input, outcome s input ≠ some (.error .nullMove)) ∧
      s.p.pin = (s.applied.getLast?.map PwmMove.value).getD s.p.defaultValue ∧
      (s.p.pin ≠ s.p.defaultValue → s.p.mq = [] → ∃ m, s.applied.getLast? = some m ∧ s.p.pin = m.value ∧
        s.p.scheduled = true ∧ s.p.func = .pwmEndEvent ∧ s.p.waketime = m.waketime + s.p.maxDuration) := by
  have guarded := guarded_of_reachable reached
  refine ⟨guarded.account, ?_, ?_, guarded.pin, ?_⟩
  · intro isIdle
    have timer := guarded.timer
    rw [TimerSet, isIdle] at timer
    exact timer.due
  · exact guarded.not_nullMove
  · intro differs empty
    have pin := guarded.pin
    cases isLast : s.applied.getLast? with
    | none =>
      rw [isLast] at pin
      exact absurd pin differs
    | some m =>
      rw [isLast] at pin
      have isValue : s.p.pin = m.value := pin
      exact ⟨m, rfl, isValue, guarded.expiry empty m isLast (isValue ▸ differs)⟩

/-- Two updates, of which the second is queued while the first one waits. -/
theorem pwm_out_watchdog_expiring :
    ∃ s, Reachable Configured step s ∧ s.applied = [⟨1000, 80⟩, ⟨2000, 120⟩] ∧ s.p.func = .pwmEndEvent ∧
      s.p.waketime = 7000 := by
  obtain ⟨s, reached, applied, empty, pin, isDefault, isMax⟩ := exists_reachable Configured step
    ⟨commandConfigPwmOut 0 0 5000, .idle, [], []⟩ ⟨0, 5000, by decide, by decide, rfl⟩
    [.queuePwmOut 1000 80, .schedDelTimer, .schedAddTimer, .queuePwmOut 2000 120, .timer, .timer]
    (fun s => s.applied = [⟨1000, 80⟩, ⟨2000, 120⟩] ∧ s.p.mq = [] ∧ s.p.pin = 120 ∧
      s.p.defaultValue = 0 ∧ s.p.maxDuration = 5000) (by decide +kernel)
  have differs : s.p.pin ≠ s.p.defaultValue := by
    rw [pin, isDefault]
    decide
  obtain ⟨m, isLast, -, -, isEnd, waketime⟩ := (pwm_out_watchdog reached).2.2.2.2 differs empty
  rw [applied] at isLast
  cases isLast
  exact ⟨s, reached, applied, isEnd, by rw [waketime, isMax]; rfl⟩

end MagnetoX.Mcu.Pwm
