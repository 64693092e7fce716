import MagnetoX.Library.Word

/-!
Owns the model of `src/stepper.c`: one `struct stepper`, its move queue, the
three step event functions and the commands that act on it.

`struct stepper` is embedded field by field. Two things are added. The pins
carry their level, so that a step pulse is what the step pin does and not what
the counters say. `pulses` is a history variable: the signed number of step
pulses started so far.

The move free list is owned by the move allocator and the timer list by the
scheduler; here an allocation or a timer insertion that shuts the machine down
is an input of the command.
-/

namespace MagnetoX.Mcu.Stepping

open Library.Word

/-- The compile time choice at the head of `stepper.c`: both-edge stepping, the
AVR code, `CONFIG_INLINE_STEPPER_HACK` without either of them, or none. -/
inductive Variant where
  | edge
  | avr
  | inlined
  | plain
deriving DecidableEq, Repr

def Variant.singleSchedule : Variant → Bool
  | .edge => true
  | .avr => true
  | .inlined => false
  | .plain => false

structure StepperMove where
  interval : Int
  add : Int
  count : Int
  /-- `MF_DIR`: the direction pin is toggled when this move is loaded. -/
  dir : Bool
  /-- History: the direction bit selected when the move was queued. -/
  selected : Bool
deriving DecidableEq, Repr

structure Flags where
  lastDir : Bool
  nextDir : Bool
  invertStep : Bool
  needReset : Bool
  singleSched : Bool
  haveAdd : Bool
deriving DecidableEq, Repr

structure Stepper where
  waketime : Int
  interval : Int
  add : Int
  count : Int
  nextStepTime : Int
  stepPulseTicks : Int
  stepPin : Bool
  dirPin : Bool
  position : Int
  mq : List StepperMove
  flags : Flags
  /-- `time.func` is `stepper_event_full` (a null `func` calls `stepper_event`). -/
  funcFull : Bool
  /-- `time` is on the scheduler's timer list. -/
  scheduled : Bool
  /-- History: direction bit selected for the move being executed. -/
  selected : Bool
  /-- History: step pulses started, each counted with the sign of `dirPin`. -/
  pulses : Int
deriving DecidableEq, Repr

inductive Status where
  | done
  | reschedule
deriving DecidableEq, Repr

def positionBias : Int := 0x40000000

def timerIsBefore (time1 time2 : Int) : Bool := i32 (u32 (time1 - time2)) < 0

/-- Single scheduled steppers take one timer event a step. -/
abbrev Stepper.single (variant : Variant) (s : Stepper) : Bool :=
  variant.singleSchedule && s.flags.singleSched

/-- `gpio_out_toggle_noirq(s->step_pin)`. A stepper that steps on both edges
starts a step with every toggle, any other one when the pin leaves its idle
level. -/
def toggleStepPin (variant : Variant) (s : Stepper) : Stepper :=
  let level := !s.stepPin
  let starts := (variant == .edge && s.flags.singleSched) || level != s.flags.invertStep
  { s with
    stepPin := level
    pulses := if starts then s.pulses + (if s.dirPin then 1 else -1) else s.pulses }

section Toggle

variable (variant : Variant) (s : Stepper)

@[simp] theorem toggleStepPin_count : (toggleStepPin variant s).count = s.count := rfl

@[simp] theorem toggleStepPin_flags : (toggleStepPin variant s).flags = s.flags := rfl

@[simp] theorem toggleStepPin_stepPin : (toggleStepPin variant s).stepPin = !s.stepPin := rfl

end Toggle

/-- Setup a stepper for the next move in its queue. Double scheduled steppers
also need unstep events, so they count twice as many events. -/
def stepperLoadNext (variant : Variant) (s : Stepper) : Status × Stepper :=
  match s.mq with
  | [] => (.done, { s with count := 0 })
  | m :: rest =>
      (.reschedule, { s with
        mq := rest
        add := m.add
        interval := u32 (m.interval + m.add)
        waketime := u32 ((if s.single variant then s.waketime else s.nextStepTime) + m.interval)
        nextStepTime :=
          if s.single variant then s.nextStepTime else u32 (s.nextStepTime + m.interval)
        count := if s.single variant then m.count else u32 (m.count * 2)
        flags := { s.flags with
          haveAdd := if s.single variant && variant == .avr then m.add ≠ 0 else s.flags.haveAdd }
        -- Add all steps to s->position (stepper_get_position() can calc mid-move)
        position := u32 ((if m.dir then -s.position else s.position) + m.count)
        dirPin := s.dirPin != m.dir
        selected := m.selected })

def stepperEventEdge (variant : Variant) (s : Stepper) : Status × Stepper :=
  let s := toggleStepPin variant s
  let count := u32 (s.count - 1)
  if count ≠ 0 then
    (.reschedule, { s with
      count := count
      waketime := u32 (s.waketime + s.interval)
      interval := u32 (s.interval + s.add) })
  else
    stepperLoadNext variant s

/-- AVR optimized step function. `pcount` aliases the low half of `s->count`. -/
def stepperEventAvr (variant : Variant) (s : Stepper) : Status × Stepper :=
  let s := toggleStepPin variant s
  let count := u16 (u16 s.count - 1)
  if count ≠ 0 then
    let s := { s with
      count := s.count - u16 s.count + count
      waketime := u32 (s.waketime + s.interval)
      interval := if s.flags.haveAdd then u32 (s.interval + s.add) else s.interval }
    (.reschedule, toggleStepPin variant s)
  else
    let (ret, s) := stepperLoadNext variant s
    (ret, toggleStepPin variant s)

/-- Regular "double scheduled" step function; `curtime` is `timer_read_time()`. -/
def stepperEventFull (variant : Variant) (curtime : Int) (s : Stepper) : Status × Stepper :=
  let s := toggleStepPin variant s
  let minNextTime := u32 (curtime + s.stepPulseTicks)
  let s := { s with count := u32 (s.count - 1) }
  if s.count % 2 = 1 then
    -- Schedule unstep event
    (.reschedule, { s with waketime := minNextTime })
  else if s.count ≠ 0 then
    let s := { s with
      nextStepTime := u32 (s.nextStepTime + s.interval)
      interval := u32 (s.interval + s.add) }
    if timerIsBefore s.nextStepTime minNextTime then
      (.reschedule, { s with waketime := minNextTime })
    else
      (.reschedule, { s with waketime := s.nextStepTime })
  else
    let (ret, s) := stepperLoadNext variant s
    if ret = .done ∨ ¬ timerIsBefore s.waketime minNextTime then
      (ret, s)
    else
      (.reschedule, { s with waketime := minNextTime })

def stepperEvent (variant : Variant) (curtime : Int) (s : Stepper) : Status × Stepper :=
  match variant with
  | .edge => stepperEventEdge variant s
  | .avr => stepperEventAvr variant s
  | .inlined => stepperEventFull variant curtime s
  | .plain => stepperEventFull variant curtime s

/-- What `sched_timer_dispatch` does with the timer of a stepper: it calls
`time.func`, or `stepper_event` when that is null, and drops the timer from the
list on `SF_DONE`. -/
def timerDispatch (variant : Variant) (curtime : Int) (s : Stepper) : Stepper :=
  let (ret, s) :=
    if s.funcFull then stepperEventFull variant curtime s else stepperEvent variant curtime s
  match ret with
  | .done => { s with scheduled := false }
  | .reschedule => s

def avrStepInsns : Int := 40

/-- `config_stepper`; `invertStep` is the signed argument. -/
def commandConfigStepper (variant : Variant) (invertStep stepPulseTicks : Int) : Stepper :=
  let single :=
    match variant with
    | .edge => decide (stepPulseTicks = 0 ∧ invertStep < 0)
    | .avr => decide (stepPulseTicks ≤ avrStepInsns)
    | .inlined => false
    | .plain => false
  { waketime := 0, interval := 0, add := 0, count := 0, nextStepTime := 0
    stepPulseTicks := stepPulseTicks
    stepPin := decide (invertStep > 0)
    dirPin := false
    position := u32 (-positionBias)
    mq := []
    flags :=
      { lastDir := false, nextDir := false, invertStep := decide (invertStep > 0)
        needReset := false, singleSched := single, haveAdd := false }
    funcFull := !single && variant != .inlined
    scheduled := false
    selected := false
    pulses := 0 }

/-- How a command handler ends: normally, or in `sched_shutdown` with the
stepper as it is at that moment. -/
inductive Outcome where
  | returns (s : Stepper)
  | shutdown (reason : String) (s : Stepper)
deriving DecidableEq, Repr

/-- The shutdown causes that `queue_step` meets outside `stepper.c`. -/
structure Surroundings where
  /-- `move_alloc` finds the free list empty. -/
  moveQueueOverflow : Bool
  /-- `sched_add_timer` finds the new timer in the past. -/
  timerTooClose : Bool
deriving DecidableEq, Repr

def commandQueueStep (variant : Variant) (env : Surroundings) (interval count add : Int)
    (s : Stepper) : Outcome :=
  if env.moveQueueOverflow then
    .shutdown "Move queue overflow" s
  else if u16 count = 0 then
    .shutdown "Invalid count parameter" s
  else
    let turns := s.flags.lastDir != s.flags.nextDir
    let flags := { s.flags with lastDir := s.flags.lastDir != turns }
    let m : StepperMove :=
      { interval := u32 interval, add := i16 add, count := u16 count, dir := turns
        selected := s.flags.nextDir }
    if s.count ≠ 0 then
      .returns { s with flags := flags, mq := s.mq ++ [m] }
    else if flags.needReset then
      .returns s
    else
      let s := (stepperLoadNext variant { s with flags := flags, mq := s.mq ++ [m] }).2
      if env.timerTooClose then
        .shutdown "Timer too close" s
      else
        .returns { s with scheduled := true }

def commandSetNextStepDir (dir : Int) (s : Stepper) : Stepper :=
  { s with flags := { s.flags with nextDir := dir ≠ 0 } }

def commandResetStepClock (clock : Int) (s : Stepper) : Outcome :=
  if s.count ≠ 0 then
    .shutdown "Can't reset time when stepper active" s
  else
    .returns { s with
      nextStepTime := u32 clock
      waketime := u32 clock
      flags := { s.flags with needReset := false } }

def stepperGetPosition (variant : Variant) (s : Stepper) : Int :=
  let position := u32 (s.position - (if s.single variant then s.count else s.count / 2))
  -- The top bit of s->position is an optimized reverse direction flag
  if position ≥ 0x80000000 then u32 (-position) else position

/-- The `pos=%i` field of the `stepper_position` response. -/
def commandStepperGetPosition (variant : Variant) (s : Stepper) : Int :=
  i32 (stepperGetPosition variant s - positionBias)

def stepperStop (variant : Variant) (s : Stepper) : Stepper :=
  { s with
    scheduled := false
    nextStepTime := 0
    waketime := 0
    position := u32 (-stepperGetPosition variant s)
    count := 0
    flags :=
      { lastDir := false, nextDir := false, invertStep := s.flags.invertStep
        needReset := true, singleSched := s.flags.singleSched, haveAdd := false }
    dirPin := false
    stepPin := if variant = .edge ∧ s.flags.singleSched then s.stepPin else s.flags.invertStep
    mq := [] }

/-- `stepper_shutdown` for one stepper: `move_queue_clear`, then `stepper_stop`. -/
def stepperShutdown (variant : Variant) (s : Stepper) : Stepper :=
  stepperStop variant { s with mq := [] }

/-- After a shutdown `run_shutdown` calls every shutdown handler. -/
def Outcome.settle (variant : Variant) : Outcome → Stepper
  | .returns s => s
  | .shutdown _ s => stepperShutdown variant s

inductive Input where
  | queueStep (env : Surroundings) (interval count add : Int)
  | setNextStepDir (dir : Int)
  | resetStepClock (clock : Int)
  | timerEvent (curtime : Int)
  | trigger
  | shutdown
deriving DecidableEq, Repr

/-- One input; a timer event needs a scheduled timer. -/
def step (variant : Variant) (s : Stepper) : Input → Option Stepper
  | .queueStep env interval count add =>
      some ((commandQueueStep variant env interval count add s).settle variant)
  | .setNextStepDir dir => some (commandSetNextStepDir dir s)
  | .resetStepClock clock => some ((commandResetStepClock clock s).settle variant)
  | .timerEvent curtime => if s.scheduled then some (timerDispatch variant curtime s) else none
  | .trigger => some (stepperStop variant s)
  | .shutdown => some (stepperShutdown variant s)

end MagnetoX.Mcu.Stepping
