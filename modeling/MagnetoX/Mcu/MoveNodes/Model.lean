import Mathlib.Data.List.FinRange
import MagnetoX.Library.StateProgram
import MagnetoX.Mcu.Gpio.DigitalOut
import MagnetoX.Mcu.Stepping.Model

/-!
Owns the model of the move queue of `src/basecmd.c` and of its users: the steppers
of `src/stepper.c`, the digital outputs of `src/gpiocmds.c` and the hardware PWM
outputs of `src/pwmcmds.c`. All of them share one memory of move nodes, and a node
holds the structure of the user that allocated it.

The records of steppers and digital outputs are those of their own models; their
queues stay empty here, because the moves are in the memory. A handler of a
command that allocates is interrupted at most where interrupts are enabled: its
parts run one after the other, and timers, triggers and shutdowns may come between
them. Following a null pointer, or reading a node as another structure than it
holds, is a fault.
-/

namespace MagnetoX.Mcu.MoveNodes

open Library.Word
open Mcu.Stepping (Stepper StepperMove Status Variant)
open Mcu.Gpio (DigitalOut DigitalMove)
open Mcu.Sched

/-- The functions that are declared with `DECL_SHUTDOWN` and act on move queues. -/
inductive ShutdownHandler where
  | moveReset
  | stepperShutdown
  | digitalOutShutdown
  | pwmShutdown
deriving DecidableEq, Repr

/-- What is fixed once the configuration is finalised: how many move nodes and how
many objects of each kind there are, and the order of the shutdown handlers. -/
structure Board where
  variant : Variant
  moveCount : Nat
  isFinalized : 0 < moveCount
  steppers : Nat
  digitals : Nat
  pwms : Nat
  shutdownOrder : List ShutdownHandler
  runsAll : ∀ handler, handler ∈ shutdownOrder

variable {b : Board}

inductive Owner (b : Board) where
  | stepper (oid : Fin b.steppers)
  | digital (oid : Fin b.digitals)
  | pwm (oid : Fin b.pwms)
deriving DecidableEq

abbrev Node (b : Board) := Fin b.moveCount

structure PwmMove where
  waketime : Int
  value : Nat
deriving DecidableEq, Repr

inductive Contents where
  | unused
  | stepper (m : StepperMove)
  | digital (m : DigitalMove)
  | pwm (m : PwmMove)
deriving DecidableEq, Repr

def Contents.stepper? : Contents → Option StepperMove
  | stepper m => some m
  | _ => none

def Contents.digital? : Contents → Option DigitalMove
  | digital m => some m
  | _ => none

def Contents.pwm? : Contents → Option PwmMove
  | pwm m => some m
  | _ => none

structure MoveQueueHead (b : Board) where
  first : Option (Node b)
  last : Option (Node b)
deriving DecidableEq

/-- The callbacks of a hardware PWM timer. -/
inductive PwmFunc where
  | pwmEvent
  | pwmEndEvent
deriving DecidableEq, Repr

structure PwmOut where
  scheduled : Bool
  waketime : Int
  func : PwmFunc
  pin : Nat
  maxDuration : Nat
  defaultValue : Nat
deriving DecidableEq, Repr

/-- A command handler between two of its parts, with the node that it allocated. -/
inductive Handler (b : Board) where
  | queueStep (oid : Fin b.steppers) (m : Node b)
  | queueDigitalOut (oid : Fin b.digitals) (m : Node b)
  | queuePwmOut (oid : Fin b.pwms) (m : Node b)
  /-- The node is on the queue, and the timer is still to be added. -/
  | addPwmTimer (oid : Fin b.pwms) (m : Node b)
deriving DecidableEq

structure Memory (b : Board) where
  next : Node b → Option (Node b)
  contents : Node b → Contents
  moveFreeList : Option (Node b)
  mq : Owner b → MoveQueueHead b

structure Machine (b : Board) where
  memory : Memory b
  steppers : Fin b.steppers → Stepper
  digitals : Fin b.digitals → DigitalOut
  pwms : Fin b.pwms → PwmOut
  running : Option (Handler b)

namespace Memory

variable (memory : Memory b)

def moveFree (m : Node b) : Memory b :=
  { memory with
    next := Function.update memory.next m memory.moveFreeList
    moveFreeList := some m }

def moveAlloc : Option (Node b × Memory b) :=
  memory.moveFreeList.map (fun mf => (mf, { memory with moveFreeList := memory.next mf }))

def moveQueueEmpty (mh : Owner b) : Bool := (memory.mq mh).first.isNone

def setHead (mh : Owner b) (head : MoveQueueHead b) : Memory b :=
  { memory with mq := Function.update memory.mq mh head }

def moveQueuePush (m : Node b) (mh : Owner b) : Option (Bool × Memory b) :=
  let memory := { memory with next := Function.update memory.next m none }
  match memory.mq mh with
  | ⟨none, _⟩ => some (true, memory.setHead mh ⟨some m, some m⟩)
  | ⟨some _, none⟩ => none
  | ⟨some first, some last⟩ =>
      some (false, { memory with next := Function.update memory.next last (some m) }.setHead mh
        ⟨some first, some m⟩)

def moveQueuePop (mh : Owner b) : Option (Node b × Memory b) :=
  (memory.mq mh).first.map (fun mn =>
    (mn, memory.setHead mh ⟨memory.next mn, (memory.mq mh).last⟩))

def moveQueueClear (mh : Owner b) : Memory b :=
  memory.setHead mh ⟨none, (memory.mq mh).last⟩

def moveReset : Memory b :=
  { memory with
    next := fun m => if more : m.val + 1 < b.moveCount then some ⟨m.val + 1, more⟩ else none
    moveFreeList := some ⟨0, b.isFinalized⟩ }

def setContents (m : Node b) (contents : Contents) : Memory b :=
  { memory with contents := Function.update memory.contents m contents }

end Memory

inductive Failure where
  | shutdown (reason : String)
  | fault
deriving DecidableEq, Repr

abbrev Program (b : Board) := EStateM Failure (Machine b)

def onMemory {α : Type} (change : Memory b → Option (α × Memory b)) (failure : Failure) :
    Program b α := do
  match change (← get).memory with
  | none => throw failure
  | some (value, memory) =>
      modify (fun s => { s with memory })
      return value

def moveAlloc : Program b (Node b) := onMemory Memory.moveAlloc (.shutdown "Move queue overflow")

def moveFree (m : Node b) : Program b Unit :=
  modify (fun s => { s with memory := s.memory.moveFree m })

def moveQueueEmpty (mh : Owner b) : Program b Bool := return (← get).memory.moveQueueEmpty mh

def moveQueuePush (m : Node b) (mh : Owner b) : Program b Bool :=
  onMemory (fun memory => memory.moveQueuePush m mh) .fault

def moveQueuePop (mh : Owner b) : Program b (Node b) :=
  onMemory (fun memory => memory.moveQueuePop mh) .fault

def moveQueueFirst (mh : Owner b) : Program b (Node b) := do
  match ((← get).memory.mq mh).first with
  | none => throw .fault
  | some mn => return mn

def fill (m : Node b) (contents : Contents) : Program b Unit :=
  modify (fun s => { s with memory := s.memory.setContents m contents })

/-- `container_of`: the structure that contains a node. -/
def containerOf {α : Type} (read : Contents → Option α) (mn : Node b) : Program b α := do
  match read ((← get).memory.contents mn) with
  | some m => return m
  | none => throw .fault

def stepperMove (mn : Node b) : Program b StepperMove := containerOf Contents.stepper? mn

def digitalMove (mn : Node b) : Program b DigitalMove := containerOf Contents.digital? mn

def pwmMove (mn : Node b) : Program b PwmMove := containerOf Contents.pwm? mn

def setStepper (oid : Fin b.steppers) (stepper : Stepper) : Program b Unit :=
  modify (fun s => { s with steppers := Function.update s.steppers oid stepper })

def setDigital (oid : Fin b.digitals) (digital : DigitalOut) : Program b Unit :=
  modify (fun s => { s with digitals := Function.update s.digitals oid digital })

def setPwm (oid : Fin b.pwms) (pwm : PwmOut) : Program b Unit :=
  modify (fun s => { s with pwms := Function.update s.pwms oid pwm })

def setRunning (running : Option (Handler b)) : Program b Unit := modify (fun s => { s with running })

def stepperLoadNext (oid : Fin b.steppers) : Program b Status := do
  if ← moveQueueEmpty (.stepper oid) then
    -- There is no next move - the queue is empty
    setStepper oid { (← get).steppers oid with count := 0 }
    return .done
  else
    let mn ← moveQueuePop (.stepper oid)
    let m ← stepperMove mn
    setStepper oid (Stepping.stepperLoadNext b.variant { (← get).steppers oid with mq := [m] }).2
    moveFree mn
    return .reschedule

def stepperEventEdge (oid : Fin b.steppers) : Program b Status := do
  let s := Stepping.toggleStepPin b.variant ((← get).steppers oid)
  let count := u32 (s.count - 1)
  if count ≠ 0 then
    setStepper oid { s with
      count
      waketime := u32 (s.waketime + s.interval)
      interval := u32 (s.interval + s.add) }
    return .reschedule
  else
    setStepper oid s
    stepperLoadNext oid

def stepperEventAvr (oid : Fin b.steppers) : Program b Status := do
  let s := Stepping.toggleStepPin b.variant ((← get).steppers oid)
  let count := u16 (u16 s.count - 1)
  if count ≠ 0 then
    setStepper oid (Stepping.toggleStepPin b.variant { s with
      count := s.count - u16 s.count + count
      waketime := u32 (s.waketime + s.interval)
      interval := if s.flags.haveAdd then u32 (s.interval + s.add) else s.interval })
    return .reschedule
  else
    setStepper oid s
    let ret ← stepperLoadNext oid
    setStepper oid (Stepping.toggleStepPin b.variant ((← get).steppers oid))
    return ret

def stepperEventFull (curtime : Int) (oid : Fin b.steppers) : Program b Status := do
  let s := Stepping.toggleStepPin b.variant ((← get).steppers oid)
  let minNextTime := u32 (curtime + s.stepPulseTicks)
  let s := { s with count := u32 (s.count - 1) }
  if s.count % 2 = 1 then
    -- Schedule unstep event
    setStepper oid { s with waketime := minNextTime }
    return .reschedule
  else if s.count ≠ 0 then
    let s := { s with
      nextStepTime := u32 (s.nextStepTime + s.interval)
      interval := u32 (s.interval + s.add) }
    setStepper oid { s with
      waketime :=
        if Stepping.timerIsBefore s.nextStepTime minNextTime then minNextTime else s.nextStepTime }
    return .reschedule
  else
    setStepper oid s
    let ret ← stepperLoadNext oid
    let s := (← get).steppers oid
    if ret = .done ∨ ¬ Stepping.timerIsBefore s.waketime minNextTime then return ret
    else
      setStepper oid { s with waketime := minNextTime }
      return .reschedule

def stepperEvent (curtime : Int) (oid : Fin b.steppers) : Program b Status :=
  match b.variant with
  | .edge => stepperEventEdge oid
  | .avr => stepperEventAvr oid
  | .inlined => stepperEventFull curtime oid
  | .plain => stepperEventFull curtime oid

/-- The callback of the timer; a null `func` calls `stepper_event`. -/
def stepperFunc (curtime : Int) (oid : Fin b.steppers) : Program b Status := do
  if ((← get).steppers oid).funcFull then stepperEventFull curtime oid
  else stepperEvent curtime oid

def stepperTimer (curtime : Int) (oid : Fin b.steppers) : Program b Unit := do
  let ret ← stepperFunc curtime oid
  if ret = .done then setStepper oid { (← get).steppers oid with scheduled := false }

/-- The first part of `command_queue_step`. The direction bit of the move is set in
the second part. -/
def commandQueueStep (oid : Fin b.steppers) (interval count add : Int) : Program b Unit := do
  let m ← moveAlloc
  fill m (.stepper ⟨u32 interval, i16 add, u16 count, false, false⟩)
  if u16 count = 0 then throw (.shutdown "Invalid count parameter")
  setRunning (some (.queueStep oid m))

def finishQueueStep (oid : Fin b.steppers) (mn : Node b) : Program b Unit := do
  let m ← stepperMove mn
  let s := (← get).steppers oid
  let turns := s.flags.lastDir != s.flags.nextDir
  let flags := { s.flags with lastDir := s.flags.lastDir != turns }
  fill mn (.stepper { m with dir := turns, selected := s.flags.nextDir })
  if s.count ≠ 0 then
    setStepper oid { s with flags }
    let _ ← moveQueuePush mn (.stepper oid)
  else if flags.needReset then moveFree mn
  else
    setStepper oid { s with flags }
    let _ ← moveQueuePush mn (.stepper oid)
    let _ ← stepperLoadNext oid
    setStepper oid { (← get).steppers oid with scheduled := true }
  setRunning none

def commandSetNextStepDir (oid : Fin b.steppers) (dir : Int) : Program b Unit := do
  setStepper oid (Stepping.commandSetNextStepDir dir ((← get).steppers oid))

def commandResetStepClock (oid : Fin b.steppers) (clock : Int) : Program b Unit := do
  match Stepping.commandResetStepClock clock ((← get).steppers oid) with
  | .returns s => setStepper oid s
  | .shutdown reason _ => throw (.shutdown reason)

/-- The loop of `stepper_stop`. -/
def freeQueue (mh : Owner b) : Nat → Program b Unit
  | 0 => throw .fault
  | fuel + 1 => do
      if ← moveQueueEmpty mh then return
      else
        let mn ← moveQueuePop mh
        moveFree mn
        freeQueue mh fuel

def stepperStop (oid : Fin b.steppers) : Program b Unit := do
  setStepper oid (Stepping.stepperStop b.variant ((← get).steppers oid))
  freeQueue (.stepper oid) (b.moveCount + 1)

def digitalLoadEvent (oid : Fin b.digitals) : Program b Unit := do
  if ← moveQueueEmpty (.digital oid) then
    throw (.shutdown "Missed scheduling of next digital out event")
  let mn ← moveQueuePop (.digital oid)
  let m ← digitalMove mn
  let d := (← get).digitals oid
  let endTime := d.waketime + d.maxDuration
  let applied := { d with pin := m.isOn, isOn := m.isOn, toggling := d.pulses m }
  moveFree mn
  if ← moveQueueEmpty (.digital oid) then
    setDigital oid (Gpio.scheduleNext { applied with
      endTime := if d.limits m then endTime else 0
      checkEnd := d.limits m } m.onDuration)
  else
    let next ← digitalMove (← moveQueueFirst (.digital oid))
    if d.limits m && timerIsBefore endTime next.waketime then
      throw (.shutdown "Scheduled digital out event will exceed max_duration")
    setDigital oid (Gpio.scheduleNext { applied with
      endTime := next.waketime
      checkEnd := true } m.onDuration)

def digitalTimer (oid : Fin b.digitals) : Program b Unit := do
  let d := (← get).digitals oid
  match d.func with
  | .digitalToggleEvent => setDigital oid (Gpio.digitalToggleEvent d)
  | .digitalLoadEvent => digitalLoadEvent oid

def commandSetDigitalOutPwmCycle (oid : Fin b.digitals) (cycleTicks : Nat) : Program b Unit := do
  if !(← moveQueueEmpty (.digital oid)) then
    throw (.shutdown "Can not set soft pwm cycle ticks while updates pending")
  setDigital oid { (← get).digitals oid with cycleTime := cycleTicks }

/-- The first part of a handler that queues a node. -/
def queueNode (contents : Contents) (handler : Node b → Handler b) : Program b Unit := do
  let m ← moveAlloc
  fill m contents
  setRunning (some (handler m))

def commandQueueDigitalOut (oid : Fin b.digitals) (clock : Int) (onTicks : Nat) : Program b Unit :=
  queueNode (.digital ⟨clock, onTicks⟩) (.queueDigitalOut oid)

def finishQueueDigitalOut (oid : Fin b.digitals) (mn : Node b) : Program b Unit := do
  let time := (← digitalMove mn).waketime
  let firstOnQueue ← moveQueuePush mn (.digital oid)
  if firstOnQueue then
    let d := (← get).digitals oid
    if d.checkEnd && timerIsBefore d.endTime time then
      throw (.shutdown "Scheduled digital out event will exceed max_duration")
    let d := { d with endTime := time, checkEnd := true }
    if d.toggling && timerIsBefore d.waketime time then
      -- digital_toggle_event() will schedule a load event when ready
      setDigital oid d
    else
      -- Schedule the loading of the parameters at the requested time
      setDigital oid { d with scheduled := true, waketime := time, func := .digitalLoadEvent }
  setRunning none

def commandUpdateDigitalOut (oid : Fin b.digitals) (timerReadTime : Int) (value : Bool) :
    Program b Unit := do
  if !(← moveQueueEmpty (.digital oid)) then
    throw (.shutdown "update_digital_out not valid with active queue")
  match Gpio.updateDigitalOut ((← get).digitals oid) timerReadTime value with
  | .ok d => setDigital oid d
  | .error failure => throw (.shutdown failure.reason)

def pwmEvent (oid : Fin b.pwms) : Program b Unit := do
  -- Apply next update and remove it from queue
  let mn ← moveQueuePop (.pwm oid)
  let value := (← pwmMove mn).value
  let p : PwmOut := { (← get).pwms oid with pin := value }
  moveFree mn
  -- Check if more updates queued
  if ← moveQueueEmpty (.pwm oid) then
    if value = p.defaultValue ∨ p.maxDuration = 0 then setPwm oid { p with scheduled := false }
    else
      -- Start the safety timeout
      setPwm oid { p with waketime := p.waketime + p.maxDuration, func := .pwmEndEvent }
  else
    -- Schedule next update
    let wake := (← pwmMove (← moveQueueFirst (.pwm oid))).waketime
    if value ≠ p.defaultValue ∧ p.maxDuration ≠ 0 ∧
        timerIsBefore (p.waketime + p.maxDuration) wake = true then
      throw (.shutdown "Scheduled pwm event will exceed max_duration")
    setPwm oid { p with waketime := wake }

def pwmTimer (oid : Fin b.pwms) : Program b Unit := do
  match ((← get).pwms oid).func with
  | .pwmEvent => pwmEvent oid
  | .pwmEndEvent => throw (.shutdown "Missed scheduling of next hard pwm event")

def commandQueuePwmOut (oid : Fin b.pwms) (clock : Int) (value : Nat) : Program b Unit :=
  queueNode (.pwm ⟨clock, value⟩) (.queuePwmOut oid)

def pushPwmOut (oid : Fin b.pwms) (mn : Node b) : Program b Unit := do
  let needAddTimer ← moveQueuePush mn (.pwm oid)
  setRunning (if needAddTimer then some (.addPwmTimer oid mn) else none)

/-- The queue was empty and a timer needs to be added. -/
def addPwmTimer (oid : Fin b.pwms) (mn : Node b) : Program b Unit := do
  let m ← pwmMove mn
  let p := (← get).pwms oid
  if p.func = .pwmEndEvent ∧ timerIsBefore p.waketime m.waketime = true then
    throw (.shutdown "Scheduled pwm event will exceed max_duration")
  setPwm oid { p with scheduled := true, func := .pwmEvent, waketime := m.waketime }
  setRunning none

def ShutdownHandler.run : ShutdownHandler → Program b Unit
  | .moveReset => modify (fun s => { s with memory := s.memory.moveReset })
  | .stepperShutdown => (List.finRange b.steppers).forM (fun oid => do
      modify (fun s => { s with memory := s.memory.moveQueueClear (.stepper oid) })
      stepperStop oid)
  | .digitalOutShutdown => (List.finRange b.digitals).forM (fun oid => do
      modify (fun s => { s with memory := s.memory.moveQueueClear (.digital oid) })
      setDigital oid (Gpio.digitalOutShutdown ((← get).digitals oid)))
  | .pwmShutdown => (List.finRange b.pwms).forM (fun oid => do
      let p := (← get).pwms oid
      setPwm oid { p with pin := p.defaultValue, func := .pwmEvent }
      modify (fun s => { s with memory := s.memory.moveQueueClear (.pwm oid) }))

/-- All timers are removed, and the interrupted handler does not go on. -/
def Machine.timerReset (s : Machine b) : Machine b :=
  { s with
    steppers := fun oid => { s.steppers oid with scheduled := false }
    digitals := fun oid => { s.digitals oid with scheduled := false }
    pwms := fun oid => { s.pwms oid with scheduled := false }
    running := none }

def runShutdown : Program b Unit := do
  modify Machine.timerReset
  b.shutdownOrder.forM ShutdownHandler.run

inductive Input (b : Board) where
  | queueStep (oid : Fin b.steppers) (interval count add : Int)
  | setNextStepDir (oid : Fin b.steppers) (dir : Int)
  | resetStepClock (oid : Fin b.steppers) (clock : Int)
  | queueDigitalOut (oid : Fin b.digitals) (clock : Int) (onTicks : Nat)
  | updateDigitalOut (oid : Fin b.digitals) (timerReadTime : Int) (value : Bool)
  | setDigitalOutPwmCycle (oid : Fin b.digitals) (cycleTicks : Nat)
  | queuePwmOut (oid : Fin b.pwms) (clock : Int) (value : Nat)
  /-- The next part of the command handler. -/
  | resume
  | stepperTimer (oid : Fin b.steppers) (curtime : Int)
  | digitalTimer (oid : Fin b.digitals)
  | pwmTimer (oid : Fin b.pwms)
  /-- The callback of a trigger. -/
  | stepperStop (oid : Fin b.steppers)
  | shutdown

/-- What an input runs; nothing, if it cannot happen now. A command starts when no
handler is running, and a timer is dispatched when it is scheduled. -/
def Machine.program (s : Machine b) : Input b → Option (Program b Unit)
  | .queueStep oid interval count add => whenIdle (commandQueueStep oid interval count add)
  | .setNextStepDir oid dir => whenIdle (commandSetNextStepDir oid dir)
  | .resetStepClock oid clock => whenIdle (commandResetStepClock oid clock)
  | .queueDigitalOut oid clock onTicks => whenIdle (commandQueueDigitalOut oid clock onTicks)
  | .updateDigitalOut oid time value => whenIdle (commandUpdateDigitalOut oid time value)
  | .setDigitalOutPwmCycle oid cycleTicks => whenIdle (commandSetDigitalOutPwmCycle oid cycleTicks)
  | .queuePwmOut oid clock value => whenIdle (commandQueuePwmOut oid clock value)
  | .resume =>
      match s.running with
      | none => none
      | some (.queueStep oid m) => some (finishQueueStep oid m)
      | some (.queueDigitalOut oid m) => some (finishQueueDigitalOut oid m)
      | some (.queuePwmOut oid m) => some (pushPwmOut oid m)
      | some (.addPwmTimer oid m) => some (addPwmTimer oid m)
  | .stepperTimer oid curtime =>
      if (s.steppers oid).scheduled then some (MoveNodes.stepperTimer curtime oid) else none
  | .digitalTimer oid =>
      if (s.digitals oid).scheduled then some (MoveNodes.digitalTimer oid) else none
  | .pwmTimer oid => if (s.pwms oid).scheduled then some (MoveNodes.pwmTimer oid) else none
  | .stepperStop oid => some (MoveNodes.stepperStop oid)
  | .shutdown => some (throw (.shutdown "Command request"))
where
  whenIdle (command : Program b Unit) : Option (Program b Unit) :=
    if s.running = none then some command else none

/-- How a program ends: a shutdown runs the shutdown handlers, and there is no state
after a fault. -/
def Machine.finish (s : Machine b) (program : Program b Unit) : Option (Machine b) :=
  match program s with
  | .ok _ after => some after
  | .error .fault _ => none
  | .error (.shutdown _) stopped =>
      match runShutdown stopped with
      | .ok _ after => some after
      | .error _ _ => none

def Machine.step (s : Machine b) (input : Input b) : Option (Machine b) :=
  (s.program input).bind s.finish

structure Objects (b : Board) where
  steppers : Fin b.steppers → Int × Int
  digitals : Fin b.digitals → Bool × Bool × Nat
  pwms : Fin b.pwms → Nat × Nat × Nat

/-- The state after `finalize_config`: all queues are empty and `move_finalize` has
put every node on the free list. -/
def Machine.config (objects : Objects b) : Machine b where
  memory := Memory.moveReset
    { next := fun _ => none
      contents := fun _ => .unused
      moveFreeList := none
      mq := fun _ => ⟨none, none⟩ }
  steppers := fun oid =>
    let (invertStep, stepPulseTicks) := objects.steppers oid
    Stepping.commandConfigStepper b.variant invertStep stepPulseTicks
  digitals := fun oid =>
    let (value, defaultValue, maxDuration) := objects.digitals oid
    Gpio.configDigitalOut value defaultValue maxDuration
  pwms := fun oid =>
    let (value, defaultValue, maxDuration) := objects.pwms oid
    { scheduled := false
      waketime := 0
      func := .pwmEvent
      pin := value
      maxDuration
      defaultValue }
  running := none

end MagnetoX.Mcu.MoveNodes
