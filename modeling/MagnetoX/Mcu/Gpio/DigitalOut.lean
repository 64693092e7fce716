import MagnetoX.Library.Run
import MagnetoX.Mcu.Sched.Model

/-!
Owns the model of the digital outputs of `src/gpiocmds.c`: the commands that
update a pin, the two callbacks of its timer, and the check that the host makes
before it configures a pin.

A clock is an integer that stands for its residue modulo `2 ^ 32`: the code only
adds to clocks and compares them by the sign of a 32 bit difference. The timer is
scheduled or not, and a command that fails shuts the micro-controller down, which
runs the shutdown handler of the pin.
-/

namespace MagnetoX.Mcu.Gpio

open Mcu.Sched

inductive TimerFunc where
  | digitalLoadEvent
  | digitalToggleEvent
deriving DecidableEq, Repr

structure DigitalMove where
  waketime : Int
  onDuration : Nat
deriving DecidableEq, Repr

/-- `struct digital_out_s`; the flags are separate fields. -/
structure DigitalOut where
  scheduled : Bool
  waketime : Int
  func : TimerFunc
  onDuration : Nat
  offDuration : Nat
  endTime : Int
  pin : Bool
  maxDuration : Nat
  cycleTime : Nat
  mq : List DigitalMove
  isOn : Bool
  toggling : Bool
  checkEnd : Bool
  defaultOn : Bool
deriving DecidableEq, Repr

structure Shutdown where
  reason : String
  output : DigitalOut
deriving DecidableEq, Repr

def digitalOutShutdown (d : DigitalOut) : DigitalOut :=
  { d with
    pin := d.defaultOn
    isOn := d.defaultOn
    toggling := false
    checkEnd := false
    mq := [] }

/-- A shutdown removes all timers and runs the handlers. -/
def shutdown (reason : String) (d : DigitalOut) : Except Shutdown DigitalOut :=
  .error ⟨reason, digitalOutShutdown { d with scheduled := false }⟩

def digitalToggleEvent (d : DigitalOut) : DigitalOut :=
  let isOn := !d.isOn
  let waketime := d.waketime + if isOn then d.onDuration else d.offDuration
  let d := { d with pin := !d.pin, isOn }
  if d.checkEnd && !timerIsBefore waketime d.endTime then
    -- End of normal pulsing - next event loads new pwm settings
    { d with func := .digitalLoadEvent, waketime := d.endTime }
  else { d with waketime }

/-- The last part of `digital_load_event`: schedule next event. -/
def scheduleNext (d : DigitalOut) (onDuration : Nat) : DigitalOut :=
  if !d.toggling then
    if !d.checkEnd then
      -- Pin not toggling and nothing scheduled
      { d with scheduled := false }
    else { d with waketime := d.endTime }
  else
    let waketime := d.waketime + onDuration
    if d.checkEnd && !timerIsBefore waketime d.endTime then { d with waketime := d.endTime }
    else
      { d with
        func := .digitalToggleEvent
        waketime
        onDuration
        offDuration := d.cycleTime - onDuration }

/-- The level that an update sets: `DF_ON`. -/
def DigitalMove.isOn (m : DigitalMove) : Bool := decide (m.onDuration ≠ 0)

/-- The pin is not in an always on or always off state: `DF_TOGGLING`. -/
def DigitalOut.pulses (d : DigitalOut) (m : DigitalMove) : Bool :=
  !(!m.isOn || decide (m.onDuration ≥ d.cycleTime))

/-- The update expires: `DF_CHECK_END` without a next update. -/
def DigitalOut.limits (d : DigitalOut) (m : DigitalMove) : Bool :=
  if d.pulses m then decide (d.maxDuration ≠ 0)
  else m.isOn != d.defaultOn && decide (d.maxDuration ≠ 0)

def digitalLoadEvent (d : DigitalOut) : Except Shutdown DigitalOut :=
  match d.mq with
  | [] => shutdown "Missed scheduling of next digital out event" d
  | m :: mq =>
      -- Apply next update and remove it from queue
      let applied := { d with pin := m.isOn, mq }
      let endTime := d.waketime + d.maxDuration
      match mq with
      | [] =>
          .ok (scheduleNext { applied with
            endTime := if d.limits m then endTime else 0
            isOn := m.isOn
            toggling := d.pulses m
            checkEnd := d.limits m } m.onDuration)
      | next :: _ =>
          if d.limits m && timerIsBefore endTime next.waketime then
            shutdown "Scheduled digital out event will exceed max_duration" applied
          else
            .ok (scheduleNext { applied with
              endTime := next.waketime
              isOn := m.isOn
              toggling := d.pulses m
              checkEnd := true } m.onDuration)

def configDigitalOut (value defaultValue : Bool) (maxDuration : Nat) : DigitalOut where
  scheduled := false
  waketime := 0
  func := .digitalLoadEvent
  onDuration := 0
  offDuration := 0
  endTime := 0
  pin := value
  maxDuration := maxDuration
  cycleTime := 0
  mq := []
  isOn := value
  toggling := false
  checkEnd := false
  defaultOn := defaultValue

def setDigitalOutPwmCycle (d : DigitalOut) (cycleTicks : Nat) : Except Shutdown DigitalOut :=
  if d.mq ≠ [] then shutdown "Can not set soft pwm cycle ticks while updates pending" d
  else .ok { d with cycleTime := cycleTicks }

def queueDigitalOut (d : DigitalOut) (clock : Int) (onTicks : Nat) : Except Shutdown DigitalOut :=
  let firstOnQueue := d.mq.isEmpty
  let d := { d with mq := d.mq ++ [⟨clock, onTicks⟩] }
  if !firstOnQueue then .ok d
  else if d.checkEnd && timerIsBefore d.endTime clock then
    shutdown "Scheduled digital out event will exceed max_duration" d
  else
    let d := { d with endTime := clock, checkEnd := true }
    if d.toggling && timerIsBefore d.waketime clock then
      -- digital_toggle_event() will schedule a load event when ready
      .ok d
    else
      -- Schedule the loading of the parameters at the requested time
      .ok { d with scheduled := true, waketime := clock, func := .digitalLoadEvent }

def updateDigitalOut (d : DigitalOut) (timerReadTime : Int) (value : Bool) :
    Except Shutdown DigitalOut :=
  let d := { d with scheduled := false }
  if d.mq ≠ [] then shutdown "update_digital_out not valid with active queue" d
  else
    let d := { d with pin := value }
    if value != d.defaultOn && decide (d.maxDuration ≠ 0) then
      .ok { d with
        waketime := timerReadTime + d.maxDuration
        endTime := timerReadTime + d.maxDuration
        func := .digitalLoadEvent
        isOn := value
        toggling := false
        checkEnd := true
        scheduled := true }
    else .ok { d with isOn := value, toggling := false, checkEnd := false }

/-- `MCU_digital_out._build_config` for a pin that is not static: the arguments of
`config_digital_out`. The pin is limited if its `max_duration` is not zero. -/
def buildConfig (limited : Bool) (mdurTicks : Nat) (startValue shutdownValue : Bool) :
    Except String DigitalOut :=
  if limited ∧ startValue ≠ shutdownValue then
    .error "Pin with max duration must have start value equal to shutdown value"
  else if mdurTicks ≥ 2 ^ 31 then .error "Digital pin max duration too large"
  else .ok (configDigitalOut startValue shutdownValue mdurTicks)

/-- A pin and the time of the last update that was applied to it, which no step
reads. -/
structure Output where
  d : DigitalOut
  lastApplied : Int
deriving DecidableEq, Repr

inductive Input where
  | queueDigitalOut (clock : Int) (onTicks : Nat)
  | updateDigitalOut (timerReadTime : Int) (value : Bool)
  | setDigitalOutPwmCycle (cycleTicks : Nat)
  | timer
deriving Repr

/-- The clocks that the code may compare: of the timer and its next pulses, of the
end of the current setting, and of the updates on the queue. -/
def DigitalOut.live (d : DigitalOut) : List Int :=
  (if d.scheduled then [d.waketime] else []) ++
    (if d.scheduled ∧ d.func = .digitalToggleEvent then
      [d.waketime + d.onDuration, d.waketime + d.offDuration] else []) ++
    (if d.checkEnd then [d.endTime] else []) ++
    d.mq.map DigitalMove.waketime ++
    (d.mq.filter (fun m => m.onDuration < d.cycleTime)).map
      (fun m => m.waketime + (m.onDuration : Int))

def Input.clocks : Input → List Int
  | .queueDigitalOut clock _ => [clock]
  | _ => []

def Unambiguous (clocks : List Int) : Prop :=
  ∀ first ∈ clocks, ∀ second ∈ clocks, first - second < 2 ^ 31

instance (clocks : List Int) : Decidable (Unambiguous clocks) :=
  inferInstanceAs (Decidable (∀ first ∈ clocks, ∀ second ∈ clocks, first - second < 2 ^ 31))

/-- The outcome of an input; a timer that is not scheduled does not run. -/
def Output.outcome (o : Output) : Input → Option (Except Shutdown Output)
  | .queueDigitalOut clock onTicks =>
      some ((queueDigitalOut o.d clock onTicks).map (⟨·, o.lastApplied⟩))
  | .updateDigitalOut timerReadTime value =>
      some ((updateDigitalOut o.d timerReadTime value).map (⟨·, timerReadTime⟩))
  | .setDigitalOutPwmCycle cycleTicks =>
      some ((setDigitalOutPwmCycle o.d cycleTicks).map (⟨·, o.lastApplied⟩))
  | .timer =>
      if !o.d.scheduled then none
      else match o.d.func with
        | .digitalToggleEvent => some (.ok ⟨digitalToggleEvent o.d, o.lastApplied⟩)
        | .digitalLoadEvent =>
            some ((digitalLoadEvent o.d).map
              (⟨·, (o.d.mq.head?.map DigitalMove.waketime).getD o.lastApplied⟩))

/-- A step of a run in which clocks are compared without ambiguity and that does
not shut down. -/
def Output.step (o : Output) (input : Input) : Option Output :=
  if Unambiguous (o.d.live ++ input.clocks) then
    match o.outcome input with
    | some (.ok after) => some after
    | _ => none
  else none

end MagnetoX.Mcu.Gpio
