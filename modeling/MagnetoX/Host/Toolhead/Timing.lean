import Mathlib.Data.Rat.Floor
import MagnetoX.Host.Toolhead.MoveQueue
import MagnetoX.Library.StateProgram

/-!
Owns the model of how the toolhead of `klippy/toolhead.py` keeps time: the print
time and its resynchronisation, the flushing of step generation, the hand-over of
moves to the trapezoid motion queue, and the operations of `ToolHead` that drive
them.

Times are exact. What the machine answers, its estimated print times and the
tests of the drip completion, is supplied with each operation; `sqrt` is any
function without negative values. An operation ends where the toolhead pauses in
the stall check, and `stallPass` is what follows a pause. The flush timer is not
modelled: `flushHandler` may run between any two operations. While a drip move
waits the timer is off, and nothing else drives the toolhead.
-/

namespace MagnetoX.Host.Toolhead

open Library.StateProgram

def MIN_KIN_TIME : ℚ := 1 / 10
def MOVE_BATCH_TIME : ℚ := 1 / 2
def SDS_CHECK_TIME : ℚ := 1 / 1000
def DRIP_SEGMENT_TIME : ℚ := 1 / 20
def DRIP_TIME : ℚ := 1 / 10
def NEVER : ℚ := 9999999999999999

/-- The options that time keeping reads, and the square root of floats. -/
structure Config where
  bufferTimeLow : ℚ
  bufferTimeHigh : ℚ
  bufferTimeStart : ℚ
  moveFlushTime : ℚ
  sqrt : ℚ → ℚ
  sqrt_nonneg : ∀ v, 0 ≤ sqrt v

/-- `special_queuing_state`; the main state is the empty text. -/
inductive Queuing where
  | main
  | flushed
  | priming
  | drip
deriving DecidableEq, Repr

/-- What the toolhead does to its clock, to the step generators, to the motion
queue and to the micro-controllers. An appended move is noted with the kinematic
flush delay in force. -/
inductive Event where
  | printTime (time : ℚ)
  | generateSteps (flushTime : ℚ)
  | finalizeMoves (freeTime : ℚ)
  | flushMoves (flushTime : ℚ)
  | trapqAppend (start kinFlushDelay : ℚ)
deriving DecidableEq, Repr

/-- The fields of `ToolHead` that keep time, what the machine will answer, and
what was done so far. -/
structure ToolHead where
  config : Config
  moveQueue : MoveQueue
  printTime : ℚ
  specialQueuingState : Queuing
  needCheckStall : ℚ
  idleFlushPrintTime : ℚ
  printStall : Nat
  canPause : Bool
  kinFlushDelay : ℚ
  kinFlushTimes : List ℚ
  forceFlushTime : ℚ
  lastKinMoveTime : ℚ
  estimates : List ℚ
  completions : List Bool
  history : List Event

def ToolHead.init (config : Config) (canPause : Bool) : ToolHead where
  config := config
  moveQueue := { MoveQueue.init with junctionFlush := config.bufferTimeHigh }
  printTime := 0
  specialQueuingState := .flushed
  needCheckStall := -1
  idleFlushPrintTime := 0
  printStall := 0
  canPause := canPause
  kinFlushDelay := SDS_CHECK_TIME
  kinFlushTimes := []
  forceFlushTime := 0
  lastKinMoveTime := 0
  estimates := []
  completions := []
  history := []

structure Portions where
  accelT : ℚ
  cruiseT : ℚ
  decelT : ℚ

def Move.setJunction (sqrt : ℚ → ℚ) (move : Move) (junction : Junction) : Portions :=
  let halfInvAccel := 1 / 2 / move.accel
  let accelD := (junction.cruiseV2 - junction.startV2) * halfInvAccel
  let decelD := (junction.cruiseV2 - junction.endV2) * halfInvAccel
  let cruiseD := move.moveD - accelD - decelD
  let startV := sqrt junction.startV2
  let cruiseV := sqrt junction.cruiseV2
  let endV := sqrt junction.endV2
  { accelT := accelD / ((startV + cruiseV) * (1 / 2))
    cruiseT := cruiseD / cruiseV
    decelT := decelD / ((endV + cruiseV) * (1 / 2)) }

inductive Raised where
  | dripModeEnd
  | commandError
  | valueError
deriving DecidableEq, Repr

abbrev Action := EStateM Raised ToolHead

namespace ToolHead

def append (th : ToolHead) (events : List Event) : ToolHead :=
  { th with history := th.history ++ events }

def enter (th : ToolHead) (specialQueuingState : Queuing) (needCheckStall : ℚ) : ToolHead :=
  { th with specialQueuingState, needCheckStall }

/-- The changes common to the transitions to the states "Flushed" and "Drip". -/
def enterIdle (th : ToolHead) (specialQueuingState : Queuing) (needCheckStall : ℚ) : ToolHead :=
  { th.enter specialQueuingState needCheckStall with
    moveQueue.junctionFlush := th.config.bufferTimeHigh
    idleFlushPrintTime := 0 }

def setMoveQueue (th : ToolHead) (moveQueue : MoveQueue) : ToolHead := { th with moveQueue }

def resetMoveQueue (th : ToolHead) : ToolHead :=
  th.setMoveQueue { th.moveQueue with queue := [], junctionFlush := LOOKAHEAD_FLUSH_TIME }

def noteKinematicActivity (th : ToolHead) (kinTime : ℚ) : ToolHead :=
  { th with lastKinMoveTime := max th.lastKinMoveTime kinTime }

def handleShutdown (th : ToolHead) : ToolHead := { th.resetMoveQueue with canPause := false }

def answered (th : ToolHead) : ToolHead := { th with estimates := th.estimates.tail }

/-- One pass of the loop of `_update_move_time`. -/
def updatePass (th : ToolHead) (nextPrintTime : ℚ) : ToolHead :=
  let printTime := min (th.printTime + MOVE_BATCH_TIME) nextPrintTime
  let sgFlushTime := max th.forceFlushTime (printTime - th.kinFlushDelay)
  let freeTime := max th.forceFlushTime (sgFlushTime - th.kinFlushDelay)
  let mcuFlushTime := max th.forceFlushTime (sgFlushTime - th.config.moveFlushTime)
  { th with printTime }.append [.printTime printTime, .generateSteps sgFlushTime,
    .finalizeMoves freeTime, .flushMoves mcuFlushTime]

/-- The loop; every pass but the last takes one unit of fuel. -/
def updateLoop (nextPrintTime : ℚ) : Nat → ToolHead → ToolHead
  | 0, th => th.updatePass nextPrintTime
  | fuel + 1, th =>
      let th := th.updatePass nextPrintTime
      if nextPrintTime ≤ th.printTime then th else updateLoop nextPrintTime fuel th

def updateMoveTime (th : ToolHead) (nextPrintTime : ℚ) : ToolHead :=
  updateLoop nextPrintTime ⌈(nextPrintTime - th.printTime) / MOVE_BATCH_TIME⌉.toNat th

def estimatedPrintTime : Action ℚ :=
  modifyGet (fun th => (th.estimates.headD 0, th.answered))

/-- `_calc_print_time`, given the estimated print time. -/
def syncPrintTime (th : ToolHead) (estPrintTime : ℚ) : ToolHead :=
  let kinTime := max (estPrintTime + MIN_KIN_TIME) th.forceFlushTime + th.kinFlushDelay
  let minPrintTime := max (estPrintTime + th.config.bufferTimeStart) kinTime
  if th.printTime < minPrintTime then
    { th with printTime := minPrintTime }.append [.printTime minPrintTime]
  else th

def calcPrintTime : Action Unit := do
  let estPrintTime ← estimatedPrintTime
  modify (·.syncPrintTime estPrintTime)

/-- The loop of `_update_drip_move_time`, with the answers of the completion. The
completion is taken to be done when there are no more. -/
def dripLoop (nextPrintTime : ℚ) : List Bool → Action Unit
  | [] => do
      let th ← get
      if th.printTime < nextPrintTime then throw .dripModeEnd
  | completed :: completions => do
      let th ← get
      if th.printTime < nextPrintTime then
        if completed then throw .dripModeEnd
        let estPrintTime ← estimatedPrintTime
        let flushDelay := DRIP_TIME + th.config.moveFlushTime + th.kinFlushDelay
        let waitTime := th.printTime - estPrintTime - flushDelay
        -- pause before sending more steps
        if ¬ (0 < waitTime ∧ th.canPause) then
          modify (·.updateMoveTime (min (th.printTime + DRIP_SEGMENT_TIME) nextPrintTime))
        dripLoop nextPrintTime completions

def updateDripMoveTime (nextPrintTime : ℚ) : Action Unit := do
  let th ← get
  dripLoop nextPrintTime th.completions

/-- Queue moves into the motion queue, from `nextMoveTime` on. A move without
kinematic part is appended to the motion queue of the extruder. -/
def queueMoves (delay : ℚ) : ℚ → List Portions → ℚ × List Event
  | nextMoveTime, [] => (nextMoveTime, [])
  | nextMoveTime, move :: moves =>
      let (last, events) :=
        queueMoves delay (nextMoveTime + move.accelT + move.cruiseT + move.decelT) moves
      (last, .trapqAppend nextMoveTime delay :: events)

/-- The start of `_process_moves`: resync the print time if necessary. -/
def resyncPrintTime : Action Unit := do
  let th ← get
  if th.specialQueuingState ≠ .main then
    if th.specialQueuingState ≠ .drip then
      modify (·.enter .main (-1))
    calcPrintTime

/-- `_process_moves`. Every move has been given its junction. -/
def processMoves (moves : List (Move × Option Junction)) : Action Unit := do
  resyncPrintTime
  let th ← get
  let portions := moves.filterMap
    (fun (move, junction) => junction.map (move.setJunction th.config.sqrt))
  let (nextMoveTime, events) := queueMoves th.kinFlushDelay th.printTime portions
  modify (·.append events)
  if th.specialQueuingState ≠ .main then updateDripMoveTime nextMoveTime
  modify (·.updateMoveTime nextMoveTime)
  modify (·.noteKinematicActivity nextMoveTime)

def flushMoveQueue (lazy : Bool) : Action Unit := do
  let queue := (← get).moveQueue
  modify (·.setMoveQueue { queue with junctionFlush := LOOKAHEAD_FLUSH_TIME })
  let moves := (flushQueue lazy queue.queue).1
  if moves ≠ [] then processMoves moves
  modify (·.setMoveQueue (queue.flush lazy))

def addMove (move : Move) (limit : Option ℚ) : Action Unit := do
  let queue := (← get).moveQueue
  match queue.queue.getLast? with
  | none => modify (·.setMoveQueue { queue with queue := [move] })
  | some prevMove =>
      let junctionFlush := queue.junctionFlush - move.minMoveT
      modify (·.setMoveQueue
        { queue with queue := queue.queue ++ [move.calcJunction limit prevMove], junctionFlush })
      if junctionFlush ≤ 0 then flushMoveQueue true

/-- The part of `flush_step_generation` behind the flush of the queue. -/
def forceFlush (th : ToolHead) : ToolHead :=
  -- determine the actual last flush time of the step generation
  let lastf := th.printTime - th.kinFlushDelay
  -- calculate the flush time that includes kinematic scan windows
  let flushTime := max lastf (th.lastKinMoveTime + th.kinFlushDelay)
  -- flush in small time chunks
  let th := if th.printTime < flushTime then th.updateMoveTime flushTime else th
  -- flush kinematic scan windows and step buffers
  let th := { th with forceFlushTime := max th.forceFlushTime flushTime }
  th.updateMoveTime (max th.printTime th.forceFlushTime)

def flushStepGeneration : Action Unit := do
  flushMoveQueue false
  modify (·.enterIdle .flushed (-1))
  modify forceFlush

def flushLookahead : Action Unit := do
  if (← get).specialQueuingState ≠ .main then flushStepGeneration else flushMoveQueue false

def getLastMoveTime : Action ℚ := do
  flushLookahead
  if (← get).specialQueuingState ≠ .main then calcPrintTime
  return (← get).printTime

/-- One pass of the loop of `_check_stall`, up to the pause. -/
def stallPass : Action Unit := do
  let estPrintTime ← estimatedPrintTime
  let th ← get
  if th.printTime - estPrintTime - th.config.bufferTimeHigh ≤ 0 then
    if th.specialQueuingState = .main then
      modify (fun th => { th with
        needCheckStall := estPrintTime + th.config.bufferTimeHigh + 1 / 10 })
  else if ¬ th.canPause then
    modify (fun th => { th with needCheckStall := NEVER })

/-- `_check_stall`, up to the first pause. -/
def checkStall : Action Unit := do
  let th ← get
  if th.specialQueuingState ≠ .main then
    if th.idleFlushPrintTime ≠ 0 then
      let estPrintTime ← estimatedPrintTime
      if estPrintTime < th.idleFlushPrintTime then
        modify (fun th => { th with printStall := th.printStall + 1 })
      modify (fun th => { th with idleFlushPrintTime := 0 })
    modify (·.enter .priming (-1))
  stallPass

/-- `_flush_handler`. An exception invokes a shutdown. -/
def flushHandler : Action Unit := do
  try
    let printTime := (← get).printTime
    let estPrintTime ← estimatedPrintTime
    -- otherwise running normally
    if ¬ (printTime - estPrintTime > (← get).config.bufferTimeLow) then
      flushStepGeneration
      if printTime ≠ (← get).printTime then
        modify (fun th => { th with idleFlushPrintTime := th.printTime })
  catch _ => modify handleShutdown

/-- What a call of `move` asks for: nothing if the position does not change, a
move that the kinematics or the extruder refuse, or a checked move with the limit
of its junction. -/
inductive Request where
  | nothing
  | refused
  | checked (move : { move : Move // Checked move }) (limit : Option { v2 : ℚ // 0 ≤ v2 })

def move : Request → Action Unit
  | .nothing => pure ()
  | .refused => throw .commandError
  | .checked move limit => do
      addMove move.val (limit.map Subtype.val)
      let th ← get
      if th.needCheckStall < th.printTime then checkStall

def dwell (delay : ℚ) : Action Unit := do
  let nextPrintTime := (← getLastMoveTime) + max 0 delay
  modify (·.updateMoveTime nextPrintTime)
  checkStall

/-- `drip_move` from the end of its dwell on. -/
def dripTransmit (request : Request) : Action Unit := do
  flushMoveQueue false
  modify (·.enterIdle .drip NEVER)
  try move request
  catch raised =>
    if raised = .commandError then flushStepGeneration
    throw raised
  try flushMoveQueue false
  catch raised =>
    if raised = .dripModeEnd then
      modify (·.resetMoveQueue.append [.finalizeMoves NEVER])
    else throw raised
  flushStepGeneration

def dripMove (request : Request) : Action Unit := do
  dwell (← get).kinFlushDelay
  dripTransmit request

def noteStepGenerationScanTime (delay oldDelay : ℚ) : Action Unit := do
  flushStepGeneration
  if oldDelay ≠ 0 then
    if oldDelay ∈ (← get).kinFlushTimes then
      modify (fun th => { th with kinFlushTimes := th.kinFlushTimes.erase oldDelay })
    else throw .valueError
  if delay ≠ 0 then
    modify (fun th => { th with kinFlushTimes := th.kinFlushTimes ++ [delay] })
  modify (fun th => { th with kinFlushDelay := th.kinFlushTimes.foldr max SDS_CHECK_TIME })

end ToolHead

/-- The operations that drive the toolhead, those that follow a pause, and the
timer. -/
inductive ToolHeadOperation where
  | move (request : ToolHead.Request)
  | dwell (delay : ℚ)
  | flushStepGeneration
  | flushLookahead
  | getLastMoveTime
  | flushHandler
  | stallPass
  | dripMove (request : ToolHead.Request)
  | dripTransmit (request : ToolHead.Request)
  | noteStepGenerationScanTime (delay oldDelay : ℚ)
  | noteKinematicActivity (kinTime : ℚ)
  | handleShutdown

def ToolHeadOperation.action : ToolHeadOperation → Action Unit
  | .move request => ToolHead.move request
  | .dwell delay => ToolHead.dwell delay
  | .flushStepGeneration => ToolHead.flushStepGeneration
  | .flushLookahead => ToolHead.flushLookahead
  | .getLastMoveTime => discard ToolHead.getLastMoveTime
  | .flushHandler => ToolHead.flushHandler
  | .stallPass => ToolHead.stallPass
  | .dripMove request => ToolHead.dripMove request
  | .dripTransmit request => ToolHead.dripTransmit request
  | .noteStepGenerationScanTime delay oldDelay =>
      ToolHead.noteStepGenerationScanTime delay oldDelay
  | .noteKinematicActivity kinTime => modify (·.noteKinematicActivity kinTime)
  | .handleShutdown => modify ToolHead.handleShutdown

structure ToolHeadInput where
  operation : ToolHeadOperation
  estimates : List ℚ
  completions : List Bool

/-- An operation that raises keeps what it has done. -/
def ToolHead.step (th : ToolHead) (input : ToolHeadInput) : Option ToolHead :=
  let supplied := { th with estimates := input.estimates, completions := input.completions }
  some (stateAfter input.operation.action supplied)

end MagnetoX.Host.Toolhead
