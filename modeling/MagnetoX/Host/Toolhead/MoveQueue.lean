import Mathlib.Tactic.Linarith

/-!
Owns the look-ahead queue of `klippy/toolhead.py`: the squared velocities of
`Move` as `__init__`, `limit_speed` and `calc_junction` set them, and
`MoveQueue.add_move` and `MoveQueue.flush`.

Arithmetic is exact. The geometry of a junction enters as one number, the least
of the five limits that `calc_junction` computes before it looks at the moves'
own limits. A call of `set_junction` is recorded with its three arguments.
-/

namespace MagnetoX.Host.Toolhead

/-- The toolhead's limits that a move reads. `_calc_junction_deviation` keeps
`max_accel_to_decel` at most `max_accel`, and both are positive. -/
structure Limits where
  maxVelocity : ℚ
  maxAccel : ℚ
  maxAccelToDecel : ℚ
  positive : 0 < maxAccelToDecel
  atMost : maxAccelToDecel ≤ maxAccel

/-- The fields of `Move` that the look-ahead uses. -/
structure Move where
  moveD : ℚ
  accel : ℚ
  minMoveT : ℚ
  maxStartV2 : ℚ
  maxCruiseV2 : ℚ
  deltaV2 : ℚ
  maxSmoothedV2 : ℚ
  smoothDeltaV2 : ℚ
deriving DecidableEq, Repr

/-- `Move.__init__` from the length of the move on. An extrude only move is not
held to the toolhead's limits. -/
def Move.init (limits : Limits) (isKinematicMove : Bool) (moveD speed : ℚ) : Move :=
  let velocity := if isKinematicMove then min speed limits.maxVelocity else speed
  let accel := if isKinematicMove then limits.maxAccel else 99999999.9
  { moveD
    accel
    minMoveT := moveD / velocity
    maxStartV2 := 0
    maxCruiseV2 := velocity ^ 2
    deltaV2 := 2 * moveD * accel
    maxSmoothedV2 := 0
    smoothDeltaV2 := 2 * moveD * limits.maxAccelToDecel }

def Move.limitSpeed (move : Move) (speed accel : ℚ) : Move :=
  let speed2 := speed ^ 2
  { move with
    maxCruiseV2 := if speed2 < move.maxCruiseV2 then speed2 else move.maxCruiseV2
    minMoveT := if speed2 < move.maxCruiseV2 then move.moveD / speed else move.minMoveT
    accel := min move.accel accel
    deltaV2 := 2 * move.moveD * min move.accel accel
    smoothDeltaV2 := min move.smoothDeltaV2 (2 * move.moveD * min move.accel accel) }

/-- `calc_junction`. The limit is `none` where the method returns early: an
extrude only move on either side, or a reversal. -/
def Move.calcJunction (move : Move) (limit : Option ℚ) (prevMove : Move) : Move :=
  match limit with
  | none => move
  | some limit =>
      let maxStartV2 := min limit (min move.maxCruiseV2 (min prevMove.maxCruiseV2
        (prevMove.maxStartV2 + prevMove.deltaV2)))
      { move with
        maxStartV2
        maxSmoothedV2 := min maxStartV2 (prevMove.maxSmoothedV2 + prevMove.smoothDeltaV2) }

structure Junction where
  startV2 : ℚ
  cruiseV2 : ℚ
  endV2 : ℚ
deriving DecidableEq, Repr

/-- The variables of `flush`. An entry of `delayed` is the index of the move,
its start and its end; new entries come first, as the list is only read in
reverse. -/
@[ext] structure Pass where
  updateFlushCount : Bool
  flushCount : Nat
  delayed : List (Nat × ℚ × ℚ)
  nextEndV2 : ℚ
  nextSmoothedV2 : ℚ
  peakCruiseV2 : ℚ
  junctions : List (Nat × Junction)
deriving DecidableEq, Repr

def propagate (mcV2 : ℚ) : List (Nat × ℚ × ℚ) → List (Nat × Junction)
  | [] => []
  | (i, msV2, meV2) :: delayed =>
      let mcV2 := min mcV2 msV2
      (i, ⟨min msV2 mcV2, mcV2, min meV2 mcV2⟩) :: propagate mcV2 delayed

namespace Pass

variable (pass : Pass) (i : Nat) (move : Move)

def reachableStartV2 : ℚ := pass.nextEndV2 + move.deltaV2
def startV2 : ℚ := min move.maxStartV2 (pass.reachableStartV2 move)
def reachableSmoothedV2 : ℚ := pass.nextSmoothedV2 + move.smoothDeltaV2
def smoothedV2 : ℚ := min move.maxSmoothedV2 (pass.reachableSmoothedV2 move)

/-- This move can decelerate or this is a full accel move after a full decel
move. -/
def AtPeak : Prop :=
  pass.smoothedV2 move + move.smoothDeltaV2 > pass.nextSmoothedV2 ∨ pass.delayed ≠ []

instance : Decidable (pass.AtPeak move) := inferInstanceAs (Decidable (_ ∨ _))

/-- A lazy flush ends in front of this move. -/
def Cuts : Prop := pass.AtPeak move ∧ pass.updateFlushCount ∧ pass.peakCruiseV2 ≠ 0

instance : Decidable (pass.Cuts move) := inferInstanceAs (Decidable (_ ∧ _ ∧ _))

def peakAfter : ℚ :=
  if pass.AtPeak move then
    min move.maxCruiseV2 ((pass.smoothedV2 move + pass.reachableSmoothedV2 move) * (1 / 2))
  else pass.peakCruiseV2

def cruiseV2 : ℚ :=
  min ((pass.startV2 move + pass.reachableStartV2 move) * (1 / 2))
    (min move.maxCruiseV2 (pass.peakAfter move))

def ownJunction : Junction :=
  ⟨min (pass.startV2 move) (pass.cruiseV2 move), pass.cruiseV2 move,
    min pass.nextEndV2 (pass.cruiseV2 move)⟩

/-- The body of the loop for a move that can accelerate. The junctions are
collected in the order of the queue. -/
def accelerate : Pass where
  updateFlushCount := if pass.Cuts move then false else pass.updateFlushCount
  flushCount := if pass.Cuts move then i else pass.flushCount
  delayed := []
  nextEndV2 := pass.startV2 move
  nextSmoothedV2 := pass.smoothedV2 move
  peakCruiseV2 := pass.peakAfter move
  junctions :=
    if (if pass.Cuts move then false else pass.updateFlushCount) = false ∧
        i < (if pass.Cuts move then i else pass.flushCount) then
      (i, pass.ownJunction move) ::
        (propagate (pass.peakAfter move) pass.delayed ++ pass.junctions)
    else pass.junctions

/-- Delay calculating this move until `peak_cruise_v2` is known. -/
def delay : Pass :=
  { pass with
    delayed := (i, pass.startV2 move, pass.nextEndV2) :: pass.delayed
    nextEndV2 := pass.startV2 move
    nextSmoothedV2 := pass.smoothedV2 move }

/-- The body of the loop over the queue, from the last move to the first. -/
def visit : Pass :=
  if pass.smoothedV2 move < pass.reachableSmoothedV2 move then pass.accelerate i move
  else pass.delay i move

end Pass

/-- The loop of `flush`; `first` is the index of the first move of the list. -/
def traverse (lazy : Bool) (flushCount : Nat) (first : Nat) : List Move → Pass
  | [] => ⟨lazy, flushCount, [], 0, 0, 0, []⟩
  | move :: queue => (traverse lazy flushCount (first + 1) queue).visit first move

/-- What `flush` does to the queue: the moves handed to `_process_moves`, each
with its junction if one was set, and the moves that stay. -/
def flushQueue (lazy : Bool) (queue : List Move) : List (Move × Option Junction) × List Move :=
  let pass := traverse lazy queue.length 0 queue
  if pass.updateFlushCount || pass.flushCount == 0 then ([], queue)
  else
    (((queue.take pass.flushCount).zipIdx.map
      (fun (move, i) => (move, pass.junctions.lookup i))), queue.drop pass.flushCount)

/-- What the toolhead sees: a processed move, or the end of a full flush. -/
inductive Entry where
  | move (move : Move) (junction : Option Junction)
  | fullFlush
deriving DecidableEq, Repr

structure MoveQueue where
  queue : List Move
  junctionFlush : ℚ
  flushed : List Entry
deriving DecidableEq, Repr

def LOOKAHEAD_FLUSH_TIME : ℚ := 1 / 4

def MoveQueue.init : MoveQueue := ⟨[], LOOKAHEAD_FLUSH_TIME, []⟩

def MoveQueue.flush (state : MoveQueue) (lazy : Bool) : MoveQueue where
  queue := (flushQueue lazy state.queue).2
  junctionFlush := LOOKAHEAD_FLUSH_TIME
  flushed := state.flushed ++
    (flushQueue lazy state.queue).1.map (fun (move, junction) => .move move junction) ++
    if lazy then [] else [.fullFlush]

def MoveQueue.addMove (state : MoveQueue) (move : Move) (limit : Option ℚ) : MoveQueue :=
  match state.queue.getLast? with
  | none => { state with queue := [move] }
  | some prevMove =>
      let added : MoveQueue :=
        { state with
          queue := state.queue ++ [move.calcJunction limit prevMove]
          junctionFlush := state.junctionFlush - move.minMoveT }
      if added.junctionFlush ≤ 0 then added.flush true else added

/-- A move as it reaches the queue: limited by the kinematics and the extruder.
An extrude only move is always limited by the extruder's `check_move`. -/
inductive Checked : Move → Prop where
  | kinematic (limits : Limits) (moveD speed : ℚ) (positive : 0 < moveD) :
      Checked (Move.init limits true moveD speed)
  | extrudeOnly (limits : Limits) (moveD speed speedLimit accelLimit : ℚ) (positive : 0 < moveD)
      (accelPositive : 0 < accelLimit) :
      Checked ((Move.init limits false moveD speed).limitSpeed speedLimit accelLimit)
  | limitSpeed {move : Move} (checked : Checked move) (speed accel : ℚ) (positive : 0 < accel) :
      Checked (move.limitSpeed speed accel)

/-- The operations on the queue. Only checked moves are added, with a junction
limit that is not negative. -/
inductive Operation where
  | addMove (move : { move : Move // Checked move }) (limit : Option { v2 : ℚ // 0 ≤ v2 })
  | flush (lazy : Bool)
  | setFlushTime (flushTime : ℚ)

def MoveQueue.step (state : MoveQueue) : Operation → Option MoveQueue
  | .addMove move limit => some (state.addMove move.val (limit.map Subtype.val))
  | .flush lazy => some (state.flush lazy)
  | .setFlushTime flushTime => some { state with junctionFlush := flushTime }

end MagnetoX.Host.Toolhead
