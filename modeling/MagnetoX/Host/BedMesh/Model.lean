import Mathlib.Data.Rat.Floor

/-!
Owns the model of the move transform of `klippy/extras/bed_mesh.py`: the mesh and
its interpolation, `set_mesh` with its checks, the fade factor, the splitting of
moves, and the way back from the toolhead to the commanded position.

Floats are exact rationals. The length of a move is a square root, so it is a
parameter of `move`. A division by zero, which raises an exception, is `none`.
-/

namespace MagnetoX.Host.Bed

def constrain {α : Type*} [LinearOrder α] (value minValue maxValue : α) : α :=
  min maxValue (max minValue value)

def lerp (t v0 v1 : ℚ) : ℚ := (1 - t) * v0 + t * v1

/-- PEP 485 isclose() with `rel_tol` 1e-09. -/
def isclose (a b absTol : ℚ) : Bool :=
  decide (|a - b| ≤ max (1 / 10 ^ 9 * max |a| |b|) absTol)

@[ext] structure Position where
  x : ℚ
  y : ℚ
  z : ℚ
  e : ℚ
deriving DecidableEq, Repr

/-- One axis of the mesh: where it starts, the distance between points, and how
many there are. -/
structure Axis where
  start : ℚ
  dist : ℚ
  count : Nat
  dist_pos : 0 < dist
  two_le_count : 2 ≤ count

def Axis.coordinate (axis : Axis) (index : Int) : ℚ := axis.start + axis.dist * index

/-- `_get_linear_index`: the place of a coordinate in a segment, and the segment. -/
def Axis.linearIndex (axis : Axis) (coord : ℚ) : ℚ × Nat :=
  let idx := constrain ⌊(coord - axis.start) / axis.dist⌋ 0 (axis.count - 2 : Int)
  (constrain ((coord - axis.coordinate idx) / axis.dist) 0 1, idx.toNat)

structure ZMesh where
  xAxis : Axis
  yAxis : Axis
  offsets : ℚ × ℚ
  matrix : Option (List (List ℚ))
  avgZ : ℚ
  shaped : ∀ table ∈ matrix, table.length = yAxis.count ∧ ∀ row ∈ table, row.length = xAxis.count

def ZMesh.calcZ (mesh : ZMesh) (x y : ℚ) : ℚ :=
  match mesh.matrix with
  | some table =>
      let (tx, xidx) := mesh.xAxis.linearIndex (x + mesh.offsets.1)
      let (ty, yidx) := mesh.yAxis.linearIndex (y + mesh.offsets.2)
      let height := fun row column => (table.getD row []).getD column 0
      let z0 := lerp tx (height yidx xidx) (height yidx (xidx + 1))
      let z1 := lerp tx (height (yidx + 1) xidx) (height (yidx + 1) (xidx + 1))
      lerp ty z0 z1
  | none => 0

def ZMesh.zRange (mesh : ZMesh) : ℚ × ℚ :=
  match mesh.matrix with
  | some table =>
      ((table.map (fun row => row.min?.getD 0)).min?.getD 0,
        (table.map (fun row => row.max?.getD 0)).max?.getD 0)
  | none => (0, 0)

def fadeDisable : ℚ := 0x7FFFFFFF

/-- The fade options: `dist` is what was configured, and a distance that is not
positive disables fade. -/
structure Fade where
  start : ℚ
  finish : ℚ
  dist : ℚ
  consistent : (dist ≤ 0 ∧ start = fadeDisable ∧ finish = fadeDisable) ∨
    (0 < dist ∧ dist = finish - start)

def Fade.configure (fadeStart fadeEnd : ℚ) : Fade :=
  if disabled : fadeEnd - fadeStart ≤ 0 then
    ⟨fadeDisable, fadeDisable, fadeEnd - fadeStart, .inl ⟨disabled, rfl, rfl⟩⟩
  else ⟨fadeStart, fadeEnd, fadeEnd - fadeStart, .inr ⟨not_le.mp disabled, rfl⟩⟩

/-- The options of `MoveSplitter`, with the lower bounds that the config reader
enforces. -/
structure Splitter where
  splitDeltaZ : ℚ
  moveCheckDistance : ℚ
  splitDeltaZ_ge : 1 / 100 ≤ splitDeltaZ
  moveCheckDistance_ge : 3 ≤ moveCheckDistance

theorem Splitter.moveCheckDistance_pos (splitter : Splitter) : 0 < splitter.moveCheckDistance :=
  lt_of_lt_of_le (by norm_num) splitter.moveCheckDistance_ge

structure BedMesh where
  fade : Fade
  splitter : Splitter
  baseFadeTarget : Option ℚ
  fadeTarget : ℚ
  zMesh : Option ZMesh
  logFadeComplete : Bool
  lastPosition : Position

inductive MeshError where
  | fadeTargetOutside (minZ maxZ fadeTarget : ℚ)
  | outsideFadeRange (fadeDist minZ maxZ : ℚ)

structure Failure where
  error : MeshError
  bedMesh : BedMesh

namespace BedMesh

/-- The fade target of a mesh, unless it lies outside of the mesh. -/
def chooseTarget (b : BedMesh) (mesh : ZMesh) : Except MeshError ℚ :=
  match b.baseFadeTarget with
  | none => .ok mesh.avgZ
  | some target =>
      let (minZ, maxZ) := mesh.zRange
      if ¬ (minZ ≤ target ∧ target ≤ maxZ) ∧ target ≠ 0 then
        .error (.fadeTargetOutside minZ maxZ target)
      else .ok target

def setMesh (b : BedMesh) (mesh : Option ZMesh) : Except Failure BedMesh :=
  match mesh with
  | none => .ok { b with fadeTarget := 0, zMesh := none }
  | some mesh =>
      if b.fade.finish = fadeDisable then .ok { b with fadeTarget := 0, zMesh := some mesh }
      else
        let b := { b with logFadeComplete := true }
        match b.chooseTarget mesh with
        | .error error => .error ⟨error, { b with zMesh := none, fadeTarget := 0 }⟩
        | .ok target =>
            let (minZ, maxZ) := mesh.zRange
            if b.fade.dist ≤ max |minZ| |maxZ| then
              .error ⟨.outsideFadeRange b.fade.dist minZ maxZ,
                { b with zMesh := none, fadeTarget := 0 }⟩
            else .ok { b with fadeTarget := target, zMesh := some mesh }

end BedMesh

def Fade.zFactor (fade : Fade) (z : ℚ) : ℚ :=
  if fade.finish ≤ z then 0
  else if fade.start ≤ z then (fade.finish - z) / fade.dist
  else 1

/-- The factor that `get_position` finds from the toolhead height `z` and the
height `maxAdj` of the mesh. -/
def Fade.findFactor (fade : Fade) (fadeTarget maxAdj z : ℚ) : Option ℚ :=
  let zAdj := maxAdj - fadeTarget
  if fade.finish ≤ min z (z - maxAdj) then some 0
  else if fade.start ≤ max z (z - maxAdj) then
    -- use algebra to calculate the factor from the toolhead pos
    if fade.dist - zAdj = 0 then none
    else some (constrain ((fade.finish + fadeTarget - z) / (fade.dist - zAdj)) 0 1)
  else some 1

/-- `get_position`, given the position of the toolhead. -/
def BedMesh.getPosition (b : BedMesh) (toolhead : Position) : Option Position :=
  match b.zMesh with
  | none => some { toolhead with z := toolhead.z - b.fadeTarget }
  | some mesh =>
      let maxAdj := mesh.calcZ toolhead.x toolhead.y
      (b.fade.findFactor b.fadeTarget maxAdj toolhead.z).map (fun factor =>
        { toolhead with z := toolhead.z - (factor * (maxAdj - b.fadeTarget) + b.fadeTarget) })

structure Traverse where
  mesh : ZMesh
  fadeOffset : ℚ
  splitter : Splitter
  prevPos : Position
  nextPos : Position
  currentPos : Position
  zFactor : ℚ
  zOffset : ℚ
  traverseComplete : Bool
  distanceChecked : ℚ
  totalMoveLength : ℚ

def Traverse.axisMove (t : Traverse) (axis : Position → ℚ) : Bool :=
  !isclose (axis t.nextPos - axis t.prevPos) 0 (1 / 10 ^ 10)

def calcZOffset (mesh : ZMesh) (fadeOffset zFactor : ℚ) (position : Position) : ℚ :=
  zFactor * (mesh.calcZ position.x position.y - fadeOffset) + fadeOffset

def BedMesh.buildMove (b : BedMesh) (mesh : ZMesh) (totalMoveLength : ℚ) (nextPos : Position)
    (factor : ℚ) : Traverse where
  mesh := mesh
  fadeOffset := b.fadeTarget
  splitter := b.splitter
  prevPos := b.lastPosition
  nextPos := nextPos
  currentPos := b.lastPosition
  zFactor := factor
  zOffset := calcZOffset mesh b.fadeTarget factor b.lastPosition
  traverseComplete := false
  distanceChecked := 0
  totalMoveLength := totalMoveLength

namespace Traverse

def offsetAt (t : Traverse) (position : Position) : ℚ :=
  calcZOffset t.mesh t.fadeOffset t.zFactor position

def setNextMove (t : Traverse) (distance : ℚ) : Except String Traverse :=
  let s := distance / t.totalMoveLength
  if s > 1 ∨ s < 0 then
    .error "bed_mesh: Slice distance is negative or greater than entire move length"
  else
    let along := fun (axis : Position → ℚ) =>
      if t.axisMove axis then lerp s (axis t.prevPos) (axis t.nextPos) else axis t.currentPos
    .ok { t with
      currentPos := ⟨along Position.x, along Position.y, along Position.z, along Position.e⟩ }

/-- The end of `split`: end of move reached. -/
def finish (t : Traverse) : Position × Traverse :=
  let zOffset := t.offsetAt t.nextPos
  let reached := { t.nextPos with z := t.nextPos.z + zOffset }
  (reached, { t with currentPos := reached, zOffset, traverseComplete := true })

/-- The condition of the loop of `split`. -/
def unchecked (t : Traverse) : Bool :=
  (t.axisMove Position.x || t.axisMove Position.y) &&
    decide (t.distanceChecked + t.splitter.moveCheckDistance < t.totalMoveLength)

/-- One pass of the loop of `split`, with the part of the move that it returns if
it leaves the loop. -/
def check (t : Traverse) : Except String (Option Position × Traverse) := do
  let distanceChecked := t.distanceChecked + t.splitter.moveCheckDistance
  let t ← { t with distanceChecked }.setNextMove distanceChecked
  let nextZ := t.offsetAt t.currentPos
  if t.splitter.splitDeltaZ ≤ |nextZ - t.zOffset| then
    return (some { t.currentPos with z := t.currentPos.z + nextZ }, { t with zOffset := nextZ })
  else return (none, t)

/-- The loop of `split`; every pass takes one unit of fuel. -/
def splitLoop : Nat → Traverse → Except String (Position × Traverse)
  | 0, t => if t.unchecked then .error "fuel" else .ok t.finish
  | fuel + 1, t =>
      if t.unchecked then do
        match ← t.check with
        | (some position, t) => return (position, t)
        | (none, t) => splitLoop fuel t
      else .ok t.finish

def checks (t : Traverse) : Nat :=
  ⌈(t.totalMoveLength - t.distanceChecked) / t.splitter.moveCheckDistance⌉.toNat

def split (t : Traverse) : Except String (Option (Position × Traverse)) :=
  if t.traverseComplete then .ok none else (t.splitLoop t.checks).map some

/-- The moves that are sent to the toolhead; every move takes one unit of fuel. -/
def splitMoves : Nat → Traverse → Except String (List Position)
  | 0, _ => .error "fuel"
  | fuel + 1, t =>
      if t.traverseComplete then .ok []
      else do
        match ← t.split with
        | none => throw "Mesh Leveling: Error splitting move "
        | some (position, t) => return position :: (← splitMoves fuel t)

end Traverse

/-- `move`: the state after it and the positions the toolhead is sent to. -/
def BedMesh.move (b : BedMesh) (totalMoveLength : ℚ) (newpos : Position) :
    Except String (BedMesh × List Position) :=
  let factor := b.fade.zFactor newpos.z
  match b.zMesh with
  | none =>
      .ok ({ b with logFadeComplete := false, lastPosition := newpos },
        [{ newpos with z := newpos.z + b.fadeTarget }])
  | some mesh =>
      if factor = 0 then
        -- mesh leveling phased out
        .ok ({ b with logFadeComplete := false, lastPosition := newpos },
          [{ newpos with z := newpos.z + b.fadeTarget }])
      else
        let t := b.buildMove mesh totalMoveLength newpos factor
        (t.splitMoves (t.checks + 2)).map (fun moves => ({ b with lastPosition := newpos }, moves))

end MagnetoX.Host.Bed
