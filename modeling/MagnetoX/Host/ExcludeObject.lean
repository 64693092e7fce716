import MagnetoX.Host.BedMesh.Model
import MagnetoX.Library.Run

/-!
Owns the move transform of `klippy/extras/exclude_object.py`: the offsets between the
commanded gcode position and the next transform while the moves of an excluded object
are ignored, and how they are cleared afterwards.

There is one extruder, and floats are exact rationals. The next transform goes where
it is told. Which object is current and which are excluded is an input.
-/

namespace MagnetoX.Host.Exclusion

open Library.Run
open Host.Bed (Position)

def plus (a b : Position) : Position := ⟨a.x + b.x, a.y + b.y, a.z + b.z, a.e + b.e⟩

def minus (a b : Position) : Position := ⟨a.x - b.x, a.y - b.y, a.z - b.z, a.e - b.e⟩

theorem plus_minus (a b : Position) : plus (minus a b) b = a := by
  simp [plus, minus]

structure ExcludeObject where
  lastPosition : Position
  lastPositionExtruded : Position
  lastPositionExcluded : Position
  /-- The entry of `extrusion_offsets` of the extruder. -/
  offset : Position
  extruderAdj : ℚ
  maxPositionExtruded : ℚ
  maxPositionExcluded : ℚ
  initialExtrusionMoves : Nat
  inExcludedRegion : Bool
  /-- `current_object in excluded_objects` -/
  currentExcluded : Bool
  /-- The position of the next transform. -/
  next : Position
  /-- The gcode position that was commanded last. -/
  commanded : Position
deriving DecidableEq, Repr

inductive Input where
  | setExcluded (currentExcluded : Bool)
  | getPosition
  | move (newpos : Position)

namespace ExcludeObject

/-- `_register_transform`, after which an object is excluded. -/
def registerTransform (next : Position) (currentExcluded : Bool) : ExcludeObject where
  lastPosition := next
  lastPositionExtruded := next
  lastPositionExcluded := next
  offset := ⟨0, 0, 0, 0⟩
  extruderAdj := 0
  maxPositionExtruded := 0
  maxPositionExcluded := 0
  initialExtrusionMoves := 5
  inExcludedRegion := false
  currentExcluded := currentExcluded
  next := next
  commanded := next

def getPosition (s : ExcludeObject) : Position × ExcludeObject :=
  let pos := plus s.next s.offset
  (pos, { s with lastPosition := pos })

/-- The three conditionals of `_normal_move`. -/
def clearOffsets (s : ExcludeObject) (newpos : Position) : ExcludeObject :=
  let s :=
    if (s.offset.x ≠ 0 ∨ s.offset.y ≠ 0) ∧
        (newpos.x ≠ s.lastPositionExcluded.x ∨ newpos.y ≠ s.lastPositionExcluded.y) then
      { s with offset := ⟨0, 0, 0, s.offset.e + s.extruderAdj⟩, extruderAdj := 0 }
    else s
  let s :=
    if s.offset.z ≠ 0 ∧ newpos.z ≠ s.lastPositionExcluded.z then
      { s with offset := { s.offset with z := 0 } }
    else s
  if s.extruderAdj ≠ 0 ∧ newpos.e ≠ s.lastPositionExcluded.e then
    { s with offset := { s.offset with e := s.offset.e + s.extruderAdj }, extruderAdj := 0 }
  else s

def normalMove (s : ExcludeObject) (newpos : Position) : ExcludeObject :=
  let s :=
    if 0 < s.initialExtrusionMoves ∧ s.lastPosition.e ≠ newpos.e then
      { s with initialExtrusionMoves := s.initialExtrusionMoves - 1 }
    else s
  let s := { s with
    lastPosition := newpos
    lastPositionExtruded := newpos
    maxPositionExtruded := max s.maxPositionExtruded newpos.e }
  let s := s.clearOffsets newpos
  { s with next := minus newpos s.offset }

def ignoreMove (s : ExcludeObject) (newpos : Position) : ExcludeObject :=
  { s with
    -- the extruder's offset grows by the move, the others are computed anew
    offset := { minus newpos s.lastPositionExtruded with
      e := s.offset.e + newpos.e - s.lastPosition.e }
    lastPosition := newpos
    lastPositionExcluded := newpos
    maxPositionExcluded := max s.maxPositionExcluded newpos.e }

def moveIntoExcludedRegion (s : ExcludeObject) (newpos : Position) : ExcludeObject :=
  { s with inExcludedRegion := true }.ignoreMove newpos

def moveFromExcludedRegion (s : ExcludeObject) (newpos : Position) : ExcludeObject :=
  { s with
    inExcludedRegion := false
    extruderAdj := s.maxPositionExcluded - s.lastPositionExcluded.e -
      (s.maxPositionExtruded - s.lastPositionExtruded.e) }.normalMove newpos

def testInExcludedRegion (s : ExcludeObject) : Bool :=
  s.currentExcluded && s.initialExtrusionMoves == 0

def move (s : ExcludeObject) (newpos : Position) : ExcludeObject :=
  let s := { s with commanded := newpos }
  if s.testInExcludedRegion then
    if s.inExcludedRegion then s.ignoreMove newpos else s.moveIntoExcludedRegion newpos
  else if s.inExcludedRegion then s.moveFromExcludedRegion newpos
  else s.normalMove newpos

def Registered (s : ExcludeObject) : Prop :=
  ∃ next currentExcluded, s = registerTransform next currentExcluded

def step (s : ExcludeObject) : Input → Option ExcludeObject
  | .setExcluded currentExcluded => some { s with currentExcluded }
  | .getPosition => some s.getPosition.2
  | .move newpos => some (s.move newpos)

end ExcludeObject

variable {s after : ExcludeObject} {newpos : Position} {input : Input}

namespace ExcludeObject

/-- Leaving a region changes only `extruderAdj` before the move. -/
theorem move_executed (newpos : Position) (executed : ¬ s.testInExcludedRegion) :
    ∃ extruderAdj inExcludedRegion, s.move newpos =
      { s with commanded := newpos, extruderAdj, inExcludedRegion }.normalMove newpos := by
  by_cases inRegion : s.inExcludedRegion
  · exact ⟨_, _, (if_neg executed).trans (if_pos inRegion)⟩
  · exact ⟨_, _, (if_neg executed).trans (if_neg inRegion)⟩

theorem move_ignored (newpos : Position) (ignored : s.testInExcludedRegion) :
    ∃ inExcludedRegion, s.move newpos =
      { s with commanded := newpos, inExcludedRegion }.ignoreMove newpos := by
  by_cases inRegion : s.inExcludedRegion
  · exact ⟨_, (if_pos ignored).trans (if_pos inRegion)⟩
  · exact ⟨_, (if_pos ignored).trans (if_neg inRegion)⟩

theorem offset_normalMove
    (travels : newpos.x ≠ s.lastPositionExcluded.x ∨ newpos.y ≠ s.lastPositionExcluded.y) :
    (s.normalMove newpos).offset.x = 0 ∧ (s.normalMove newpos).offset.y = 0 ∧
      ((s.normalMove newpos).offset.z = 0 ↔ ¬ (s.offset.x = 0 ∧ s.offset.y = 0 ∧ s.offset.z ≠ 0 ∧
          newpos.z = s.lastPositionExcluded.z)) := by
  simp only [normalMove, clearOffsets]
  grind

theorem fields_of_executed (newpos : Position) (executed : ¬ s.testInExcludedRegion) :
    (s.move newpos).next = minus newpos (s.move newpos).offset ∧
      (s.move newpos).lastPosition = newpos ∧ (s.move newpos).commanded = newpos := by
  obtain ⟨adj, inRegion, isMove⟩ := move_executed newpos executed
  simp only [isMove, normalMove, clearOffsets, true_and]
  grind

end ExcludeObject

open ExcludeObject

/-- **The first travel after an exclusion.** A move that is executed, with another X or
Y than the last excluded position, is passed on with X, Y and Z as commanded, unless Z
alone has an offset left and the move stays at the Z of the last excluded position. -/
theorem travel_exact_iff (executed : ¬ s.testInExcludedRegion)
    (travels : newpos.x ≠ s.lastPositionExcluded.x ∨ newpos.y ≠ s.lastPositionExcluded.y) :
    ((s.move newpos).next.x = newpos.x ∧ (s.move newpos).next.y = newpos.y ∧
        (s.move newpos).next.z = newpos.z) ↔
      ¬ (s.offset.x = 0 ∧ s.offset.y = 0 ∧ s.offset.z ≠ 0 ∧ newpos.z = s.lastPositionExcluded.z) := by
  obtain ⟨adj, inRegion, isMove⟩ := move_executed newpos executed
  obtain ⟨x, y, z⟩ := offset_normalMove
    (s := { s with commanded := newpos, extruderAdj := adj, inExcludedRegion := inRegion }) travels
  rw [(fields_of_executed newpos executed).1, isMove]
  simp only [minus, sub_eq_self, x, y, z, true_and]

/-- Five extrusions at the origin, as `_register_transform` asks for. -/
def primed : List Input := [1, 2, 3, 4, 5].map fun e => .move ⟨0, 0, 0, e⟩

def final (inputs : List Input) : Option ExcludeObject :=
  run ExcludeObject.step (fun _ => True) (.registerTransform ⟨0, 0, 0, 0⟩ false) (primed ++ inputs)

/-- The excluded object was left at another X and Z. -/
theorem travel_exact_iff_cleared : ∃ s newpos,
    final [.setExcluded true, .move ⟨3, 0, 5, 5⟩, .setExcluded false] = some s ∧
    s.offset = ⟨3, 0, 5, 0⟩ ∧ newpos = ⟨10, 0, 5, 5⟩ ∧ (s.move newpos).next.x = newpos.x ∧
    (s.move newpos).next.y = newpos.y ∧ (s.move newpos).next.z = newpos.z := by
  have result : (final [.setExcluded true, .move ⟨3, 0, 5, 5⟩, .setExcluded false]).any
      (fun s => decide (¬ s.testInExcludedRegion ∧ s.offset = ⟨3, 0, 5, 0⟩ ∧
        s.lastPositionExcluded = ⟨3, 0, 5, 5⟩)) = true := by
    decide +kernel
  obtain ⟨s, executes, holds⟩ := (Option.any_eq_true _ _).mp result
  obtain ⟨executed, offset, excluded⟩ := of_decide_eq_true holds
  exact ⟨s, _, executes, offset, rfl,
    (travel_exact_iff executed (by simp [excluded])).mpr (by simp [offset])⟩

/-- Only Z moves while the object is excluded: the next travel stays below. -/
theorem travel_exact_iff_skipped :
    (final [.setExcluded true, .move ⟨0, 0, 5, 5⟩, .setExcluded false, .move ⟨10, 0, 5, 5⟩]).map (·.next) =
      some ⟨10, 0, 0, 5⟩ := by
  decide +kernel

namespace ExcludeObject

def Consistent (s : ExcludeObject) : Prop := plus s.next s.offset = s.commanded

/-- The next transform is where the last executed move was commanded to. -/
def Aligned (s : ExcludeObject) : Prop :=
  s.next.x = s.lastPositionExtruded.x ∧ s.next.y = s.lastPositionExtruded.y ∧
    s.next.z = s.lastPositionExtruded.z

instance : Decidable s.Aligned := inferInstanceAs (Decidable (_ ∧ _))

theorem commanded_move : (s.move newpos).commanded = newpos := by
  by_cases ignored : s.testInExcludedRegion
  · obtain ⟨inRegion, isMove⟩ := move_ignored newpos ignored
    rw [isMove]
    rfl
  · exact (fields_of_executed newpos ignored).2.2

def alignedStep (s : ExcludeObject) : Input → Option ExcludeObject
  | .move newpos => if s.testInExcludedRegion → s.Aligned then s.step (.move newpos) else none
  | input => s.step input

structure Tracked (s : ExcludeObject) : Prop where
  next : s.next.e + s.offset.e = s.commanded.e
  last : s.lastPosition.e = s.commanded.e

/-- An executed move leaves the position consistent, an ignored one only if the next
transform is where the last executed one was commanded to. -/
theorem Tracked.consistent_move (tracked : s.Tracked) (newpos : Position) :
    (s.move newpos).Consistent ↔ (s.testInExcludedRegion → s.Aligned) := by
  by_cases ignored : s.testInExcludedRegion
  · obtain ⟨inRegion, isMove⟩ := move_ignored newpos ignored
    have extruder : s.next.e + (s.offset.e + newpos.e - s.lastPosition.e) = newpos.e := by
      linarith only [tracked.next, tracked.last]
    simp only [isMove, Consistent, Aligned, ignoreMove, plus, minus, Position.ext_iff, extruder,
      ignored, forall_const]
    grind
  · obtain ⟨next, -, commanded⟩ := fields_of_executed newpos ignored
    refine iff_of_true ?_ (fun isIgnored => absurd isIgnored ignored)
    rw [Consistent, next, plus_minus, commanded]

theorem Tracked.step (tracked : s.Tracked) (input : Input) (steps : s.step input = some after) :
    after.Tracked := by
  cases input with
  | setExcluded currentExcluded =>
    cases steps
    exact ⟨tracked.next, tracked.last⟩
  | getPosition =>
    cases steps
    exact ⟨tracked.next, tracked.next⟩
  | move newpos =>
    cases steps
    by_cases ignored : s.testInExcludedRegion
    · obtain ⟨inRegion, isMove⟩ := move_ignored newpos ignored
      rw [isMove]
      refine ⟨?_, rfl⟩
      change s.next.e + (s.offset.e + newpos.e - s.lastPosition.e) = newpos.e
      linarith only [tracked.next, tracked.last]
    · obtain ⟨next, last, commanded⟩ := fields_of_executed newpos ignored
      refine ⟨?_, by rw [last, commanded]⟩
      rw [next, commanded]
      exact sub_add_cancel _ _

theorem tracked_of_reachable (reached : Reachable Registered step s) : s.Tracked := by
  apply reached.induct_invariant
  · rintro _ ⟨next, excluded, rfl⟩ _
    exact ⟨add_zero _, rfl⟩
  · exact fun _ _ _ _ _ steps tracked => tracked.step _ steps

structure Sound (s : ExcludeObject) : Prop extends s.Tracked where
  consistent : s.Consistent

theorem Sound.alignedStep (sound : s.Sound) (steps : s.alignedStep input = some after) :
    after.Sound := by
  cases input with
  | setExcluded currentExcluded =>
    cases steps
    exact ⟨sound.toTracked.step (.setExcluded currentExcluded) rfl, sound.consistent⟩
  | getPosition =>
    cases steps
    exact ⟨sound.toTracked.step .getPosition rfl, sound.consistent⟩
  | move newpos =>
    rw [alignedStep] at steps
    split at steps
    case isTrue aligned =>
      refine ⟨sound.toTracked.step _ steps, ?_⟩
      cases steps
      exact (sound.toTracked.consistent_move newpos).mpr aligned
    case isFalse => cases steps

theorem sound_of_reachable (reached : Reachable Registered alignedStep s) : s.Sound := by
  apply reached.induct_invariant
  · rintro _ ⟨next, excluded, rfl⟩ _
    exact ⟨⟨add_zero _, rfl⟩, by simp [Consistent, registerTransform, plus]⟩
  · exact fun _ _ _ _ _ steps sound => sound.alignedStep steps

end ExcludeObject

/-- **The gcode position.** In every run, a move leaves the position of the next
transform plus the offsets at the commanded position if and only if it is executed, or
ignored while the next transform is where the last executed move was commanded to. If
all moves of the run met this condition, the sum is the last commanded position, and
`get_position` returns it. -/
theorem consistent_iff_aligned (newpos : Position)
    (reached : Reachable ExcludeObject.Registered ExcludeObject.step s) :
    (plus (s.move newpos).next (s.move newpos).offset = newpos ↔
        (s.testInExcludedRegion → s.Aligned)) ∧
      (Reachable ExcludeObject.Registered ExcludeObject.alignedStep s →
        plus s.next s.offset = s.commanded ∧ s.getPosition.1 = s.commanded) := by
  constructor
  · rw [← (tracked_of_reachable reached).consistent_move newpos,
      ExcludeObject.Consistent, commanded_move]
  · intro aligned
    have consistent := (sound_of_reachable aligned).consistent
    exact ⟨consistent, consistent⟩

/-- An ignored move away from the origin. -/
theorem consistent_iff_aligned_ignored : ∃ s, final [.setExcluded true] = some s ∧
    s.testInExcludedRegion ∧ s.next = ⟨0, 0, 0, 5⟩ ∧
    plus (s.move ⟨10, 0, 0, 5⟩).next (s.move ⟨10, 0, 0, 5⟩).offset = ⟨10, 0, 0, 5⟩ := by
  have result : (final [.setExcluded true]).any (fun s => decide
      (s.testInExcludedRegion ∧ s.next = ⟨0, 0, 0, 5⟩ ∧ s.Aligned)) = true := by
    decide +kernel
  obtain ⟨s, executes, holds⟩ := (Option.any_eq_true _ _).mp result
  obtain ⟨ignored, next, aligned⟩ := of_decide_eq_true holds
  have reached : Reachable ExcludeObject.Registered step s :=
    .of_run (fun _ => .initial ⟨_, _, rfl⟩ trivial) executes
  exact ⟨s, executes, ignored, next, (consistent_iff_aligned _ reached).1.mpr fun _ => aligned⟩

/-- The region is left with an extrusion in place and entered again: the next transform
is still at X 0. -/
theorem consistent_iff_aligned_entered :
    (final [.setExcluded true, .move ⟨10, 0, 0, 5⟩, .setExcluded false, .move ⟨10, 0, 0, 6⟩,
      .setExcluded true, .move ⟨20, 0, 0, 6⟩]).map (fun s => (plus s.next s.offset, s.commanded)) =
      some (⟨10, 0, 0, 6⟩, ⟨20, 0, 0, 6⟩) := by
  decide +kernel

end MagnetoX.Host.Exclusion
