import MagnetoX.Host.BedMesh.Transform
import MagnetoX.Library.Run

/-!
Owns what a move does to the toolhead: `move` always succeeds, and its last part
takes the toolhead to the commanded position with the height that the fade
prescribes. What `get_position` makes of that follows.
-/

namespace MagnetoX.Host.Bed

open Library.Run List

variable {t : Traverse}

namespace Traverse

def goal (t : Traverse) : Position :=
  { t.nextPos with z := t.nextPos.z + t.offsetAt t.nextPos }

/-- A check point, given by its number. An axis that changes by at most 1e-10 moves at the
end only. -/
def waypoint (t : Traverse) (n : Nat) : Position :=
  let along := fun (axis : Position → ℚ) =>
    if t.axisMove axis then
      lerp (n * t.splitter.moveCheckDistance / t.totalMoveLength) (axis t.prevPos) (axis t.nextPos)
    else axis t.prevPos
  ⟨along Position.x, along Position.y, along Position.z, along Position.e⟩

def offsetOf (t : Traverse) (n : Nat) : ℚ := t.offsetAt (t.waypoint n)

def raised (t : Traverse) (n : Nat) : Position :=
  { t.waypoint n with z := (t.waypoint n).z + t.offsetOf n }

/-- The state after `c` checks, when check point `m` was the last one that was returned. -/
def after (t : Traverse) (c m : Nat) : Traverse :=
  { t with
    currentPos := t.waypoint c
    zOffset := t.offsetOf m
    distanceChecked := c * t.splitter.moveCheckDistance }

variable {c m fuel : Nat}

theorem inside_of_unchecked (unchecked : (t.after c m).unchecked = true) :
    ((c + 1 : Nat) : ℚ) * t.splitter.moveCheckDistance < t.totalMoveLength := by
  have inside := of_decide_eq_true (Bool.and_eq_true_iff.mp unchecked).2
  push_cast
  rw [add_one_mul]
  exact inside

theorem checks_next (k : Nat)
    (inside : ((c + 1 : Nat) : ℚ) * t.splitter.moveCheckDistance < t.totalMoveLength) :
    (t.after (c + 1) k).checks + 1 = (t.after c m).checks := by
  have positive := t.splitter.moveCheckDistance_pos
  have several : 1 < (t.totalMoveLength - c * t.splitter.moveCheckDistance) / t.splitter.moveCheckDistance := by
    rw [one_lt_div positive]
    push_cast at inside
    linarith
  have ceiling : 1 < ⌈(t.totalMoveLength - c * t.splitter.moveCheckDistance) / t.splitter.moveCheckDistance⌉ :=
    Int.lt_ceil.mpr (by exact_mod_cast several)
  have shift : (t.totalMoveLength - (c + 1 : Nat) * t.splitter.moveCheckDistance) /
      t.splitter.moveCheckDistance =
        (t.totalMoveLength - c * t.splitter.moveCheckDistance) / t.splitter.moveCheckDistance - 1 := by
    push_cast
    field_simp
    ring
  simp only [checks, after]
  rw [shift, Int.ceil_sub_one]
  omega

theorem check_after (inside : ((c + 1 : Nat) : ℚ) * t.splitter.moveCheckDistance < t.totalMoveLength) :
    (t.after c m).check = .ok (if t.splitter.splitDeltaZ ≤ |t.offsetOf (c + 1) - t.offsetOf m| then
      (some (t.raised (c + 1)), t.after (c + 1) (c + 1)) else (none, t.after (c + 1) m)) := by
  have nonneg : 0 ≤ ((c + 1 : Nat) : ℚ) * t.splitter.moveCheckDistance :=
    mul_nonneg (Nat.cast_nonneg _) t.splitter.moveCheckDistance_pos.le
  have positive := nonneg.trans_lt inside
  have atMost := (div_le_one positive).mpr inside.le
  have atLeast := div_nonneg nonneg positive.le
  have next : (t.after c m).distanceChecked + (t.after c m).splitter.moveCheckDistance =
      ((c + 1 : Nat) : ℚ) * t.splitter.moveCheckDistance := by
    push_cast
    rw [add_one_mul]
    rfl
  -- an axis that does not move keeps its coordinate from check to check
  have keeps : ∀ (moves : Bool) (v v' v'' : ℚ),
      (if moves then v else if moves then v' else v'') = if moves then v else v'' := by
    intro moves v v' v''
    cases moves <;> rfl
  have sets : { t.after c m with distanceChecked := ((c + 1 : Nat) : ℚ) * t.splitter.moveCheckDistance }.setNextMove
      (((c + 1 : Nat) : ℚ) * t.splitter.moveCheckDistance) = .ok (t.after (c + 1) m) := by
    rw [setNextMove, if_neg (by rw [not_or, not_lt, not_lt]; exact ⟨atMost, atLeast⟩)]
    refine congrArg Except.ok (Traverse.mk.injEq .. ▸ ⟨rfl, rfl, rfl, rfl, rfl, ?_, rfl, rfl, rfl, rfl, rfl⟩)
    exact Position.ext (keeps _ _ _ _) (keeps _ _ _ _) (keeps _ _ _ _) (keeps _ _ _ _)
  rw [check, next]
  simp only [sets, bind, Except.bind]
  split
  · rename_i far
    exact (congrArg Except.ok (if_pos far)).symm
  · rename_i small
    exact (congrArg Except.ok (if_neg small)).symm

/-- The check points that are returned after `c` checks, when the last one was `m`. -/
structure Stops (t : Traverse) (c m : Nat) (stops : List Nat) : Prop where
  increasing : (c :: stops).Pairwise (· < ·)
  inside : ∀ n ∈ stops, n * t.splitter.moveCheckDistance < t.totalMoveLength
  close : (t.axisMove Position.x || t.axisMove Position.y) = true → ∀ n, c < n →
    n * t.splitter.moveCheckDistance < t.totalMoveLength → ∀ k ∈ m :: stops, k < n →
      (∀ stop ∈ stops, stop ≤ k ∨ n < stop) → |t.offsetOf n - t.offsetOf k| < t.splitter.splitDeltaZ

namespace Stops

variable {stops : List Nat}

theorem last (complete : ¬ (t.after c m).unchecked = true) : t.Stops c m [] where
  increasing := pairwise_singleton _ _
  inside := forall_mem_nil _
  close := by
    intro moves n less inside
    refine absurd ?_ complete
    rw [unchecked, Bool.and_eq_true, decide_eq_true_eq]
    have next : (c : ℚ) + 1 ≤ n := by exact_mod_cast less
    have distance := mul_le_mul_of_nonneg_right next t.splitter.moveCheckDistance_pos.le
    rw [add_one_mul] at distance
    exact ⟨moves, distance.trans_lt inside⟩

theorem pass (before : m ≤ c) (small : |t.offsetOf (c + 1) - t.offsetOf m| < t.splitter.splitDeltaZ)
    (rest : t.Stops (c + 1) m stops) : t.Stops c m stops where
  increasing := by
    obtain ⟨later, increasing⟩ := pairwise_cons.mp rest.increasing
    exact pairwise_cons.mpr ⟨fun n isStop => (Nat.lt_succ_self c).trans (later n isStop), increasing⟩
  inside := rest.inside
  close := by
    intro moves n less isInside k isStop isBefore between
    rcases Nat.lt_or_ge (c + 1) n with later | isNext
    · exact rest.close moves n later isInside k isStop isBefore between
    · obtain rfl : n = c + 1 := by omega
      rcases mem_cons.mp isStop with rfl | isStop
      · exact small
      · have later := (pairwise_cons.mp rest.increasing).1 k isStop
        omega

theorem stop (before : m ≤ c)
    (inside : ((c + 1 : Nat) : ℚ) * t.splitter.moveCheckDistance < t.totalMoveLength)
    (rest : t.Stops (c + 1) (c + 1) stops) : t.Stops c m ((c + 1) :: stops) where
  increasing := by
    have later := (pairwise_cons.mp rest.increasing).1
    refine pairwise_cons.mpr ⟨forall_mem_cons.mpr ⟨Nat.lt_succ_self c, ?_⟩, rest.increasing⟩
    exact fun n isStop => (Nat.lt_succ_self c).trans (later n isStop)
  inside := forall_mem_cons.mpr ⟨inside, rest.inside⟩
  close := by
    intro moves n less isInside k isStop isBefore between
    obtain ⟨first, between⟩ := forall_mem_cons.mp between
    rcases mem_cons.mp isStop with rfl | isStop
    · omega
    · exact rest.close moves n (by omega) isInside k isStop isBefore between

end Stops

theorem splitLoop_after (before : m ≤ c) (enough : (t.after c m).checks ≤ fuel) :
    (∃ later, (t.after c m).splitLoop fuel = .ok (t.goal, later) ∧ later.traverseComplete = true ∧
        t.Stops c m []) ∨ ∃ n, (t.after c m).splitLoop fuel = .ok (t.raised n, t.after n n) ∧
        (t.after n n).checks < (t.after c m).checks ∧ ∀ stops, t.Stops n n stops → t.Stops c m (n :: stops) := by
  induction fuel generalizing c with
  | zero =>
    rw [splitLoop]
    split
    · rename_i unchecked
      have fewer := checks_next (t := t) (m := m) m (inside_of_unchecked unchecked)
      omega
    · exact .inl ⟨_, rfl, rfl, .last ‹_›⟩
  | succ fuel ih =>
    rw [splitLoop]
    split
    · rename_i unchecked
      have inside := inside_of_unchecked unchecked
      have fewer := checks_next (m := m) m inside
      rw [check_after inside]
      split
      · exact .inr ⟨c + 1, rfl, checks_next (m := m) (c + 1) inside ▸ Nat.lt_succ_self _,
          fun stops rest => rest.stop before inside⟩
      · rename_i small
        have pass := fun stops (rest : t.Stops (c + 1) m stops) => rest.pass before (not_le.mp small)
        rcases ih (show m ≤ c + 1 by omega) (by omega) with ⟨last, splits, complete, rest⟩ | ⟨n, splits, less, rest⟩
        · exact .inl ⟨last, splits, complete, pass _ rest⟩
        · exact .inr ⟨n, splits, by omega, fun stops later => pass _ (rest stops later)⟩
    · exact .inl ⟨_, rfl, rfl, .last ‹_›⟩

theorem splitMoves_after (running : t.traverseComplete = false) (before : m ≤ c)
    (enough : (t.after c m).checks + 1 < fuel) :
    ∃ stops, (t.after c m).splitMoves fuel = .ok (stops.map t.raised ++ [t.goal]) ∧ t.Stops c m stops := by
  have goesOn : ∀ c m, ¬ (t.after c m).traverseComplete = true := fun c m => by simp [after, running]
  induction fuel generalizing c m with
  | zero => exact absurd enough (Nat.not_lt_zero _)
  | succ fuel ih =>
    rw [splitMoves, if_neg (goesOn c m), split, if_neg (goesOn c m)]
    rcases splitLoop_after (t := t) before le_rfl with ⟨last, splits, complete, stops⟩ | ⟨n, splits, fewer, rest⟩
    · obtain ⟨fuel, rfl⟩ : ∃ more, fuel = more + 1 := ⟨fuel - 1, by omega⟩
      have ends : last.splitMoves (fuel + 1) = .ok [] := by
        rw [splitMoves, if_pos complete]
      refine ⟨[], ?_, stops⟩
      rw [splits]
      simp only [Except.map, bind, Except.bind, ends]
      rfl
    · obtain ⟨stops, moves, later⟩ := ih (le_refl n) (by omega)
      refine ⟨n :: stops, ?_, rest stops later⟩
      rw [splits]
      simp only [Except.map, bind, Except.bind, moves]
      rfl

end Traverse

namespace BedMesh

variable {b : BedMesh} {mesh : ZMesh}

def toolheadAfter (b : BedMesh) (totalMoveLength : ℚ) (newpos : Position) : Option Position :=
  match b.move totalMoveLength newpos with
  | .ok (_, moves) => moves.getLast?
  | .error _ => none

theorem buildMove_splitMoves (b : BedMesh) (mesh : ZMesh) (totalMoveLength : ℚ) (newpos : Position) (factor : ℚ) :
    let t := b.buildMove mesh totalMoveLength newpos factor
    ∃ stops, t.splitMoves (t.checks + 2) = .ok (stops.map t.raised ++ [t.goal]) ∧ t.Stops 0 0 stops := by
  intro t
  have begins : t.after 0 0 = t := by
    have start : t.waypoint 0 = t.prevPos := by
      simp [Traverse.waypoint, lerp]
    simp only [Traverse.after, Traverse.offsetOf, start, Nat.cast_zero, zero_mul]
    rfl
  have moves := Traverse.splitMoves_after (t := t) rfl (le_refl 0) (Nat.lt_succ_self ((t.after 0 0).checks + 1))
  rwa [begins] at moves

/-- A move succeeds, ends at the height that the fade prescribes, and keeps the
mesh and the fade. -/
theorem move_spec (loaded : b.zMesh = some mesh) (totalMoveLength : ℚ) (newpos : Position) :
    ∃ after moves, b.move totalMoveLength newpos = .ok (after, moves) ∧
      moves.getLast? = some { newpos with
        z := b.fade.toolheadZ b.fadeTarget (mesh.calcZ newpos.x newpos.y) newpos.z } ∧
      after.fade = b.fade ∧ after.fadeTarget = b.fadeTarget ∧ after.zMesh = b.zMesh := by
  unfold move
  simp only [loaded]
  split
  · rename_i phasedOut
    refine ⟨_, _, rfl, ?_, rfl, rfl, rfl⟩
    simp only [Fade.toolheadZ, phasedOut, zero_mul, zero_add]
    rfl
  · obtain ⟨stops, splits, -⟩ := buildMove_splitMoves b mesh totalMoveLength newpos (b.fade.zFactor newpos.z)
    rw [splits]
    exact ⟨_, _, rfl, getLast?_concat, rfl, rfl, rfl⟩

theorem toolheadAfter_eq (loaded : b.zMesh = some mesh) (totalMoveLength : ℚ) (newpos : Position) :
    b.toolheadAfter totalMoveLength newpos = some { newpos with
      z := b.fade.toolheadZ b.fadeTarget (mesh.calcZ newpos.x newpos.y) newpos.z } := by
  obtain ⟨after, moves, moved, isLast, -⟩ := move_spec loaded totalMoveLength newpos
  rw [toolheadAfter, moved]
  exact isLast

/-- States in which `set_mesh` has accepted the mesh. -/
def Accepts (mesh : ZMesh) (accepted : BedMesh) : Prop :=
  ∃ b : BedMesh, b.setMesh (some mesh) = .ok accepted

def moveStep (b : BedMesh) (command : ℚ × Position) : Option BedMesh :=
  (b.move command.1 command.2).toOption.map Prod.fst

/-- What `set_mesh` establishes and moves keep. -/
structure Loaded (mesh : ZMesh) (b : BedMesh) : Prop where
  zMesh : b.zMesh = some mesh
  resets : b.fade.dist ≤ 0 → b.fadeTarget = 0

theorem setMesh_loaded {accepted : BedMesh} (accepts : b.setMesh (some mesh) = .ok accepted) :
    accepted.Loaded mesh := by
  simp only [setMesh] at accepts
  split at accepts
  · cases accepts
    exact ⟨rfl, fun _ => rfl⟩
  · rename_i enabled
    split at accepts
    · cases accepts
    · split at accepts
      · cases accepts
      · cases accepts
        refine ⟨rfl, fun disabled => ?_⟩
        rcases b.fade.consistent with ⟨-, -, isFinish⟩ | ⟨positive, -⟩
        · exact absurd isFinish enabled
        · exact absurd disabled (not_le.mpr positive)

theorem move_loaded {after : BedMesh} {command : ℚ × Position} (loaded : b.Loaded mesh)
    (moves : b.moveStep command = some after) : after.Loaded mesh := by
  obtain ⟨result, waypoints, moved, -, sameFade, sameTarget, sameMesh⟩ :=
    move_spec loaded.zMesh command.1 command.2
  rw [moveStep, moved] at moves
  cases moves
  exact ⟨sameMesh.trans loaded.zMesh, by rw [sameFade, sameTarget]; exact loaded.resets⟩

theorem reachable_loaded (reached : Reachable (Accepts mesh) moveStep b) : b.Loaded mesh :=
  reached.induct_invariant (fun _ accepts _ => setMesh_loaded accepts.choose_spec)
    (fun _ _ _ _ _ moves loaded => move_loaded loaded moves)

def slopedMesh (low high avgZ : ℚ) : ZMesh where
  xAxis := ⟨0, 50, 3, by norm_num, by norm_num⟩
  yAxis := ⟨0, 50, 3, by norm_num, by norm_num⟩
  offsets := (0, 0)
  matrix := some (List.replicate 3 [low, (low + high) / 2, high])
  avgZ := avgZ
  shaped := by
    rintro _ ⟨⟩
    exact ⟨rfl, fun row isRow => by rw [List.eq_of_mem_replicate isRow]; rfl⟩

def unmeshed (fade : Fade) (baseFadeTarget : Option ℚ) (lastPosition : Position) : BedMesh where
  fade := fade
  splitter := ⟨1 / 40, 5, by norm_num, by norm_num⟩
  baseFadeTarget := baseFadeTarget
  fadeTarget := 0
  zMesh := none
  logFadeComplete := false
  lastPosition := lastPosition

theorem exists_accepted (b : BedMesh) (mesh : ZMesh) (holds : BedMesh → Prop) [DecidablePred holds]
    (found : (b.setMesh (some mesh)).toOption.any (fun accepted => decide (holds accepted)) = true) :
    ∃ accepted, Reachable (Accepts mesh) moveStep accepted ∧ holds accepted := by
  obtain ⟨accepted, accepts, isFound⟩ := exists_of_any holds found
  exact ⟨accepted, .initial ⟨b, accepts⟩ trivial, isFound⟩

/-- The parts of a move go to check points on the line, in their order, and to its end. At a
check point between two of them the offset differs from that of the earlier one by less than
`split_delta_z`. -/
theorem waypoints_follow_line (b : BedMesh) (mesh : ZMesh) (totalMoveLength : ℚ) (newpos : Position) (factor : ℚ) :
    let t := b.buildMove mesh totalMoveLength newpos factor
    (t.axisMove Position.x || t.axisMove Position.y) = true →
    ∃ stops : List Nat, t.splitMoves (t.checks + 2) = .ok (stops.map t.raised ++ [t.goal]) ∧
      (0 :: stops).Pairwise (· < ·) ∧
      (∀ n ∈ stops, n * b.splitter.moveCheckDistance < totalMoveLength) ∧
      ∀ n : Nat, n * b.splitter.moveCheckDistance < totalMoveLength → ∀ k ∈ 0 :: stops, k < n →
        (∀ stop ∈ stops, stop ≤ k ∨ n < stop) → |t.offsetOf n - t.offsetOf k| < b.splitter.splitDeltaZ := by
  intro t moves
  obtain ⟨stops, splits, line⟩ := buildMove_splitMoves b mesh totalMoveLength newpos factor
  exact ⟨stops, splits, line.increasing, line.inside,
    fun n inside k isStop before => line.close moves n (Nat.zero_lt_of_lt before) inside k isStop before⟩

/-- A move along the slope. -/
theorem waypoints_follow_line_sloped :
    let t := (unmeshed (.configure 0 0) none ⟨0, 0, 0, 0⟩).buildMove (slopedMesh 0 1 0) 100 ⟨100, 0, 0, 5⟩ 1
    ∃ stops, t.splitMoves (t.checks + 2) = .ok (stops.map t.raised ++ [t.goal]) ∧ (0 :: stops).Pairwise (· < ·) := by
  obtain ⟨stops, splits, increasing, -⟩ := waypoints_follow_line (unmeshed (.configure 0 0) none ⟨0, 0, 0, 0⟩)
    (slopedMesh 0 1 0) 100 ⟨100, 0, 0, 5⟩ 1 (by decide +kernel)
  exact ⟨stops, splits, increasing⟩

/-- An extrusion of 1e-11 is not spread over the move: the first part leaves the line. -/
theorem short_extrusion_not_spread :
    let t := (unmeshed (.configure 0 0) none ⟨0, 0, 0, 0⟩).buildMove (slopedMesh 0 1 0) 100
      ⟨100, 0, 0, 1 / 10 ^ 11⟩ 1
    ∃ moves, t.splitMoves (t.checks + 2) = .ok moves ∧ ∃ p ∈ moves,
      ¬ ∃ s : ℚ, p.x = lerp s 0 100 ∧ p.y = lerp s 0 0 ∧ p.e = lerp s 0 (1 / 10 ^ 11) := by
  intro t
  obtain ⟨moves, splits, isFirst⟩ : ∃ moves, t.splitMoves (t.checks + 2) = .ok moves ∧
      (⟨5, 0, 1 / 20, 0⟩ : Position) ∈ moves := exists_of_any _ (by decide +kernel)
  refine ⟨moves, splits, _, isFirst, ?_⟩
  rintro ⟨s, onX, -, onE⟩
  rw [lerp] at onX onE
  linarith

/-- In every state with an accepted mesh, a greater commanded height gives a
greater toolhead height at a point exactly if the mesh is low enough there. -/
theorem toolhead_height_increasing_iff (reached : Reachable (Accepts mesh) moveStep b) (x y : ℚ) :
    (∀ lowLength highLength lowE highE low high : ℚ, low < high →
      ∃ below above, b.toolheadAfter lowLength ⟨x, y, low, lowE⟩ = some below ∧
        b.toolheadAfter highLength ⟨x, y, high, highE⟩ = some above ∧ below.z < above.z) ↔
      b.fade.Increasing b.fadeTarget (mesh.calcZ x y) := by
  have loaded := reachable_loaded reached
  rw [← Fade.toolheadZ_strictMono_iff loaded.resets]
  constructor
  · intro increasing low high less
    obtain ⟨below, above, first, second, order⟩ := increasing 0 0 0 0 low high less
    rw [toolheadAfter_eq loaded.zMesh] at first second
    cases first
    cases second
    exact order
  · intro increasing lowLength highLength lowE highE low high less
    exact ⟨_, _, toolheadAfter_eq loaded.zMesh _ _, toolheadAfter_eq loaded.zMesh _ _, increasing less⟩

theorem flat_bed_heights_increase :
    ∃ b, Reachable (Accepts (slopedMesh (-1 / 10) (3 / 10) (1 / 10))) moveStep b ∧
      ∀ lowLength highLength lowE highE low high : ℚ, low < high →
        ∃ below above, b.toolheadAfter lowLength ⟨100, 50, low, lowE⟩ = some below ∧
          b.toolheadAfter highLength ⟨100, 50, high, highE⟩ = some above ∧ below.z < above.z := by
  obtain ⟨b, reached, increasing⟩ := exists_accepted
    (unmeshed (.configure 1 10) none ⟨100, 50, 5, 0⟩) (slopedMesh (-1 / 10) (3 / 10) (1 / 10))
    (fun b => b.fade.Increasing b.fadeTarget ((slopedMesh (-1 / 10) (3 / 10) (1 / 10)).calcZ 100 50))
    (by decide +kernel)
  exact ⟨b, reached, (toolhead_height_increasing_iff reached 100 50).mpr increasing⟩

/-- With the fade target at the lowest point of a bed, raising the commanded height
from 1 to 2 lowers the toolhead over the highest point. -/
theorem raised_command_lowers_toolhead :
    ∃ b, Reachable (Accepts (slopedMesh (-3 / 5) (3 / 5) 0)) moveStep b ∧
      b.toolheadAfter 4 ⟨100, 50, 1, 0⟩ = some ⟨100, 50, 8 / 5, 0⟩ ∧
      b.toolheadAfter 3 ⟨100, 50, 2, 0⟩ = some ⟨100, 50, 7 / 5, 0⟩ :=
  exists_accepted (unmeshed (.configure 1 2) (some (-3 / 5)) ⟨100, 50, 5, 0⟩) _ _ (by decide +kernel)

/-- After the move, `get_position` gives the commanded position. -/
def Inverts (b : BedMesh) (totalMoveLength : ℚ) (newpos : Position) : Prop :=
  ∃ after moves toolhead, b.move totalMoveLength newpos = .ok (after, moves) ∧
    moves.getLast? = some toolhead ∧ after.getPosition toolhead = some newpos

theorem getPosition_eq (loaded : b.zMesh = some mesh) (toolhead : Position) :
    b.getPosition toolhead =
      (b.fade.recoveredZ b.fadeTarget (mesh.calcZ toolhead.x toolhead.y) toolhead.z).map
        (fun z => { toolhead with z }) := by
  rw [getPosition, loaded, Fade.recoveredZ, Option.map_map]
  rfl

theorem inverts_iff (loaded : b.zMesh = some mesh) (totalMoveLength : ℚ) (newpos : Position) :
    b.Inverts totalMoveLength newpos ↔
      b.fade.recoveredZ b.fadeTarget (mesh.calcZ newpos.x newpos.y)
        (b.fade.toolheadZ b.fadeTarget (mesh.calcZ newpos.x newpos.y) newpos.z) = some newpos.z := by
  obtain ⟨after, moves, moved, isLast, sameFade, sameTarget, sameMesh⟩ :=
    move_spec loaded totalMoveLength newpos
  constructor
  · rintro ⟨_, _, toolhead, movedTo, isToolhead, found⟩
    cases moved.symm.trans movedTo
    cases isLast.symm.trans isToolhead
    rw [getPosition_eq (sameMesh.trans loaded), sameFade, sameTarget, Option.map_eq_some_iff] at found
    obtain ⟨z, recovers, same⟩ := found
    rw [recovers, ← congrArg Position.z same]
  · intro recovers
    refine ⟨after, moves, _, moved, isLast, ?_⟩
    rw [getPosition_eq (sameMesh.trans loaded), sameFade, sameTarget, recovers]
    rfl

/-- In every state with an accepted mesh, `get_position` inverts the moves to a
point of the bed exactly if the heights there are recoverable. -/
theorem getPosition_inverts_move_iff (reached : Reachable (Accepts mesh) moveStep b) (x y : ℚ) :
    (∀ totalMoveLength z e : ℚ, b.Inverts totalMoveLength ⟨x, y, z, e⟩) ↔
      b.fade.Recoverable b.fadeTarget (mesh.calcZ x y) := by
  have loaded := reachable_loaded reached
  rw [← Fade.recoveredZ_iff loaded.resets]
  constructor
  · intro inverts z
    exact (inverts_iff loaded.zMesh 0 ⟨x, y, z, 0⟩).mp (inverts 0 z 0)
  · intro recovers totalMoveLength z e
    exact (inverts_iff loaded.zMesh totalMoveLength ⟨x, y, z, e⟩).mpr (recovers z)

theorem high_side_inverts :
    ∃ b, Reachable (Accepts (slopedMesh (-1 / 10) (3 / 10) (1 / 10))) moveStep b ∧
      ∀ totalMoveLength z e : ℚ, b.Inverts totalMoveLength ⟨100, 50, z, e⟩ := by
  obtain ⟨b, reached, recoverable⟩ := exists_accepted
    (unmeshed (.configure 1 10) none ⟨0, 50, 5, 0⟩) (slopedMesh (-1 / 10) (3 / 10) (1 / 10))
    (fun b => b.fade.Recoverable b.fadeTarget ((slopedMesh (-1 / 10) (3 / 10) (1 / 10)).calcZ 100 50))
    (by decide +kernel)
  exact ⟨b, reached, (getPosition_inverts_move_iff reached 100 50).mpr recoverable⟩

/-- With the fade of the documentation and the default fade target, a move to 9.95
over the lowest point of a bed is read back as another height. -/
theorem low_side_not_inverted :
    ∃ b, Reachable (Accepts (slopedMesh (-1 / 10) (3 / 10) (1 / 10))) moveStep b ∧
      b.toolheadAfter (99 / 20) ⟨0, 50, 199 / 20, 0⟩ = some ⟨0, 50, 2261 / 225, 0⟩ ∧
      b.getPosition ⟨0, 50, 2261 / 225, 0⟩ = some ⟨0, 50, 4477 / 450, 0⟩ :=
  exists_accepted (unmeshed (.configure 1 10) none ⟨0, 50, 5, 0⟩) _ _ (by decide +kernel)

end BedMesh

end MagnetoX.Host.Bed
