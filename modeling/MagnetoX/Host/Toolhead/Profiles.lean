import MagnetoX.Host.Toolhead.Feasible

/-!
Owns the velocity profile of every move that leaves the look-ahead queue: the
flush that removes a move calls `set_junction` for it exactly once, with
velocities that the move can be driven with. Speeds, accelerations and lengths
are positive here.
-/

namespace MagnetoX.Host.Toolhead

open Library.Run List

variable {move prevMove : Move} {rest queue : List Move} {junction : Junction} {lazy : Bool}

def Driven (move : Move) : Prop := 0 < move.maxCruiseV2

theorem driven_init (limits : Limits) (isKinematicMove : Bool) (moveD : ℚ) {speed : ℚ}
    (positive : 0 < speed) (velocity : 0 < limits.maxVelocity) :
    Driven (Move.init limits isKinematicMove moveD speed) := by
  have least : 0 < min speed limits.maxVelocity := lt_min positive velocity
  cases isKinematicMove with
  | true => exact pow_pos least 2
  | false => exact pow_pos positive 2

theorem Driven.calcJunction (driven : Driven move) (limit : Option ℚ) :
    Driven (move.calcJunction limit prevMove) := by
  cases limit with
  | none => exact driven
  | some limit => exact driven

/-- Where a move may accelerate, the peak is known and not zero. -/
theorem peakV2_pos (linked : Linked queue) (driven : ∀ move ∈ queue, Driven move)
    (notDelayed : ¬ Delayed queue) (nonempty : queue ≠ []) : 0 < peakV2 queue := by
  induction queue with
  | nil => exact absurd rfl nonempty
  | cons move rest ih =>
    have smooth := linked.1.smooth_pos
    have own := smoothedV2_nonneg linked
    have behind := smoothedV2_nonneg linked.tail
    rw [peakV2]
    by_cases isPeak : IsPeak move rest
    · rw [if_pos ⟨notDelayed, isPeak⟩]
      exact lt_min (driven move (.head _)) (by linarith)
    · rw [if_neg (fun peak => isPeak peak.2)]
      obtain ⟨lower, restNotDelayed⟩ := not_or.mp isPeak
      refine ih linked.tail
        (fun other isOther => driven other (.tail _ isOther)) restNotDelayed ?_
      rintro rfl
      exact lower (by rw [smoothedV2]; linarith)

theorem startV2_pos_of_delayed (linked : Linked (move :: rest)) (delayed : Delayed (move :: rest)) :
    0 < startV2 (move :: rest) := by
  have smooth := linked.1.smooth_pos
  have behind := smoothedV2_nonneg linked.tail
  have below := smoothedV2_le_startV2 linked
  rw [smoothedV2_of_delayed delayed] at below
  linarith

structure Profile (move : Move) (junction : Junction) : Prop where
  start_nonneg : 0 ≤ junction.startV2
  start_le : junction.startV2 ≤ junction.cruiseV2
  end_nonneg : 0 ≤ junction.endV2
  end_le : junction.endV2 ≤ junction.cruiseV2
  cruise_pos : 0 < junction.cruiseV2
  cruise_le : junction.cruiseV2 ≤ move.maxCruiseV2
  accel_pos : 0 < move.accel
  distance : (junction.cruiseV2 - junction.startV2) * (1 / 2 / move.accel) +
    (junction.cruiseV2 - junction.endV2) * (1 / 2 / move.accel) ≤ move.moveD
  /-- Whatever the square root is, as long as it keeps signs: no division by zero
  and no negative time. -/
  times : ∀ sqrt : ℚ → ℚ, (∀ v, 0 ≤ sqrt v) → (∀ v, 0 < v → 0 < sqrt v) →
    (move.setJunction sqrt junction).Forward ∧ sqrt junction.cruiseV2 ≠ 0 ∧
      (sqrt junction.startV2 + sqrt junction.cruiseV2) * (1 / 2) ≠ 0 ∧
      (sqrt junction.endV2 + sqrt junction.cruiseV2) * (1 / 2) ≠ 0

theorem Feasible.profile (feasible : Feasible move junction) (measured : Measured move)
    (start_nonneg : 0 ≤ junction.startV2) (end_nonneg : 0 ≤ junction.endV2)
    (cruise_pos : 0 < junction.cruiseV2) (cruise_le : junction.cruiseV2 ≤ move.maxCruiseV2) :
    Profile move junction where
  start_nonneg := start_nonneg
  start_le := feasible.start_le
  end_nonneg := end_nonneg
  end_le := feasible.end_le
  cruise_pos := cruise_pos
  cruise_le := cruise_le
  accel_pos := measured.1
  distance := feasible.distance measured
  times := by
    intro sqrt nonneg positive
    have cruising := positive _ cruise_pos
    have starting := nonneg junction.startV2
    have ending := nonneg junction.endV2
    refine ⟨feasible.forward measured nonneg, cruising.ne', ne_of_gt ?_, ne_of_gt ?_⟩
    · linarith
    · linarith

theorem ownJunction_profile (linked : Linked (move :: rest)) (measured : Measured move)
    (driven : ∀ other ∈ move :: rest, Driven other) (notDelayed : ¬ Delayed (move :: rest)) :
    Profile move (ownJunction move rest) := by
  have start := startV2_nonneg linked
  have behind := startV2_nonneg linked.tail
  have delta := linked.1.smooth_pos.trans_le linked.1.smooth_le
  have cruise : 0 < (ownJunction move rest).cruiseV2 :=
    lt_min (by linarith) (lt_min (driven move (.head _))
      (peakV2_pos linked driven notDelayed nofun))
  refine (ownJunction_feasible linked).profile measured ?_ ?_ cruise ?_
  · exact le_min start cruise.le
  · exact le_min behind cruise.le
  · exact (min_le_right _ _).trans (min_le_left _ _)

theorem delayedJunction_profile {mcV2 : ℚ} (positive : 0 < mcV2) (linked : Linked (move :: rest))
    (measured : Measured move) (delayed : Delayed (move :: rest)) :
    Profile move (delayedJunction mcV2 move rest) := by
  have start := startV2_pos_of_delayed linked delayed
  have behind := startV2_nonneg linked.tail
  have cruise : 0 < (delayedJunction mcV2 move rest).cruiseV2 := lt_min positive start
  refine (delayedJunction_feasible mcV2 linked).profile measured ?_ ?_ cruise ?_
  · exact le_min start.le cruise.le
  · exact le_min behind cruise.le
  · exact ((min_le_right _ _).trans (min_le_left _ _)).trans linked.1.start_le

/-- The plan gives a profile to every move; `mcV2` is not used if the first move
can accelerate. -/
theorem assign_profile {mcV2 : ℚ} (linked : Linked queue) (measured : ∀ move ∈ queue, Measured move)
    (driven : ∀ move ∈ queue, Driven move) (positive : Delayed queue → 0 < mcV2) :
    List.Forall₂ Profile queue (assign mcV2 queue) := by
  induction queue generalizing mcV2 with
  | nil => exact .nil
  | cons move rest ih =>
    have own := measured move (.head _)
    have later := fun mcV2 positive => @ih mcV2 linked.tail
      (fun other isOther => measured other (.tail _ isOther))
      (fun other isOther => driven other (.tail _ isOther)) positive
    rw [assign]
    split
    · rename_i delayed
      have start := startV2_pos_of_delayed linked delayed
      exact .cons (delayedJunction_profile (positive delayed) linked own delayed)
        (later _ (fun _ => lt_min (positive delayed) start))
    · rename_i notDelayed
      exact .cons (ownJunction_profile linked own driven notDelayed)
        (later _ (fun _ => peakV2_pos linked driven notDelayed (by rintro ⟨⟩)))

structure Drivable (queue : List Move) : Prop where
  planned : Planned queue
  driven : ∀ move ∈ queue, Driven move

/-- A flush sets the junction of each move that it removes once, and of no other,
and hands the move over with its profile. -/
structure Flushes (lazy : Bool) (queue : List Move) : Prop where
  once : (traverse lazy queue.length 0 queue).junctions.map Prod.fst =
    List.range (flushQueue lazy queue).1.length
  removed : (flushQueue lazy queue).1.map Prod.fst ++ (flushQueue lazy queue).2 = queue
  profile : ∀ move junction, (move, junction) ∈ (flushQueue lazy queue).1 →
    ∃ own, junction = some own ∧ Profile move own

theorem map_fst_numbered (first : Nat) (junctions : List Junction) :
    (numbered first junctions).map Prod.fst = List.range' first junctions.length := by
  induction junctions generalizing first with
  | nil => rfl
  | cons junction junctions ih =>
    rw [numbered, map_cons, ih, length_cons, range'_succ]

theorem kept_suffix (keeps : kept lazy queue = some rest) : ∃ before, queue = before ++ rest := by
  cases lazy with
  | true => exact (kept_lazy keeps).1
  | false =>
    rw [kept_full] at keeps
    cases keeps
    exact ⟨queue, (append_nil queue).symm⟩

theorem Drivable.flushes (drivable : Drivable queue) (lazy : Bool) : Flushes lazy queue := by
  obtain ⟨v2, ready⟩ := drivable.planned.ready
  have linked := drivable.planned.linked
  have front := (ready.spec linked).1
  cases keeps : kept lazy queue with
  | none =>
    have stays := flushQueue_none keeps
    refine ⟨?_, ?_, ?_⟩
    · rw [traverse_eq lazy queue _ 0 (Nat.zero_add _).symm, stays]
      simp [Toolhead.planned, keeps]
    · rw [stays]
      rfl
    · rw [stays]
      rintro _ _ ⟨⟩
  | some rest =>
    obtain ⟨before, split⟩ := kept_suffix keeps
    have hands := flushQueue_some keeps split front
    have lengths : ((assign 0 queue).take before.length).length = before.length := by
      rw [length_take, length_assign, split, length_append]
      omega
    refine ⟨?_, ?_, ?_⟩
    · rw [traverse_junctions keeps split front, map_fst_numbered, hands, lengths, length_map,
        length_zip, lengths, min_self, range_eq_range']
    · rw [hands, map_map]
      have fronts : (before.zip ((assign 0 queue).take before.length)).map Prod.fst = before :=
        map_fst_zip lengths.ge
      exact (congrArg (· ++ rest) fronts).trans split.symm
    · rw [hands]
      intro move junction isEntry
      obtain ⟨⟨_, own⟩, isPair, same⟩ := mem_map.mp isEntry
      cases same
      have profiles : Forall₂ Profile queue (assign 0 queue) :=
        assign_profile linked drivable.planned.measured drivable.driven
          (fun delayed => absurd delayed front)
      have isPair : (move, own) ∈ queue.zip (assign 0 queue) := by
        have taken : queue.take before.length = before := by rw [split, take_left]
        rw [← taken, length_take, split, length_append,
          min_eq_left (Nat.le_add_right _ _), ← split, zip, ← take_zipWith] at isPair
        exact mem_of_mem_take isPair
      exact ⟨own, rfl, (forall₂_iff_zip.mp profiles).2 isPair⟩

theorem drivable_nil : Drivable [] := ⟨planned_nil, nofun⟩

theorem Drivable.flush (drivable : Drivable queue) (lazy : Bool) :
    Drivable (flushQueue lazy queue).2 where
  planned := drivable.planned.flush lazy
  driven := by
    intro move isMove
    refine drivable.driven move ?_
    rw [← (drivable.flushes lazy).removed]
    exact mem_append_right _ isMove

def Operation.Driven : Operation → Prop
  | .addMove move _ => Toolhead.Driven move.val
  | .flush _ => True
  | .setFlushTime _ => True

def Operation.flushes (state : MoveQueue) : Operation → Option (Bool × List Move)
  | .addMove move limit =>
      match state.queue.getLast? with
      | none => none
      | some prevMove =>
          if state.junctionFlush - move.val.minMoveT ≤ 0 then
            some (true, state.queue ++ [move.val.calcJunction (limit.map Subtype.val) prevMove])
          else none
  | .flush lazy => some (lazy, state.queue)
  | .setFlushTime _ => none

theorem Drivable.append (drivable : Drivable queue) (last : queue.getLast? = some prevMove)
    (checked : Checked move) (driven : Driven move) (limit : Option { v2 : ℚ // 0 ≤ v2 }) :
    Drivable (queue ++ [move.calcJunction (limit.map Subtype.val) prevMove]) where
  planned := by
    refine drivable.planned.append last checked.fresh (fun v2 isLimit => ?_)
    obtain ⟨bounded, -, rfl⟩ := Option.map_eq_some_iff.mp isLimit
    exact bounded.property
  driven := by
    intro other isMove
    rcases mem_append.mp isMove with before | isLast
    · exact drivable.driven other before
    · rw [mem_singleton.mp isLast]
      exact driven.calcJunction _

variable {operation : Operation} {state after : MoveQueue}

open MoveQueue

/-- What an operation flushes is all that leaves the queue. -/
theorem step_of_flushes (steps : state.step operation = some after)
    (flushes : operation.flushes state = some (lazy, queue)) :
    after.queue = (flushQueue lazy queue).2 ∧ after.flushed = state.flushed ++
      (flushQueue lazy queue).1.map (fun (move, junction) => .move move junction) ++
        if lazy then [] else [.fullFlush] := by
  cases operation with
  | addMove move limit =>
    cases last : state.queue.getLast? with
    | none => simp [Operation.flushes, last] at flushes
    | some prevMove =>
      simp only [Operation.flushes, last, Option.ite_none_right_eq_some, Option.some.injEq,
        Prod.mk.injEq] at flushes
      obtain ⟨time, rfl, rfl⟩ := flushes
      simp only [step, addMove, last, if_pos time, Option.some.injEq] at steps
      subst steps
      exact ⟨rfl, rfl⟩
  | flush lazy =>
    cases flushes
    cases steps
    exact ⟨rfl, rfl⟩
  | setFlushTime flushTime => cases flushes

/-- All that left the queue has a profile, and the next flush, whatever operation
makes it, gives one to each move that it removes. -/
structure Profiled (state : MoveQueue) : Prop where
  flushed : ∀ move junction, .move move junction ∈ state.flushed →
    ∃ own, junction = some own ∧ Profile move own
  flushes : ∀ operation : { operation : Operation // operation.Driven }, ∀ lazy queue,
    operation.val.flushes state = some (lazy, queue) → Flushes lazy queue

theorem Drivable.of_flushes (drivable : Drivable state.queue) (driven : operation.Driven)
    (flushes : operation.flushes state = some (lazy, queue)) : Drivable queue := by
  cases operation with
  | addMove move limit =>
    cases last : state.queue.getLast? with
    | none => simp [Operation.flushes, last] at flushes
    | some prevMove =>
      simp only [Operation.flushes, last, Option.ite_none_right_eq_some, Option.some.injEq,
        Prod.mk.injEq] at flushes
      obtain ⟨-, -, rfl⟩ := flushes
      exact drivable.append last move.property driven limit
  | flush lazy =>
    cases flushes
    exact drivable
  | setFlushTime flushTime => cases flushes

theorem Drivable.step_of_none (drivable : Drivable state.queue)
    (driven : operation.Driven) (steps : state.step operation = some after)
    (flushes : operation.flushes state = none) :
    Drivable after.queue ∧ after.flushed = state.flushed := by
  cases operation with
  | addMove move limit =>
    cases last : state.queue.getLast? with
    | none =>
      simp only [step, addMove, last, Option.some.injEq] at steps
      subst steps
      refine ⟨⟨.singleton move.property.fresh, fun other isMove => ?_⟩, rfl⟩
      rw [mem_singleton.mp isMove]
      exact driven
    | some prevMove =>
      simp only [Operation.flushes, last, ite_eq_right_iff] at flushes
      have late : ¬ state.junctionFlush - move.val.minMoveT ≤ 0 :=
        fun time => Option.some_ne_none _ (flushes time)
      simp only [step, addMove, last, if_neg late, Option.some.injEq] at steps
      subst steps
      exact ⟨drivable.append last move.property driven limit, rfl⟩
  | flush lazy => cases flushes
  | setFlushTime flushTime =>
    cases steps
    exact ⟨drivable, rfl⟩

structure KeepsProfiles (state : MoveQueue) : Prop where
  drivable : Drivable state.queue
  flushed : ∀ move junction, .move move junction ∈ state.flushed →
    ∃ own, junction = some own ∧ Profile move own

theorem KeepsProfiles.step (keeps : KeepsProfiles state)
    (driven : operation.Driven) (steps : state.step operation = some after) :
    KeepsProfiles after := by
  cases flushes : operation.flushes state with
  | none =>
    obtain ⟨drivable, same⟩ := keeps.drivable.step_of_none driven steps flushes
    exact ⟨drivable, same ▸ keeps.flushed⟩
  | some flush =>
    obtain ⟨lazy, queue⟩ := flush
    obtain ⟨isQueue, isFlushed⟩ := step_of_flushes steps flushes
    have drivable := keeps.drivable.of_flushes driven flushes
    refine ⟨isQueue ▸ drivable.flush lazy, fun move junction isMove => ?_⟩
    rw [isFlushed, mem_append, mem_append] at isMove
    rcases isMove with (earlier | now) | mark
    · exact keeps.flushed move junction earlier
    · obtain ⟨entry, isEntry, same⟩ := mem_map.mp now
      cases same
      exact (drivable.flushes lazy).profile _ _ isEntry
    · split at mark
      · cases mark
      · cases mem_singleton.mp mark

/-- **Feasible profiles.** In every run with positive speeds, each flushed move
gets one profile, in the flush that removes it. -/
theorem flushed_moves_profiled {state : MoveQueue}
    (reached : Reachable (fun start => start = MoveQueue.init)
      (fun state (operation : { operation : Operation // operation.Driven }) =>
        state.step operation.val) state) : Profiled state := by
  have keeps : KeepsProfiles state := by
    refine reached.induct_invariant (fun state begins _ => ?_)
      (fun state operation after _ _ steps before => before.step operation.property steps)
    subst begins
    exact ⟨drivable_nil, fun _ _ isMove => nomatch isMove⟩
  exact ⟨keeps.flushed, fun operation lazy queue flushes =>
    (keeps.drivable.of_flushes operation.property flushes).flushes lazy⟩

/-- A lazy flush hands over two of four moves, and a fifth is added behind. -/
theorem flushed_moves_profiled_lazyCut :
    ∃ state : MoveQueue, state.flushed.length = 2 ∧ state.queue.length = 3 ∧ Profiled state := by
  let limits : Limits := ⟨100, 1000, 500, by norm_num, by norm_num⟩
  let operations : List { operation : Operation // operation.Driven } :=
    [⟨.addMove ⟨_, .kinematic limits 1 100 (by norm_num)⟩ none,
        driven_init limits true 1 (by norm_num) (by norm_num [limits])⟩,
      ⟨.addMove ⟨_, .kinematic limits 1 100 (by norm_num)⟩ (some ⟨500, by norm_num⟩),
        driven_init limits true 1 (by norm_num) (by norm_num [limits])⟩,
      ⟨.addMove ⟨_, .kinematic limits 2 100 (by norm_num)⟩ (some ⟨200, by norm_num⟩),
        driven_init limits true 2 (by norm_num) (by norm_num [limits])⟩,
      ⟨.addMove ⟨_, .kinematic limits 1 50 (by norm_num)⟩ (some ⟨900, by norm_num⟩),
        driven_init limits true 1 (by norm_num) (by norm_num [limits])⟩, ⟨.flush true, trivial⟩,
      ⟨.addMove ⟨_, .kinematic limits 3 80 (by norm_num)⟩ (some ⟨400, by norm_num⟩),
        driven_init limits true 3 (by norm_num) (by norm_num [limits])⟩]
  obtain ⟨state, reached, flushed, queued⟩ := exists_reachable (· = init)
    (fun state (operation : { operation : Operation // operation.Driven }) => state.step operation.val) init rfl
    operations (fun state => state.flushed.length = 2 ∧ state.queue.length = 3) (by decide +kernel)
  exact ⟨state, flushed, queued, flushed_moves_profiled reached⟩

end MagnetoX.Host.Toolhead
