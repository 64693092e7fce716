import MagnetoX.Host.Toolhead.Plan
import MagnetoX.Library.Run

/-!
Owns the link between `flush` and the velocity plan, and the continuity of the
velocities over whole runs of the look-ahead queue.

The traversal computes the plan of the queue; a lazy flush keeps a settled rest
of the queue. The invariant of a run says which velocity the next flushed move
will start with, whatever is added to the queue before that.
-/

namespace MagnetoX.Host.Toolhead

open Library.Run List

/-! ### The traversal computes the plan -/

def kept (lazy : Bool) : List Move → Option (List Move)
  | [] => if lazy then none else some []
  | move :: rest =>
      match kept lazy rest with
      | some later => some later
      | none =>
          if ¬ Delayed (move :: rest) ∧ IsPeak move rest ∧ peakV2 rest ≠ 0 then some (move :: rest)
          else none

def block (first : Nat) : List Move → List (Nat × ℚ × ℚ)
  | [] => []
  | move :: rest =>
      if Delayed (move :: rest) then
        (first, startV2 (move :: rest), startV2 rest) :: block (first + 1) rest
      else []

def afterBlock : List Move → List Move
  | [] => []
  | move :: rest => if Delayed (move :: rest) then afterBlock rest else move :: rest

def numbered (first : Nat) : List Junction → List (Nat × Junction)
  | [] => []
  | junction :: junctions => (first, junction) :: numbered (first + 1) junctions

theorem block_ne_nil_iff (first : Nat) (queue : List Move) :
    block first queue ≠ [] ↔ Delayed queue := by
  cases queue with
  | nil => exact iff_of_false (fun nonempty => nonempty rfl) id
  | cons move rest =>
    rw [block]
    by_cases delayed : Delayed (move :: rest)
    · simp [delayed]
    · simp [delayed]

theorem length_block_add (first : Nat) (queue : List Move) :
    (block first queue).length + (afterBlock queue).length = queue.length := by
  induction queue generalizing first with
  | nil => rfl
  | cons move rest ih =>
    rw [block, afterBlock]
    by_cases delayed : Delayed (move :: rest)
    · rw [if_pos delayed, if_pos delayed, length_cons, length_cons, ← ih (first + 1)]
      omega
    · rw [if_neg delayed, if_neg delayed, length_nil, Nat.zero_add]

theorem numbered_append (first : Nat) (front back : List Junction) :
    numbered first (front ++ back) =
      numbered first front ++ numbered (first + front.length) back := by
  induction front generalizing first with
  | nil => rfl
  | cons junction front ih =>
    rw [cons_append, numbered, ih, numbered, cons_append,
      length_cons, Nat.add_assoc, Nat.add_comm 1]

theorem length_assign (mcV2 : ℚ) (queue : List Move) :
    (assign mcV2 queue).length = queue.length := by
  induction queue generalizing mcV2 with
  | nil => rfl
  | cons move rest ih =>
    rw [assign]
    split
    · rw [length_cons, ih, length_cons]
    · rw [length_cons, ih, length_cons]

/-- What is propagated to the delayed moves is their part of the plan. -/
theorem assign_eq_propagate (mcV2 : ℚ) (first : Nat) (queue : List Move) :
    ∃ front, assign mcV2 queue = front ++ assign 0 (afterBlock queue) ∧
      propagate mcV2 (block first queue) = numbered first front ∧
      front.length = (block first queue).length := by
  induction queue generalizing mcV2 first with
  | nil => exact ⟨[], rfl, rfl, rfl⟩
  | cons move rest ih =>
    rw [block, afterBlock]
    by_cases delayed : Delayed (move :: rest)
    · obtain ⟨front, assigned, propagated, length⟩ :=
        ih (min mcV2 (startV2 (move :: rest))) (first + 1)
      rw [if_pos delayed, if_pos delayed]
      refine ⟨delayedJunction mcV2 move rest :: front, ?_, ?_, ?_⟩
      · rw [assign, if_pos delayed, assigned, cons_append]
      · rw [propagate, propagated]
        rfl
      · rw [length_cons, length, length_cons]
    · rw [if_neg delayed, if_neg delayed]
      refine ⟨[], ?_, rfl, rfl⟩
      rw [nil_append, assign, if_neg delayed, assign, if_neg delayed]

theorem kept_full (queue : List Move) : kept false queue = some [] := by
  induction queue with
  | nil => rfl
  | cons move queue ih => rw [kept, ih]

variable {queue rest before moves added : List Move} {lazy : Bool} {v2 last : ℚ}
  {move prevMove : Move} {state : MoveQueue} {junctions : List Junction} {limit : Option ℚ}

/-- A lazy flush keeps a settled rest of the queue. -/
theorem kept_lazy (keeps : kept true queue = some rest) :
    (∃ before, queue = before ++ rest) ∧ Settled rest := by
  induction queue with
  | nil => cases keeps
  | cons move queue ih =>
    rw [kept] at keeps
    split at keeps
    · rename_i later found
      cases keeps
      obtain ⟨⟨before, split⟩, settled⟩ := ih found
      exact ⟨⟨move :: before, by rw [split, cons_append]⟩, settled⟩
    · split at keeps
      · rename_i cut
        cases keeps
        exact ⟨⟨[], rfl⟩, cut.1, cut.2.1, anchored_of_peakV2 cut.2.2⟩
      · cases keeps

theorem length_kept_le (keeps : kept lazy queue = some rest) :
    rest.length ≤ (afterBlock queue).length := by
  induction queue with
  | nil =>
    cases lazy with
    | true => cases keeps
    | false =>
      cases keeps
      exact le_rfl
  | cons move queue ih =>
    rw [kept] at keeps
    rw [afterBlock]
    split at keeps
    · rename_i later found
      cases keeps
      have shorter := length_block_add 0 queue
      have inside := ih found
      split
      · exact inside
      · rw [length_cons]
        omega
    · split at keeps
      · rename_i cut
        cases keeps
        rw [if_neg cut.1]
      · cases keeps

def planned (lazy : Bool) (flushCount first : Nat) (queue : List Move) : Pass where
  updateFlushCount := (kept lazy queue).isNone
  flushCount := flushCount - ((kept lazy queue).getD []).length
  delayed := block first queue
  nextEndV2 := startV2 queue
  nextSmoothedV2 := smoothedV2 queue
  peakCruiseV2 := peakV2 queue
  junctions :=
    match kept lazy queue with
    | none => []
    | some rest => numbered (first + (block first queue).length)
        ((assign 0 (afterBlock queue)).take ((afterBlock queue).length - rest.length))

section Visit

variable {lazy : Bool} {flushCount first : Nat} {move : Move}

theorem planned_visit_delayed (delayed : Delayed (move :: rest)) :
    (planned lazy flushCount (first + 1) rest).visit first move =
      planned lazy flushCount first (move :: rest) := by
  have same : kept lazy (move :: rest) = kept lazy rest := by
    rw [kept, if_neg (fun cut => cut.1 delayed)]
    cases kept lazy rest <;> rfl
  refine Eq.trans (if_neg delayed) ?_
  ext1
  · simp only [Pass.delay, planned, same]
  · simp only [Pass.delay, planned, same]
  · simp only [Pass.delay, planned, block, if_pos delayed]
    rfl
  · rfl
  · rfl
  · simp only [Pass.delay, planned, peakV2]
    rw [if_neg (fun peak => peak.1 delayed)]
  · simp only [Pass.delay, planned, same, block, if_pos delayed, afterBlock, length_cons]
    rw [Nat.add_assoc, Nat.add_comm 1]

theorem planned_atPeak_iff :
    (planned lazy flushCount (first + 1) rest).AtPeak move ↔ IsPeak move rest :=
  or_congr Iff.rfl (block_ne_nil_iff (first + 1) rest)

theorem planned_cuts_iff :
    (planned lazy flushCount (first + 1) rest).Cuts move ↔
      IsPeak move rest ∧ kept lazy rest = none ∧ peakV2 rest ≠ 0 :=
  and_congr planned_atPeak_iff (and_congr Option.isNone_iff_eq_none Iff.rfl)

section

variable (notDelayed : ¬ Delayed (move :: rest))
include notDelayed

theorem planned_peakAfter :
    (planned lazy flushCount (first + 1) rest).peakAfter move = peakV2 (move :: rest) := by
  rw [Pass.peakAfter, peakV2]
  by_cases isPeak : IsPeak move rest
  · rw [if_pos (planned_atPeak_iff.mpr isPeak), if_pos ⟨notDelayed, isPeak⟩]
    rfl
  · rw [if_neg (fun atPeak => isPeak (planned_atPeak_iff.mp atPeak)),
      if_neg (fun peak => isPeak peak.2)]
    rfl

theorem planned_ownJunction :
    (planned lazy flushCount (first + 1) rest).ownJunction move = ownJunction move rest := by
  rw [Pass.ownJunction, Pass.cruiseV2, planned_peakAfter notDelayed]
  rfl

theorem planned_junctions {later : List Move} (keeps : kept lazy rest = some later) :
    (first, ownJunction move rest) :: (propagate (peakV2 (move :: rest)) (block (first + 1) rest) ++
          (planned lazy flushCount (first + 1) rest).junctions) =
      numbered first ((assign 0 (move :: rest)).take ((move :: rest).length - later.length)) := by
  obtain ⟨front, assigned, propagated, frontLength⟩ :=
    assign_eq_propagate (peakV2 (move :: rest)) (first + 1) rest
  have inside := length_kept_le keeps
  have total := length_block_add (first + 1) rest
  have count : (move :: rest).length - later.length =
      front.length + ((afterBlock rest).length - later.length) + 1 := by
    rw [length_cons]
    omega
  rw [assign, if_neg notDelayed, assigned, count, take_succ_cons, numbered, propagated,
    take_length_add_append, numbered_append, frontLength]
  simp only [planned, keeps]

/-- The fields that do not depend on where the flush is cut. -/
theorem planned_accelerate {after : Pass}
    (visited : after = (planned lazy flushCount (first + 1) rest).accelerate first move)
    (update : after.updateFlushCount = (planned lazy flushCount first (move :: rest)).updateFlushCount)
    (flushes : after.flushCount = (planned lazy flushCount first (move :: rest)).flushCount)
    (junctions : after.junctions = (planned lazy flushCount first (move :: rest)).junctions) :
    after = planned lazy flushCount first (move :: rest) := by
  subst visited
  ext1
  · exact update
  · exact flushes
  · simp only [planned, block, if_neg notDelayed]
    rfl
  · rfl
  · rfl
  · exact planned_peakAfter notDelayed
  · exact junctions

theorem planned_visit_accelerate (count : flushCount = first + (move :: rest).length) :
    (planned lazy flushCount (first + 1) rest).visit first move =
      planned lazy flushCount first (move :: rest) := by
  refine Eq.trans (if_pos (not_not.mp notDelayed)) ?_
  cases keeps : kept lazy rest with
  | some later =>
    have same : kept lazy (move :: rest) = some later := by rw [kept, keeps]
    have noCut : ¬ (planned lazy flushCount (first + 1) rest).Cuts move := by
      intro cuts
      rw [planned_cuts_iff, keeps] at cuts
      cases cuts.2.1
    have inside := length_kept_le keeps
    have total := length_block_add first rest
    have before : first < flushCount - later.length := by
      rw [count, length_cons]
      omega
    refine planned_accelerate notDelayed rfl ?_ ?_ ?_
    · refine (if_neg noCut).trans ?_
      simp only [planned, keeps, same]
    · refine (if_neg noCut).trans ?_
      simp only [planned, keeps, same]
    · have flushes : (planned lazy flushCount (first + 1) rest).updateFlushCount = false ∧
          first < (planned lazy flushCount (first + 1) rest).flushCount := by
        simp only [planned, keeps, Option.isNone_some, Option.getD_some, true_and]
        exact before
      simp only [Pass.accelerate, if_neg noCut]
      rw [if_pos flushes, planned_ownJunction notDelayed, planned_peakAfter notDelayed]
      refine (planned_junctions notDelayed keeps).trans ?_
      simp only [planned, same, afterBlock, if_neg notDelayed, block, length_nil, Nat.add_zero]
  | none =>
    by_cases cut : IsPeak move rest ∧ peakV2 rest ≠ 0
    · have same : kept lazy (move :: rest) = some (move :: rest) := by
        rw [kept, keeps]
        exact if_pos ⟨notDelayed, cut⟩
      have cuts : (planned lazy flushCount (first + 1) rest).Cuts move :=
        planned_cuts_iff.mpr ⟨cut.1, keeps, cut.2⟩
      refine planned_accelerate notDelayed rfl ?_ ?_ ?_
      · refine (if_pos cuts).trans ?_
        simp only [planned, same, Option.isNone_some]
      · refine (if_pos cuts).trans ?_
        simp only [planned, same, Option.getD_some]
        omega
      · simp only [Pass.accelerate, if_pos cuts, lt_irrefl, and_false, if_false]
        simp only [planned, keeps, same, afterBlock, if_neg notDelayed, Nat.sub_self,
          take_zero, numbered]
    · have same : kept lazy (move :: rest) = none := by
        rw [kept, keeps]
        exact if_neg (fun isCut => cut isCut.2)
      have noCut : ¬ (planned lazy flushCount (first + 1) rest).Cuts move := by
        intro cuts
        rw [planned_cuts_iff] at cuts
        exact cut ⟨cuts.1, cuts.2.2⟩
      refine planned_accelerate notDelayed rfl ?_ ?_ ?_
      · refine (if_neg noCut).trans ?_
        simp only [planned, keeps, same]
      · refine (if_neg noCut).trans ?_
        simp only [planned, keeps, same]
      · simp only [Pass.accelerate, if_neg noCut]
        rw [if_neg (by simp [planned, keeps])]
        simp only [planned, keeps, same]

end

end Visit

/-- **The traversal computes the plan.** -/
theorem traverse_eq (lazy : Bool) (queue : List Move) (flushCount first : Nat)
    (count : flushCount = first + queue.length) :
    traverse lazy flushCount first queue = planned lazy flushCount first queue := by
  induction queue generalizing first with
  | nil => cases lazy <;> rfl
  | cons move rest ih =>
    rw [traverse, ih (first + 1) (by rw [count, length_cons]; omega)]
    by_cases delayed : Delayed (move :: rest)
    · exact planned_visit_delayed delayed
    · exact planned_visit_accelerate delayed count

/-! ### What a flush hands over -/

theorem lookup_numbered (first : Nat) (junctions : List Junction) (i : Nat) :
    (numbered first junctions).lookup (first + i) = junctions[i]? := by
  induction junctions generalizing first i with
  | nil => rfl
  | cons junction junctions ih =>
    rw [numbered, lookup_cons]
    cases i with
    | zero => simp
    | succ i =>
      have apart : (first + (i + 1) == first) = false := by
        rw [beq_eq_false_iff_ne]
        omega
      rw [apart, getElem?_cons_succ, ← ih (first + 1), Nat.add_assoc, Nat.add_comm 1]

theorem map_lookup_numbered (lengths : moves.length = junctions.length) :
    moves.zipIdx.map (fun (move, i) => (move, (numbered 0 junctions).lookup i)) =
      (moves.zip junctions).map (fun (move, junction) => (move, some junction)) := by
  apply ext_getElem
  · simp [lengths]
  · intro i inside _
    have small : i < junctions.length := by simpa [lengths] using inside
    have found := lookup_numbered 0 junctions i
    rw [Nat.zero_add, getElem?_eq_getElem small] at found
    simp [found]

theorem flushQueue_none (keeps : kept lazy queue = none) : flushQueue lazy queue = ([], queue) := by
  rw [flushQueue, traverse_eq lazy queue _ 0 (Nat.zero_add _).symm]
  simp [planned, keeps]

theorem traverse_junctions (keeps : kept lazy queue = some rest)
    (split : queue = before ++ rest) (notDelayed : ¬ Delayed queue) :
    (traverse lazy queue.length 0 queue).junctions = numbered 0 ((assign 0 queue).take before.length) := by
  have noBlock : block 0 queue = [] := by
    by_contra nonempty
    exact notDelayed ((block_ne_nil_iff 0 queue).mp nonempty)
  have whole : afterBlock queue = queue := by
    cases queue with
    | nil => rfl
    | cons move queue => rw [afterBlock, if_neg notDelayed]
  have count : queue.length - rest.length = before.length := by
    rw [split, length_append, Nat.add_sub_cancel]
  rw [traverse_eq lazy queue _ 0 (Nat.zero_add _).symm]
  simp only [planned, keeps, noBlock, whole, count, length_nil, Nat.add_zero]

/-- The moves in front of the kept ones are handed over with their junctions of
the plan. -/
theorem flushQueue_some (keeps : kept lazy queue = some rest)
    (split : queue = before ++ rest) (notDelayed : ¬ Delayed queue) :
    flushQueue lazy queue =
      ((before.zip ((assign 0 queue).take before.length)).map (fun (move, junction) =>
        (move, some junction)), rest) := by
  have count : queue.length - rest.length = before.length := by
    rw [split, length_append, Nat.add_sub_cancel]
  have pass := traverse_eq lazy queue _ 0 (Nat.zero_add _).symm
  have junctions := traverse_junctions keeps split notDelayed
  rw [pass] at junctions
  have flushes : (planned lazy queue.length 0 queue).flushCount = before.length := by
    simp only [planned, keeps, Option.getD_some, count]
  have updated : (planned lazy queue.length 0 queue).updateFlushCount = false := by
    simp only [planned, keeps, Option.isNone_some]
  rw [flushQueue, pass]
  simp only [flushes, updated, junctions, Bool.false_or, beq_iff_eq]
  by_cases empty : before = []
  · subst empty
    rw [split]
    rfl
  · rw [if_neg (fun zero => empty (eq_nil_of_length_eq_zero zero))]
    have taken : queue.take before.length = before := by rw [split, take_left]
    have dropped : queue.drop before.length = rest := by rw [split, drop_left]
    rw [taken, dropped]
    rw [map_lookup_numbered]
    rw [length_take, length_assign, split, length_append]
    omega

/-! ### Velocities over time -/

/-- The flushed moves lead from velocity to velocity without a jump, and stand
still at the end of every full flush. -/
def Smooth : ℚ → List Entry → ℚ → Prop
  | v2, [], last => v2 = last
  | v2, .move _ junction :: entries, last =>
      ∃ own ∈ junction, own.startV2 = v2 ∧ Smooth own.endV2 entries last
  | v2, .fullFlush :: entries, last => v2 = 0 ∧ Smooth 0 entries last

theorem Smooth.append {middle : ℚ} {front back : List Entry}
    (smooth : Smooth v2 front middle) (smoothBack : Smooth middle back last) :
    Smooth v2 (front ++ back) last := by
  induction front generalizing v2 with
  | nil =>
    cases smooth
    exact smoothBack
  | cons entry front ih =>
    cases entry with
    | move move junction =>
      obtain ⟨own, isOwn, start, later⟩ := smooth
      exact ⟨own, isOwn, start, ih later⟩
    | fullFlush => exact ⟨smooth.1, ih smooth.2⟩

theorem Continuous.smooth
    (continuous : Continuous v2 junctions last) (lengths : moves.length = junctions.length) :
    Smooth v2 (((moves.zip junctions).map (fun (move, junction) => (move, some junction))).map
      (fun (move, junction) => Entry.move move junction)) last := by
  induction moves generalizing v2 junctions with
  | nil =>
    rw [eq_nil_of_length_eq_zero lengths.symm] at continuous
    exact continuous
  | cons move moves ih =>
    obtain ⟨junction, junctions, rfl⟩ := exists_cons_of_length_eq_add_one lengths.symm
    exact ⟨junction, rfl, continuous.1, ih continuous.2 (by simpa using lengths)⟩

/-- The velocity `v2` that the front of the queue will start with is decided:
the machine stands still, or the front is settled. -/
def Ready (v2 : ℚ) : List Move → Prop
  | [] => v2 = 0
  | move :: rest =>
      (move.maxStartV2 = 0 ∧ move.maxSmoothedV2 = 0 ∧ v2 = 0) ∨
        (Settled (move :: rest) ∧ entryV2 0 (move :: rest) = v2)

theorem Ready.spec (ready : Ready v2 queue) (linked : Linked queue) :
    ¬ Delayed queue ∧ entryV2 0 queue = v2 := by
  cases queue with
  | nil =>
    cases ready
    exact ⟨id, rfl⟩
  | cons move rest =>
    rcases ready with ⟨start, smoothed, rfl⟩ | ⟨settled, entry⟩
    · have smoothedRest := smoothedV2_nonneg linked.tail
      have startRest := startV2_nonneg linked.tail
      have sound := linked.1
      have positive := sound.smooth_pos
      have delta := sound.smooth_le
      have zeroSmoothed : smoothedV2 (move :: rest) = 0 := by
        rw [smoothedV2, smoothed, min_eq_left (by linarith)]
      have zeroStart : startV2 (move :: rest) = 0 := by
        rw [startV2, start, min_eq_left (by linarith)]
      have notDelayed : ¬ Delayed (move :: rest) := by
        rw [Delayed, zeroSmoothed, not_not]
        linarith
      have peak := smoothedV2_le_peakV2 linked notDelayed
      rw [zeroSmoothed] at peak
      refine ⟨notDelayed, ?_⟩
      rw [entryV2, if_neg notDelayed, zeroStart, min_eq_left peak]
    · exact ⟨settled.1, entry⟩

theorem Ready.append (ready : Ready v2 queue) (nonempty : queue ≠ [])
    (linked : Linked queue) (linkedAll : Linked (queue ++ added)) : Ready v2 (queue ++ added) := by
  cases queue with
  | nil => exact absurd rfl nonempty
  | cons move rest =>
    rcases ready with fresh | ⟨settled, entry⟩
    · exact .inl fresh
    · obtain ⟨stays, same⟩ := settled.append linkedAll linked
      exact .inr ⟨stays, same.trans entry⟩

/-! ### Moves that reach the queue -/

structure Fresh (move : Move) : Prop where
  length_pos : 0 < move.moveD
  accel_pos : 0 < move.accel
  delta_eq : move.deltaV2 = 2 * move.moveD * move.accel
  smooth_pos : 0 < move.smoothDeltaV2
  smooth_le : move.smoothDeltaV2 ≤ move.deltaV2
  cruise_nonneg : 0 ≤ move.maxCruiseV2
  start : move.maxStartV2 = 0
  smoothed : move.maxSmoothedV2 = 0

/-- After `limit_speed` the smoothed profile is below the real one, whatever it
was before. -/
theorem fresh_limitSpeed (length : 0 < move.moveD) (acceleration : 0 < move.accel)
    (smooth : 0 < move.smoothDeltaV2) (cruise : 0 ≤ move.maxCruiseV2)
    (start : move.maxStartV2 = 0) (smoothed : move.maxSmoothedV2 = 0) (speed : ℚ) {accel : ℚ}
    (positive : 0 < accel) : Fresh (move.limitSpeed speed accel) := by
  have least : 0 < min move.accel accel := lt_min acceleration positive
  refine ⟨length, least, rfl, lt_min smooth (by positivity), min_le_right _ _, ?_, start, smoothed⟩
  simp only [Move.limitSpeed]
  split
  · positivity
  · exact cruise

theorem Checked.fresh (checked : Checked move) : Fresh move := by
  induction checked with
  | kinematic limits moveD speed positive =>
    have decel := limits.positive
    have accel := decel.trans_le limits.atMost
    refine ⟨positive, accel, rfl, ?_, ?_, sq_nonneg _, rfl, rfl⟩
    · exact mul_pos (by linarith) decel
    · exact mul_le_mul_of_nonneg_left limits.atMost (by linarith)
  | extrudeOnly limits moveD speed speedLimit accelLimit positive accelPositive =>
    have decel := limits.positive
    refine fresh_limitSpeed positive ?_ ?_ (sq_nonneg _) rfl rfl speedLimit accelPositive
    · norm_num [Move.init]
    · exact mul_pos (by linarith) decel
  | limitSpeed _ speed accel positive ih =>
    exact fresh_limitSpeed ih.length_pos ih.accel_pos ih.smooth_pos ih.cruise_nonneg ih.start
      ih.smoothed speed positive

theorem Fresh.sound (fresh : Fresh move) : Sound move :=
  ⟨fresh.smooth_pos, fresh.smooth_le, fresh.start.trans_le fresh.cruise_nonneg,
    (fresh.smoothed.trans fresh.start.symm).le, fresh.smoothed.ge⟩

theorem Fresh.calcJunction (fresh : Fresh move) (sound : Sound prevMove)
    (nonneg : ∀ v2 ∈ limit, 0 ≤ v2) :
    Sound (move.calcJunction limit prevMove) ∧
      Follows prevMove (move.calcJunction limit prevMove) := by
  have smoothPrev := sound.smoothed_nonneg
  have startPrev := smoothPrev.trans sound.smoothed_le
  have cruisePrev := startPrev.trans sound.start_le
  have smoothPos := sound.smooth_pos
  have delta := sound.smooth_le
  cases limit with
  | none =>
    refine ⟨fresh.sound, ⟨fresh.start.trans_le cruisePrev, fresh.start.trans_le (by linarith), ?_⟩⟩
    change move.maxSmoothedV2 = min move.maxStartV2 _
    rw [fresh.start, fresh.smoothed, min_eq_left (by linarith)]
  | some limit =>
    have limitNonneg := nonneg limit rfl
    have start : 0 ≤ min limit (min move.maxCruiseV2 (min prevMove.maxCruiseV2
        (prevMove.maxStartV2 + prevMove.deltaV2))) :=
      le_min limitNonneg (le_min fresh.cruise_nonneg (le_min cruisePrev (by linarith)))
    constructor
    · exact ⟨fresh.smooth_pos, fresh.smooth_le, (min_le_right _ _).trans (min_le_left _ _),
        min_le_left _ _, le_min start (by linarith)⟩
    · refine ⟨?_, ?_, rfl⟩
      · exact (min_le_right _ _).trans ((min_le_right _ _).trans (min_le_left _ _))
      · exact (min_le_right _ _).trans ((min_le_right _ _).trans (min_le_right _ _))

theorem Linked.append_singleton (linked : Linked queue)
    (last : queue.getLast? = some prevMove) (sound : Sound move) (follows : Follows prevMove move) :
    Linked (queue ++ [move]) := by
  induction queue with
  | nil => cases last
  | cons head queue ih =>
    cases queue with
    | nil =>
      cases last
      refine ⟨linked.1, ?_, sound, ?_, trivial⟩
      · rintro next ⟨⟩
        exact follows
      · rintro next ⟨⟩
    | cons second queue =>
      exact ⟨linked.1, linked.2.1, ih linked.tail last⟩

theorem Linked.sound_getLast (linked : Linked queue) (last : queue.getLast? = some move) :
    Sound move := by
  induction queue with
  | nil => cases last
  | cons head queue ih =>
    cases queue with
    | nil =>
      cases last
      exact linked.1
    | cons second queue =>
      exact ih linked.tail last

/-! ### Runs -/

/-- The invariant of a run: what was flushed is smooth, and ends with the
velocity that the front of the queue is ready for. -/
structure Consistent (state : MoveQueue) (v2 : ℚ) : Prop where
  linked : Linked state.queue
  ready : Ready v2 state.queue
  smooth : Smooth 0 state.flushed v2

/-- A flush leaves the queue as it is, or hands over its front with the junctions
of the plan, and the velocity behind the front is decided. -/
theorem flushQueue_cases (ready : Ready v2 queue) (linked : Linked queue) (lazy : Bool) :
    (lazy = true ∧ flushQueue lazy queue = ([], queue)) ∨
      ∃ before rest, queue = before ++ rest ∧ flushQueue lazy queue =
        ((before.zip ((assign 0 queue).take before.length)).map (fun (move, junction) =>
          (move, some junction)), rest) ∧
        ¬ Delayed rest ∧ Ready (entryV2 0 rest) rest ∧ (lazy = false → rest = []) := by
  have front := (ready.spec linked).1
  cases lazy with
  | false =>
    have split := (append_nil queue).symm
    exact .inr ⟨queue, [], split, flushQueue_some (kept_full queue) split front, id, rfl, fun _ => rfl⟩
  | true =>
    cases keeps : kept true queue with
    | none => exact .inl ⟨rfl, flushQueue_none keeps⟩
    | some rest =>
      obtain ⟨⟨before, split⟩, settled⟩ := kept_lazy keeps
      obtain ⟨move, others, rfl⟩ : ∃ move others, rest = move :: others :=
        exists_cons_of_ne_nil (fun empty => by rw [empty] at settled; exact settled)
      exact .inr ⟨before, move :: others, split, flushQueue_some keeps split front, settled.1,
        .inr ⟨settled, rfl⟩, nofun⟩

theorem Consistent.flush (consistent : Consistent state v2) (lazy : Bool) :
    ∃ after, Consistent (state.flush lazy) after := by
  rcases flushQueue_cases consistent.ready consistent.linked lazy with
    ⟨rfl, same⟩ | ⟨before, rest, split, flushes, notDelayed, ready, full⟩
  · refine ⟨v2, ?_, ?_, ?_⟩
    · rw [MoveQueue.flush, same]
      exact consistent.linked
    · rw [MoveQueue.flush, same]
      exact consistent.ready
    · simpa [MoveQueue.flush, same] using consistent.smooth
  · obtain ⟨front, entry⟩ := consistent.ready.spec consistent.linked
    have continuous := assign_continuous 0 consistent.linked split
      (fun delayed => absurd delayed front) notDelayed
    rw [entry] at continuous
    have lengths : before.length = ((assign 0 state.queue).take before.length).length := by
      rw [length_take, length_assign, split, length_append]
      omega
    have smooth := consistent.smooth.append (continuous.smooth lengths)
    refine ⟨entryV2 0 rest, ?_, ?_, ?_⟩
    · rw [MoveQueue.flush, flushes]
      exact (split ▸ consistent.linked).drop
    · rw [MoveQueue.flush, flushes]
      exact ready
    · rw [MoveQueue.flush, flushes]
      cases lazy with
      | true => simpa using smooth
      | false =>
        cases full rfl
        exact smooth.append ⟨rfl, rfl⟩

theorem Consistent.addMove (consistent : Consistent state v2) (fresh : Fresh move)
    (nonneg : ∀ v2 ∈ limit, 0 ≤ v2) :
    ∃ after, Consistent (state.addMove move limit) after := by
  unfold MoveQueue.addMove
  cases last : state.queue.getLast? with
  | none =>
    have empty := getLast?_eq_none_iff.mp last
    have still := consistent.ready
    rw [empty] at still
    refine ⟨v2, ⟨fresh.sound, ?_, trivial⟩, .inl ⟨fresh.start, fresh.smoothed, still⟩,
      consistent.smooth⟩
    rintro next ⟨⟩
  | some prevMove =>
    have nonempty : state.queue ≠ [] := by
      intro empty
      rw [empty] at last
      cases last
    obtain ⟨sound, follows⟩ := fresh.calcJunction (consistent.linked.sound_getLast last) nonneg
    have linked := consistent.linked.append_singleton last sound follows
    have added : Consistent { state with
          queue := state.queue ++ [move.calcJunction limit prevMove]
          junctionFlush := state.junctionFlush - move.minMoveT } v2 :=
      ⟨linked, consistent.ready.append nonempty consistent.linked linked, consistent.smooth⟩
    simp only
    split
    · exact added.flush true
    · exact ⟨v2, added⟩

theorem consistent_of_reachable
    (reached : Reachable (fun start => start = MoveQueue.init) MoveQueue.step state) :
    ∃ v2, Consistent state v2 := by
  induction reached with
  | initial begins =>
    rw [begins]
    exact ⟨0, trivial, rfl, rfl⟩
  | @next state after operation _ moves _ ih =>
    obtain ⟨v2, consistent⟩ := ih
    cases operation with
    | addMove move limit =>
      cases moves
      refine consistent.addMove move.property.fresh ?_
      intro v2 isLimit
      obtain ⟨bounded, -, rfl⟩ := Option.map_eq_some_iff.mp isLimit
      exact bounded.property
    | flush lazy =>
      cases moves
      exact consistent.flush lazy
    | setFlushTime flushTime =>
      cases moves
      exact ⟨v2, consistent.linked, consistent.ready, consistent.smooth⟩

/-- What a run owes the printer. Every flushed move has its velocities, two
moves in a row agree on the velocity between them, and the machine stands still
at its start and on both sides of a full flush. -/
structure VelocityContinuous (flushed : List Entry) : Prop where
  planned : ∀ move junction, .move move junction ∈ flushed → junction.isSome
  consecutive : ∀ before after move next own following, flushed =
    before ++ .move move (some own) :: .move next (some following) :: after →
      own.endV2 = following.startV2
  start : ∀ after move own, flushed = .move move (some own) :: after → own.startV2 = 0
  afterFlush : ∀ before after move own,
    flushed = before ++ .fullFlush :: .move move (some own) :: after → own.startV2 = 0
  beforeFlush : ∀ before after move own,
    flushed = before ++ .move move (some own) :: .fullFlush :: after → own.endV2 = 0

theorem Smooth.split {front back : List Entry}
    (smooth : Smooth v2 (front ++ back) last) : ∃ middle, Smooth middle back last := by
  induction front generalizing v2 with
  | nil => exact ⟨v2, smooth⟩
  | cons entry front ih =>
    cases entry with
    | move move junction =>
      obtain ⟨own, -, -, later⟩ := smooth
      exact ih later
    | fullFlush => exact ih smooth.2

theorem Smooth.velocityContinuous {flushed : List Entry}
    (smooth : Smooth 0 flushed last) : VelocityContinuous flushed := by
  refine ⟨?_, ?_, ?_, ?_, ?_⟩
  · intro move junction member
    obtain ⟨before, after, rfl⟩ := append_of_mem member
    obtain ⟨v2, own, isOwn, -⟩ := smooth.split
    exact Option.isSome_of_mem isOwn
  · rintro before after move next own following rfl
    obtain ⟨v2, _, ⟨⟩, -, _, ⟨⟩, start, -⟩ := smooth.split
    exact start.symm
  · rintro after move own rfl
    obtain ⟨_, ⟨⟩, start, -⟩ := smooth
    exact start
  · rintro before after move own rfl
    obtain ⟨v2, -, _, ⟨⟩, start, -⟩ := smooth.split
    exact start
  · rintro before after move own rfl
    obtain ⟨v2, _, ⟨⟩, -, still, -⟩ := smooth.split
    exact still

/-- **Look-ahead continuity.** In every run of the look-ahead queue, with moves
of any kind, any junction limits and any mixture of lazy and full flushes, the
flushed velocities are continuous. -/
theorem lookahead_continuous {state : MoveQueue}
    (reached : Reachable (fun start => start = MoveQueue.init) MoveQueue.step state) :
    VelocityContinuous state.flushed := by
  obtain ⟨v2, consistent⟩ := consistent_of_reachable reached
  exact consistent.smooth.velocityContinuous

def Entry.ends : Entry → Option (ℚ × ℚ)
  | .move _ junction => junction.map (fun own => (own.startV2, own.endV2))
  | .fullFlush => none

/-- Five moves; a lazy flush cuts the queue after the second. -/
theorem lookahead_continuous_lazyCut :
    ∃ state : MoveQueue, state.flushed.map Entry.ends =
        [some (0, 500), some (500, 200), some (200, 900), some (900, 400), some (400, 0), none] ∧
      VelocityContinuous state.flushed := by
  let limits : Limits := ⟨100, 1000, 500, by norm_num, by norm_num⟩
  let operations : List Operation :=
    [.addMove ⟨_, .kinematic limits 1 100 (by norm_num)⟩ none,
      .addMove ⟨_, .kinematic limits 1 100 (by norm_num)⟩ (some ⟨500, by norm_num⟩),
      .addMove ⟨_, .kinematic limits 2 100 (by norm_num)⟩ (some ⟨200, by norm_num⟩),
      .addMove ⟨_, .kinematic limits 1 50 (by norm_num)⟩ (some ⟨900, by norm_num⟩), .flush true,
      .addMove ⟨_, .kinematic limits 3 80 (by norm_num)⟩ (some ⟨400, by norm_num⟩), .flush false]
  have result : (run MoveQueue.step (fun _ => True) MoveQueue.init operations).map
      (fun state => state.flushed.map Entry.ends) =
      some [some (0, 500), some (500, 200), some (200, 900), some (900, 400), some (400, 0),
        none] := by
    decide +kernel
  obtain ⟨state, executes, ends⟩ := Option.map_eq_some_iff.mp result
  exact ⟨state, ends, lookahead_continuous (.of_run (fun inside => .initial rfl inside) executes)⟩

end MagnetoX.Host.Toolhead
