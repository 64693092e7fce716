import MagnetoX.Host.Toolhead.Feasible

/-!
Owns the order of the toolhead's times: in every run the print time and the time
up to which steps are generated never run backwards, and no move is appended
closer to the generated steps than the kinematic flush delay.
-/

namespace MagnetoX.Host.Toolhead

open Library.Run Library.StateProgram List

variable {th : ToolHead} {nextPrintTime start : ℚ}

/-! ### What the order asks for -/

def Event.Before : Event → Event → Prop
  | .printTime earlier, .printTime later => earlier ≤ later
  | .generateSteps earlier, .generateSteps later => earlier ≤ later
  | .generateSteps flushTime, .trapqAppend start kinFlushDelay => flushTime + kinFlushDelay ≤ start
  | _, _ => True

/-- The times so far are in order, and steps have been generated up to the forced
flush time, or the flush delay before the print time. -/
structure Ordered (th : ToolHead) : Prop where
  ordered : th.history.Pairwise Event.Before
  printed : ∀ time, .printTime time ∈ th.history → time ≤ th.printTime
  generated : ∀ time, .generateSteps time ∈ th.history →
    time ≤ max th.forceFlushTime (th.printTime - th.kinFlushDelay)
  delay_nonneg : 0 ≤ th.kinFlushDelay
  planned : Planned th.moveQueue.queue

def ToolHead.Clear (th : ToolHead) : Prop := th.forceFlushTime + th.kinFlushDelay ≤ th.printTime

structure Timed (th : ToolHead) : Prop extends Ordered th where
  room : th.specialQueuingState = .main → th.Clear

namespace Ordered

theorem before_printTime (ordered : Ordered th) {time : ℚ} (later : th.printTime ≤ time) :
    ∀ event ∈ th.history, event.Before (.printTime time) := by
  intro event happened
  cases event with
  | printTime earlier => exact (ordered.printed earlier happened).trans later
  | _ => trivial

theorem before_generateSteps (ordered : Ordered th) {time : ℚ}
    (later : max th.forceFlushTime (th.printTime - th.kinFlushDelay) ≤ time) :
    ∀ event ∈ th.history, event.Before (.generateSteps time) := by
  intro event happened
  cases event with
  | generateSteps earlier => exact (ordered.generated earlier happened).trans later
  | _ => trivial

theorem before_trapqAppend (ordered : Ordered th)
    (clear : th.Clear) (later : th.printTime ≤ start) :
    ∀ event ∈ th.history, event.Before (.trapqAppend start th.kinFlushDelay) := by
  intro event happened
  cases event with
  | generateSteps earlier =>
    have bounded := ordered.generated earlier happened
    unfold ToolHead.Clear at clear
    rw [max_eq_right (by linarith)] at bounded
    change earlier + th.kinFlushDelay ≤ start
    linarith
  | _ => trivial

end Ordered

/-! ### Print time -/

open ToolHead

theorem updatePass_ordered (ordered : Ordered th) (later : th.printTime ≤ nextPrintTime) :
    Ordered (th.updatePass nextPrintTime) := by
  have forward : th.printTime ≤ min (th.printTime + MOVE_BATCH_TIME) nextPrintTime :=
    le_min (by norm_num [MOVE_BATCH_TIME]) later
  have flushed : max th.forceFlushTime (th.printTime - th.kinFlushDelay) ≤
      max th.forceFlushTime (min (th.printTime + MOVE_BATCH_TIME) nextPrintTime - th.kinFlushDelay) :=
    max_le_max_left _ (sub_le_sub_right forward _)
  constructor
  · refine pairwise_append.mpr ⟨ordered.ordered, by simp [Event.Before], ?_⟩
    intro event happened next isNext
    simp only [mem_cons, not_mem_nil, or_false] at isNext
    rcases isNext with rfl | rfl | rfl | rfl
    · exact ordered.before_printTime forward event happened
    · exact ordered.before_generateSteps flushed event happened
    · cases event <;> trivial
    · cases event <;> trivial
  · intro time happened
    simp only [updatePass, append, mem_append, mem_cons, Event.printTime.injEq,
      reduceCtorEq, not_mem_nil, or_false] at happened
    rcases happened with before | rfl
    · exact (ordered.printed time before).trans forward
    · exact le_rfl
  · intro time happened
    simp only [updatePass, append, mem_append, mem_cons, Event.generateSteps.injEq,
      reduceCtorEq, not_mem_nil, or_false, false_or] at happened
    rcases happened with before | rfl
    · exact (ordered.generated time before).trans flushed
    · exact le_rfl
  · exact ordered.delay_nonneg
  · exact ordered.planned

def ToolHead.advance (th : ToolHead) (printTime : ℚ) (events : List Event) : ToolHead :=
  { th with printTime }.append events

section

variable (ordered : Ordered th) (later : th.printTime ≤ nextPrintTime)
include ordered later

theorem updateLoop_spec {fuel : Nat}
    (enough : nextPrintTime - th.printTime ≤ (fuel + 1) * MOVE_BATCH_TIME) :
    Ordered (updateLoop nextPrintTime fuel th) ∧
      ∃ events, updateLoop nextPrintTime fuel th = th.advance nextPrintTime events := by
  induction fuel generalizing th with
  | zero =>
    have reached : min (th.printTime + MOVE_BATCH_TIME) nextPrintTime = nextPrintTime :=
      min_eq_right (by push_cast at enough; linarith)
    refine ⟨updatePass_ordered ordered later, ?_⟩
    simp only [updateLoop, updatePass, reached]
    exact ⟨_, rfl⟩
  | succ fuel ih =>
    have passed := updatePass_ordered ordered later
    simp only [updateLoop]
    split
    · rename_i reached
      have reached : min (th.printTime + MOVE_BATCH_TIME) nextPrintTime = nextPrintTime :=
        le_antisymm (min_le_right _ _) reached
      refine ⟨passed, ?_⟩
      simp only [updatePass, reached]
      exact ⟨_, rfl⟩
    · rename_i short
      rw [not_le] at short
      have advanced : (th.updatePass nextPrintTime).printTime = th.printTime + MOVE_BATCH_TIME := by
        rcases min_lt_iff.mp short with batch | whole
        · exact min_eq_left batch.le
        · exact absurd whole (lt_irrefl _)
      obtain ⟨ordered, events, result⟩ := ih passed short.le (by
        rw [advanced]
        push_cast at enough
        linarith)
      refine ⟨ordered, ?_⟩
      rw [result]
      simp only [updatePass, advance, append, append_assoc]
      exact ⟨_, rfl⟩

theorem updateMoveTime_spec :
    Ordered (th.updateMoveTime nextPrintTime) ∧
      ∃ events, th.updateMoveTime nextPrintTime = th.advance nextPrintTime events := by
  refine updateLoop_spec ordered later ?_
  have covered := Int.le_ceil ((nextPrintTime - th.printTime) / MOVE_BATCH_TIME)
  have counted : (⌈(nextPrintTime - th.printTime) / MOVE_BATCH_TIME⌉ : ℚ) ≤
      (⌈(nextPrintTime - th.printTime) / MOVE_BATCH_TIME⌉.toNat : ℚ) := by
    exact_mod_cast Int.self_le_toNat _
  have batch : (0 : ℚ) < MOVE_BATCH_TIME := by norm_num [MOVE_BATCH_TIME]
  rw [← div_le_iff₀ batch]
  linarith

theorem updateMoveTime_printTime :
    (th.updateMoveTime nextPrintTime).printTime = nextPrintTime := by
  obtain ⟨-, events, result⟩ := updateMoveTime_spec ordered later
  rw [result]
  rfl

end

theorem Timed.updateMoveTime (timed : Timed th) (later : th.printTime ≤ nextPrintTime) :
    Timed (th.updateMoveTime nextPrintTime) := by
  obtain ⟨ordered, events, result⟩ := updateMoveTime_spec timed.toOrdered later
  refine ⟨ordered, ?_⟩
  rw [result]
  exact fun isMain => (timed.room isMain).trans later

theorem syncPrintTime_spec (ordered : Ordered th) (estPrintTime : ℚ) :
    Ordered (th.syncPrintTime estPrintTime) ∧ (th.syncPrintTime estPrintTime).Clear := by
  have least : th.forceFlushTime + th.kinFlushDelay ≤ max (estPrintTime + th.config.bufferTimeStart)
        (max (estPrintTime + MIN_KIN_TIME) th.forceFlushTime + th.kinFlushDelay) :=
    le_max_of_le_right (add_le_add_left (le_max_right _ _) _)
  simp only [syncPrintTime]
  split
  · rename_i behind
    refine ⟨⟨?_, ?_, ?_, ordered.delay_nonneg, ordered.planned⟩, least⟩
    · refine pairwise_append.mpr ⟨ordered.ordered, pairwise_singleton _ _, ?_⟩
      intro event happened next isNext
      rw [mem_singleton.mp isNext]
      exact ordered.before_printTime behind.le event happened
    · intro time happened
      simp only [append, mem_append, mem_singleton, Event.printTime.injEq] at happened
      rcases happened with before | rfl
      · exact (ordered.printed time before).trans behind.le
      · exact le_rfl
    · intro time happened
      simp only [append, mem_append, mem_singleton, reduceCtorEq, or_false] at happened
      exact (ordered.generated time happened).trans (max_le_max_left _ (sub_le_sub_right behind.le _))
  · rename_i ahead
    exact ⟨ordered, least.trans (not_lt.mp ahead)⟩

/-- A forced flush covers all generated steps with the forced flush time. -/
theorem forceFlush_spec (ordered : Ordered th) :
    Ordered th.forceFlush ∧ th.forceFlush.specialQueuingState = th.specialQueuingState ∧
      th.forceFlush.printTime - th.forceFlush.kinFlushDelay ≤ th.forceFlush.forceFlushTime := by
  unfold forceFlush
  extract_lets lastf flushTime chunked forced
  have nonneg := ordered.delay_nonneg
  have flushed : th.printTime - th.kinFlushDelay ≤ flushTime := le_max_left _ _
  obtain ⟨chunks, printTime, events, isChunked, reached⟩ : Ordered chunked ∧ ∃ printTime events,
      chunked = th.advance printTime events ∧ printTime - th.kinFlushDelay ≤ flushTime := by
    by_cases behind : th.printTime < flushTime
    · obtain ⟨chunks, events, result⟩ := updateMoveTime_spec ordered behind.le
      simp only [chunked, if_pos behind]
      exact ⟨chunks, _, _, result, by linarith⟩
    · simp only [chunked, if_neg behind]
      refine ⟨ordered, th.printTime, [], ?_, flushed⟩
      simp only [advance, append, append_nil]
  have raised : Ordered forced := { chunks with
      generated := fun time happened =>
        (chunks.generated time happened).trans (max_le_max_right _ (le_max_left _ _)) }
  obtain ⟨done, events, result⟩ := updateMoveTime_spec raised (le_max_left _ forced.forceFlushTime)
  refine ⟨done, ?_⟩
  rw [result]
  simp only [forced, isChunked, advance, append, true_and]
  rw [sub_le_iff_le_add]
  have later := le_max_right th.forceFlushTime flushTime
  exact max_le (by linarith) (by linarith)

/-! ### Moves -/

/-- Moves that take no negative time are appended in order, from the given time on. -/
theorem queueMoves_spec {moves : List Portions} (forward : ∀ move ∈ moves, move.Forward)
    (delay start : ℚ) :
    start ≤ (queueMoves delay start moves).1 ∧ ∀ event ∈ (queueMoves delay start moves).2,
        ∃ time, start ≤ time ∧ event = .trapqAppend time delay := by
  induction moves generalizing start with
  | nil => exact ⟨le_rfl, nofun⟩
  | cons move moves ih =>
    obtain ⟨accel, cruise, decel⟩ := forward move (.head _)
    obtain ⟨last, appended⟩ := ih (fun move isMove => forward move (.tail _ isMove))
      (start + move.accelT + move.cruiseT + move.decelT)
    simp only [queueMoves]
    refine ⟨by linarith, fun event happened => ?_⟩
    rcases mem_cons.mp happened with rfl | later
    · exact ⟨start, le_rfl, rfl⟩
    · obtain ⟨time, after, rfl⟩ := appended event later
      exact ⟨time, by linarith, rfl⟩

theorem Ordered.append {events : List Event} (ordered : Ordered th) (clear : th.Clear)
    (appended : ∀ event ∈ events, ∃ time, th.printTime ≤ time ∧
      event = .trapqAppend time th.kinFlushDelay) :
    Ordered (th.append events) := by
  have noPrint : ∀ time, .printTime time ∉ events := by
    intro time happened
    obtain ⟨_, _, same⟩ := appended _ happened
    cases same
  have noSteps : ∀ time, .generateSteps time ∉ events := by
    intro time happened
    obtain ⟨_, _, same⟩ := appended _ happened
    cases same
  refine { ordered with ordered := ?_, printed := ?_, generated := ?_ }
  · refine pairwise_append.mpr ⟨ordered.ordered, ?_, ?_⟩
    · refine pairwise_of_forall_mem_list ?_
      intro event happened next isNext
      obtain ⟨_, _, rfl⟩ := appended event happened
      trivial
    · intro event happened next isNext
      obtain ⟨time, later, rfl⟩ := appended next isNext
      exact ordered.before_trapqAppend clear later event happened
  · intro time happened
    exact ordered.printed time ((mem_append.mp happened).resolve_right (noPrint time))
  · intro time happened
    exact ordered.generated time ((mem_append.mp happened).resolve_right (noSteps time))

/-! ### Methods -/

variable {after : ToolHead} {fails : Raised → ToolHead → Prop}

theorem Ordered.congr (ordered : Ordered th) (history : after.history = th.history)
    (printTime : after.printTime = th.printTime) (force : after.forceFlushTime = th.forceFlushTime)
    (delay : after.kinFlushDelay = th.kinFlushDelay)
    (queue : after.moveQueue.queue = th.moveQueue.queue) : Ordered after := by
  constructor
  · exact history ▸ ordered.ordered
  · exact history ▸ printTime ▸ ordered.printed
  · exact history ▸ printTime ▸ force ▸ delay ▸ ordered.generated
  · exact delay ▸ ordered.delay_nonneg
  · exact queue ▸ ordered.planned

theorem Timed.setMoveQueue (timed : Timed th) {moveQueue : MoveQueue}
    (planned : Planned moveQueue.queue) : Timed (th.setMoveQueue moveQueue) :=
  ⟨⟨timed.ordered, timed.printed, timed.generated, timed.delay_nonneg, planned⟩, timed.room⟩

def KeepsTime {α : Type} (action : Action α) : Prop :=
  ∀ th, Timed th → wp action (fun _ => Timed) (fun _ => Timed) th

theorem calcPrintTime_spec (ordered : Ordered th) :
    wp calcPrintTime (fun _ th => Ordered th ∧ th.Clear) fails th := by
  simp only [calcPrintTime, estimatedPrintTime, wp_bind, wp_modifyGet, wp_modify]
  have answered : Ordered th.answered := ordered.congr rfl rfl rfl rfl rfl
  exact syncPrintTime_spec answered _

/-- The drip loop ends at the end of the move, or is stopped on the way. -/
theorem dripLoop_spec {completions : List Bool} (timed : Timed th) (later : th.printTime ≤ nextPrintTime) :
    wp (dripLoop nextPrintTime completions)
      (fun _ th => Timed th ∧ th.printTime ≤ nextPrintTime) (fun _ => Timed) th := by
  induction completions generalizing th with
  | nil =>
    simp only [dripLoop, wp_bind, wp_get, wp_ite, wp_throw, wp_pure]
    exact ⟨fun _ => timed, fun _ => ⟨timed, later⟩⟩
  | cons completed completions ih =>
    simp only [dripLoop, estimatedPrintTime, wp_bind, wp_get, wp_ite, wp_throw,
      wp_pure, wp_modifyGet, wp_modify]
    have answered : Timed th.answered := ⟨timed.congr rfl rfl rfl rfl rfl, timed.room⟩
    have forward : th.answered.printTime ≤ min (th.printTime + DRIP_SEGMENT_TIME) nextPrintTime :=
      le_min (le_add_of_nonneg_right (by norm_num [DRIP_SEGMENT_TIME])) later
    refine ⟨fun _ => ⟨fun _ => timed, fun _ => ⟨fun _ => ?_, fun _ => ?_⟩⟩, fun _ => ⟨timed, later⟩⟩
    · refine ih (answered.updateMoveTime forward) ?_
      exact (updateMoveTime_printTime answered.toOrdered forward).trans_le (min_le_right _ _)
    · exact ih answered later

theorem resyncPrintTime_spec (timed : Timed th) :
    wp resyncPrintTime (fun _ th => Ordered th ∧ th.Clear) fails th := by
  simp only [resyncPrintTime, wp_bind, wp_get, wp_ite, wp_modify, wp_pure]
  have entered : Ordered (th.enter .main (-1)) := timed.congr rfl rfl rfl rfl rfl
  refine ⟨fun _ => ⟨fun _ => calcPrintTime_spec entered, fun _ => calcPrintTime_spec timed.toOrdered⟩, ?_⟩
  intro isMain
  exact ⟨timed.toOrdered, timed.room (not_not.mp isMain)⟩

theorem Timed.finishMoves (timed : Timed th) (later : th.printTime ≤ nextPrintTime) :
    Timed ((th.updateMoveTime nextPrintTime).noteKinematicActivity nextPrintTime) :=
  ⟨(timed.updateMoveTime later).congr rfl rfl rfl rfl rfl, (timed.updateMoveTime later).room⟩

theorem processMoves_keepsTime {moves : List (Move × Option Junction)}
    (forward : ∀ config : Config, ∀ portions ∈ moves.filterMap
      (fun (move, junction) => junction.map (move.setJunction config.sqrt)), portions.Forward) :
    KeepsTime (processMoves moves) := by
  intro th timed
  simp only [processMoves, updateDripMoveTime, wp_bind, wp_get, wp_modify, wp_ite]
  refine wp_weaken (resyncPrintTime_spec timed) ?_
  rintro _ th ⟨ordered, clear⟩
  obtain ⟨later, appended⟩ := queueMoves_spec (forward th.config) th.kinFlushDelay th.printTime
  have queued : Timed (th.append _) := ⟨ordered.append clear appended, fun _ => clear⟩
  constructor
  · intro _
    refine wp_weaken (dripLoop_spec queued later) ?_
    rintro _ after ⟨timed, later⟩
    exact timed.finishMoves later
  · intro _
    exact queued.finishMoves later

/-! ### The queue -/

theorem flushMoveQueue_keepsTime (lazy : Bool) : KeepsTime (flushMoveQueue lazy) := by
  intro th timed
  simp only [flushMoveQueue, wp_bind, wp_get, wp_modify, wp_ite]
  have started : Timed (th.setMoveQueue { th.moveQueue with junctionFlush := LOOKAHEAD_FLUSH_TIME }) :=
    timed.setMoveQueue timed.planned
  have rest : Planned (th.moveQueue.flush lazy).queue := timed.planned.flush lazy
  constructor
  · intro _
    refine wp_weaken (processMoves_keepsTime ?_ _ started) (fun _ _ timed => timed.setMoveQueue rest)
    exact fun config => timed.planned.forward lazy config.sqrt_nonneg
  · intro _
    exact started.setMoveQueue rest

theorem addMove_keepsTime {move : Move} (fresh : Fresh move) {limit : Option ℚ}
    (nonneg : ∀ v2 ∈ limit, 0 ≤ v2) : KeepsTime (addMove move limit) := by
  intro th timed
  simp only [addMove, wp_bind, wp_get]
  split
  · rw [wp_modify]
    exact timed.setMoveQueue (.singleton fresh)
  · rename_i prevMove isLast
    simp only [wp_bind, wp_modify, wp_ite, wp_pure]
    have added := timed.planned.append isLast fresh nonneg
    exact ⟨fun _ => flushMoveQueue_keepsTime true _ (timed.setMoveQueue added),
      fun _ => timed.setMoveQueue added⟩

structure Covered (th : ToolHead) : Prop extends Timed th where
  notMain : th.specialQueuingState ≠ .main
  covered : th.printTime - th.kinFlushDelay ≤ th.forceFlushTime

theorem flushStepGeneration_spec (timed : Timed th) :
    wp flushStepGeneration (fun _ => Covered) (fun _ => Timed) th := by
  simp only [flushStepGeneration, wp_bind, wp_modify]
  refine wp_weaken (flushMoveQueue_keepsTime false th timed) ?_
  intro _ th timed
  have idle : Ordered (th.enterIdle .flushed (-1)) := timed.congr rfl rfl rfl rfl rfl
  obtain ⟨ordered, isFlushed, covered⟩ := forceFlush_spec idle
  have notMain : (th.enterIdle .flushed (-1)).forceFlush.specialQueuingState ≠ .main := by
    rw [isFlushed]
    rintro ⟨⟩
  exact ⟨⟨ordered, fun isMain => absurd isMain notMain⟩, notMain, covered⟩

theorem flushStepGeneration_keepsTime : KeepsTime flushStepGeneration :=
  fun _ timed => wp_weaken (flushStepGeneration_spec timed) (fun _ _ => Covered.toTimed)

theorem flushLookahead_keepsTime : KeepsTime flushLookahead := by
  intro th timed
  simp only [flushLookahead, wp_bind, wp_get, wp_ite]
  exact ⟨fun _ => flushStepGeneration_keepsTime th timed,
    fun _ => flushMoveQueue_keepsTime false th timed⟩

theorem getLastMoveTime_spec (timed : Timed th) :
    wp getLastMoveTime (fun time th => Timed th ∧ th.printTime = time) (fun _ => Timed) th := by
  simp only [getLastMoveTime, wp_bind, wp_get, wp_ite, wp_pure, and_true]
  refine wp_weaken (flushLookahead_keepsTime th timed) ?_
  intro _ th timed
  refine ⟨fun _ => ?_, fun _ => timed⟩
  exact wp_weaken (calcPrintTime_spec timed.toOrdered) (fun _ _ spec => ⟨spec.1, fun _ => spec.2⟩)

theorem stallPass_keepsTime : KeepsTime stallPass := by
  intro th timed
  simp only [stallPass, estimatedPrintTime, wp_bind, wp_get, wp_ite, wp_pure,
    wp_modifyGet, wp_modify]
  have same : Ordered th := timed.toOrdered
  refine ⟨fun _ => ⟨fun _ => ?_, fun _ => ?_⟩, fun _ => ⟨fun _ => ?_, fun _ => ?_⟩⟩
  all_goals exact ⟨same.congr rfl rfl rfl rfl rfl, timed.room⟩

theorem checkStall_keepsTime : KeepsTime checkStall := by
  intro th timed
  simp only [checkStall, estimatedPrintTime, wp_bind, wp_get, wp_ite, wp_modifyGet, wp_modify]
  have same : Ordered th := timed.toOrdered
  refine ⟨fun _ => ⟨fun _ => ⟨fun _ => ?_, fun _ => ?_⟩, fun _ => ?_⟩, fun _ => stallPass_keepsTime th timed⟩
  all_goals exact stallPass_keepsTime _ ⟨same.congr rfl rfl rfl rfl rfl, by rintro ⟨⟩⟩

/-! ### The operations -/

theorem Timed.resetMoveQueue (timed : Timed th) : Timed th.resetMoveQueue :=
  timed.setMoveQueue planned_nil

theorem Timed.handleShutdown (timed : Timed th) : Timed th.handleShutdown :=
  ⟨timed.resetMoveQueue.congr rfl rfl rfl rfl rfl, timed.room⟩

theorem flushHandler_keepsTime : KeepsTime flushHandler := by
  intro th timed
  simp only [flushHandler, estimatedPrintTime, wp_tryCatch, wp_bind, wp_get, wp_ite,
    wp_pure, wp_modifyGet, wp_modify]
  have answered : Timed th.answered := ⟨timed.congr rfl rfl rfl rfl rfl, timed.room⟩
  refine ⟨fun _ => ?_, fun _ => answered⟩
  refine wp_mono (flushStepGeneration_keepsTime _ answered) ?_ ?_
  · intro _ th timed
    exact ⟨fun _ => ⟨timed.congr rfl rfl rfl rfl rfl, timed.room⟩, fun _ => timed⟩
  · exact fun _ _ timed => timed.handleShutdown

theorem move_keepsTime (request : ToolHead.Request) : KeepsTime (move request) := by
  intro th timed
  cases request with
  | nothing => exact timed
  | refused => exact timed
  | checked move limit =>
    simp only [ToolHead.move, wp_bind, wp_get, wp_ite, wp_pure]
    refine wp_weaken (addMove_keepsTime move.property.fresh ?_ th timed) ?_
    · intro v2 isLimit
      obtain ⟨bounded, -, rfl⟩ := Option.map_eq_some_iff.mp isLimit
      exact bounded.property
    · intro _ th timed
      exact ⟨fun _ => checkStall_keepsTime th timed, fun _ => timed⟩

theorem dwell_keepsTime (delay : ℚ) : KeepsTime (dwell delay) := by
  intro th timed
  simp only [dwell, wp_bind, wp_modify]
  refine wp_weaken (getLastMoveTime_spec timed) ?_
  rintro _ th ⟨timed, rfl⟩
  exact checkStall_keepsTime _ (timed.updateMoveTime (le_add_of_nonneg_right (le_max_left _ _)))

theorem Timed.finalize (timed : Timed th) {freeTime : ℚ} :
    Timed (th.append [.finalizeMoves freeTime]) := by
  refine ⟨{ timed.toOrdered with ordered := ?_, printed := ?_, generated := ?_ }, timed.room⟩
  · refine pairwise_append.mpr ⟨timed.ordered, pairwise_singleton _ _, ?_⟩
    intro event _ next isNext
    rw [mem_singleton.mp isNext]
    cases event <;> trivial
  · intro time happened
    refine timed.printed time ((mem_append.mp happened).resolve_right ?_)
    exact fun isNew => nomatch mem_singleton.mp isNew
  · intro time happened
    refine timed.generated time ((mem_append.mp happened).resolve_right ?_)
    exact fun isNew => nomatch mem_singleton.mp isNew

theorem dripTransmit_keepsTime (request : ToolHead.Request) : KeepsTime (dripTransmit request) := by
  intro th timed
  simp only [dripTransmit, wp_tryCatch, wp_bind, wp_ite, wp_modify, wp_throw]
  refine wp_weaken (flushMoveQueue_keepsTime false th timed) ?_
  intro _ th timed
  have entered : Timed (th.enterIdle .drip NEVER) :=
    ⟨timed.congr rfl rfl rfl rfl rfl, by rintro ⟨⟩⟩
  refine wp_mono (move_keepsTime request _ entered) ?_ ?_
  · intro _ th timed
    refine wp_mono (flushMoveQueue_keepsTime false th timed) ?_ ?_
    · exact fun _ => flushStepGeneration_keepsTime
    · intro _ th timed
      exact ⟨fun _ => flushStepGeneration_keepsTime _ timed.resetMoveQueue.finalize, fun _ => timed⟩
  · intro _ th timed
    exact ⟨fun _ => flushStepGeneration_keepsTime th timed, fun _ => timed⟩

theorem dripMove_keepsTime (request : ToolHead.Request) : KeepsTime (dripMove request) := by
  intro th timed
  simp only [dripMove, wp_bind, wp_get]
  exact wp_weaken (dwell_keepsTime _ th timed) (fun _ => dripTransmit_keepsTime request)

theorem delay_pos (times : List ℚ) : 0 < times.foldr max SDS_CHECK_TIME := by
  induction times with
  | nil => norm_num [SDS_CHECK_TIME]
  | cons time times ih => exact lt_max_of_lt_right ih

/-- Where all generated steps are covered, the flush delay may change. -/
theorem Covered.changeTimes (covered : Covered th) (kinFlushTimes : List ℚ) :
    Timed { th with kinFlushTimes, kinFlushDelay := kinFlushTimes.foldr max SDS_CHECK_TIME } where
  ordered := covered.ordered
  printed := covered.printed
  generated := by
    intro time happened
    have bounded := covered.generated time happened
    rw [max_eq_left covered.covered] at bounded
    exact le_max_of_le_left bounded
  delay_nonneg := (delay_pos kinFlushTimes).le
  planned := covered.planned
  room := fun isMain => absurd isMain covered.notMain

theorem noteStepGenerationScanTime_keepsTime (delay oldDelay : ℚ) :
    KeepsTime (noteStepGenerationScanTime delay oldDelay) := by
  intro th timed
  simp only [noteStepGenerationScanTime, wp_bind, wp_get, wp_ite, wp_modify, wp_throw]
  refine wp_weaken (flushStepGeneration_spec timed) ?_
  intro _ th covered
  have changed := covered.changeTimes
  exact ⟨fun _ => ⟨fun _ => ⟨fun _ => changed _, fun _ => changed _⟩, fun _ => covered.toTimed⟩,
    fun _ => ⟨fun _ => changed _, fun _ => changed _⟩⟩

theorem operation_keepsTime (operation : ToolHeadOperation) : KeepsTime operation.action := by
  cases operation with
  | move request => exact move_keepsTime request
  | dwell delay => exact dwell_keepsTime delay
  | flushStepGeneration => exact flushStepGeneration_keepsTime
  | flushLookahead => exact flushLookahead_keepsTime
  | getLastMoveTime =>
    intro th timed
    exact wp_bind.mpr (wp_weaken (getLastMoveTime_spec timed) (fun _ _ => And.left))
  | flushHandler => exact flushHandler_keepsTime
  | stallPass => exact stallPass_keepsTime
  | dripMove request => exact dripMove_keepsTime request
  | dripTransmit request => exact dripTransmit_keepsTime request
  | noteStepGenerationScanTime delay oldDelay =>
    exact noteStepGenerationScanTime_keepsTime delay oldDelay
  | noteKinematicActivity kinTime =>
    exact fun th timed => ⟨timed.congr rfl rfl rfl rfl rfl, timed.room⟩
  | handleShutdown => exact fun th timed => timed.handleShutdown

/-! ### Runs -/

theorem init_timed (config : Config) (canPause : Bool) : Timed (.init config canPause) where
  ordered := .nil
  printed := nofun
  generated := nofun
  delay_nonneg := by norm_num [init, SDS_CHECK_TIME]
  planned := planned_nil
  room := nofun

def Starts (th : ToolHead) : Prop := ∃ config canPause, th = .init config canPause

theorem timed_of_reachable (reached : Reachable Starts step th) : Timed th := by
  refine reached.induct_invariant ?_ ?_
  · rintro _ ⟨config, canPause, rfl⟩ _
    exact init_timed config canPause
  · rintro th input _ _ _ ⟨⟩ timed
    refine stateAfter_of_wp (operation_keepsTime input.operation _ ?_)
    exact ⟨timed.congr rfl rfl rfl rfl rfl, timed.room⟩

/-- **Time never runs backwards.** In every run, the print times are in order, and
the current one is the last; the times up to which steps are generated are in
order; and every move is appended at least the kinematic flush delay behind the
steps generated before. -/
theorem step_generation_ordered (reached : Reachable Starts ToolHead.step th) :
    th.history.Pairwise Event.Before ∧ ∀ time, .printTime time ∈ th.history → time ≤ th.printTime :=
  have timed := timed_of_reachable reached
  ⟨timed.ordered, timed.printed⟩

/-- A move, a change of the scan time and a drip move that is stopped. -/
theorem step_generation_ordered_drip :
    ∃ th, Reachable Starts ToolHead.step th ∧
      .trapqAppend (1 / 4) (1 / 50) ∈ th.history ∧ .generateSteps (3973 / 3000) ∈ th.history ∧
      .trapqAppend (4123 / 3000) (1 / 20) ∈ th.history ∧ th.history.Pairwise Event.Before ∧
      ∀ time, .printTime time ∈ th.history → time ≤ th.printTime := by
  let config : Config := ⟨1, 2, 1 / 4, 1 / 20, fun v => max v 0, fun _ => le_max_right _ _⟩
  let limits : Limits := ⟨300, 3000, 1500, by norm_num, by norm_num⟩
  let request : ToolHead.Request :=
    .checked ⟨Move.init limits true 10 50, .kinematic limits 10 50 (by norm_num)⟩ none
  let inputs : List ToolHeadInput :=
    [⟨.noteStepGenerationScanTime (1 / 50) 0, [], []⟩, ⟨.move request, [0, 0], []⟩,
      ⟨.dwell 1, [0, 0, 0], []⟩, ⟨.noteStepGenerationScanTime (1 / 20) (1 / 50), [0, 0], []⟩,
      ⟨.dripMove request, [0, 0, 0, 0], [false, false, true]⟩]
  obtain ⟨th, reached, first, steps, second⟩ := exists_reachable Starts step (.init config true)
    ⟨config, true, rfl⟩ inputs
    (fun th => .trapqAppend (1 / 4) (1 / 50) ∈ th.history ∧ .generateSteps (3973 / 3000) ∈ th.history ∧
      .trapqAppend (4123 / 3000) (1 / 20) ∈ th.history) (by decide +kernel)
  exact ⟨th, reached, first, steps, second, step_generation_ordered reached⟩

end MagnetoX.Host.Toolhead
