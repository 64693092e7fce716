import MagnetoX.Host.StepCompress.Emission
import MagnetoX.Library.Run

/-!
Owns the three ways in which a pending step enters the queue, and the change of
direction before it. Each emits a prefix of the steps at hand and leaves the others
in the queue, in order.
-/

namespace MagnetoX.Host.StepCompress

open Library.Run Library.Word List

/-- The queue holds `steps`, all in the direction last sent. -/
structure Holds (sc : Stepcompress) (steps : List Step) : Prop where
  queued : Queued sc (steps.map Step.clock)
  dirs : ∀ step ∈ steps, sc.sdir = some step.dir

/-- Of the given steps a prefix is emitted; the others are in the queue. -/
def Advances (before after : Stepcompress) (steps : List Step) : Prop :=
  ∃ done rest, steps = done ++ rest ∧ Emits before after done ∧ Holds after rest

section Advances

variable {before middle after : Stepcompress} {steps further done rest requests : List Step}

theorem Holds.advances (holds : Holds after steps) (emits : Emits before after []) :
    Advances before after steps :=
  ⟨[], steps, rfl, emits, holds⟩

/-- Go on with what is left in the queue and some further steps. -/
theorem Emits.advances (emits : Emits before middle done)
    (next : Advances middle after (rest ++ further)) :
    Advances before after (done ++ rest ++ further) := by
  obtain ⟨more, left, split, emitsMore, holds⟩ := next
  refine ⟨done ++ more, left, ?_, emits.trans emitsMore, holds⟩
  rw [append_assoc, split, append_assoc]

theorem Realizes.final_lt {maxError previous last final bound : Int} {expanded : List ExpandedStep}
    (realizes : Realizes maxError previous last expanded requests final)
    (begins : last < bound) (below : ∀ request ∈ requests, request.clock < bound) :
    final < bound := by
  induction realizes with
  | nil => exact begins
  | step _ _ window _ ih =>
    have own := below _ (.head _)
    exact ih (window.2.trans_lt own)
      (fun request member => below request (.tail _ member))
  | far _ _ _ _ _ ih =>
    exact ih (below _ (.head _))
      (fun request member => below request (.tail _ member))

theorem Emits.lastStepClock_lt {bound : Int} (emits : Emits before after steps)
    (begins : before.lastStepClock < bound) (below : ∀ step ∈ steps, step.clock < bound) :
    after.lastStepClock < bound := by
  obtain ⟨_, _, _, realizes⟩ := emits.messages
  exact (realizes 0).final_lt begins below

end Advances

section Append

variable {sc after : Stepcompress} {steps : List Step} {dir : Bool} {clock : Int}

/-- All steps in the queue are emitted before the direction changes. -/
theorem setNextStepDir_advances (holds : Holds sc steps)
    (bounded : ∀ step ∈ steps, step.clock < 2 ^ 63)
    (ends : setNextStepDir sc dir = .ok after) :
    Advances sc after steps ∧ after.sdir = some dir ∧
      after.nextStepClock = sc.nextStepClock ∧ after.nextStepDir = sc.nextStepDir := by
  unfold setNextStepDir at ends
  split at ends
  · rename_i same
    cases ends
    exact ⟨holds.advances (.nothing rfl rfl rfl rfl rfl rfl), same, rfl, rfl⟩
  · obtain ⟨flushed, flushes, rfl⟩ := map_eq_ok ends
    obtain ⟨done, rest, rfl, isFlushed, stops⟩ := queueFlush_flushed holds.queued holds.dirs flushes
    -- No clock is as late as the end of the flush.
    have empty : rest = [] := by
      rcases stops with empty | reached
      · exact empty
      · cases rest with
        | nil => rfl
        | cons step rest =>
          have behind := isFlushed.queued.after step.clock (mem_map_of_mem (.head _))
          have small := bounded step (by simp)
          rw [UINT64_MAX] at reached
          omega
    rw [empty] at isFlushed ⊢
    refine ⟨⟨done, [], rfl, ?_, ⟨?_, ?_⟩⟩, rfl, isFlushed.nextStepClock, isFlushed.nextStepDir⟩
    · refine isFlushed.emits.then_nothing ⟨⟨_, rfl, ?_, fun _ => .nil⟩, le_rfl, rfl, rfl, rfl⟩
      show some (xor (xor dir flushed.invertSdir) flushed.invertSdir) = some dir
      rw [Bool.xor_assoc, Bool.xor_self, Bool.xor_false]
    · exact isFlushed.queued.congr rfl rfl rfl
    · nofun

theorem writeNext_holds (holds : Holds sc steps) (isDir : sc.sdir = some dir)
    (later : ∀ step ∈ steps, step.clock < clock) (behind : sc.lastStepClock < clock)
    (near : clock ≤ sc.lastStepClock + CLOCK_DIFF_MAX) (bounded : clock < 2 ^ 64)
    (ends : writeNext sc clock = .ok after) :
    Holds after (steps ++ [⟨dir, clock⟩]) ∧ Emits sc after [] ∧
      after.nextStepClock = sc.nextStepClock := by
  unfold writeNext at ends
  split at ends
  · cases ends
    have queued := holds.queued
    have member : ∀ {other}, other ∈ (steps ++ [(⟨dir, clock⟩ : Step)]).map Step.clock →
        other ∈ steps.map Step.clock ∨ other = clock := by
      intro other isMember
      rw [map_append, mem_append] at isMember
      exact isMember.imp id mem_singleton.mp
    refine ⟨⟨⟨?_, queued.lastStepClock, queued.maxError, ?_, ?_, ?_, ?_⟩, ?_⟩,
      .nothing rfl rfl rfl rfl rfl rfl, rfl⟩
    · show sc.queue ++ [u32 clock] = _
      rw [queued.queue, map_append, map_append]
      rfl
    · rw [map_append, pairwise_append]
      refine ⟨queued.increasing, pairwise_singleton _ _, ?_⟩
      intro first isFirst second isSecond
      obtain ⟨step, isStep, rfl⟩ := mem_map.mp isFirst
      rw [mem_singleton.mp isSecond]
      exact later step isStep
    · intro other isMember
      rcases member isMember with old | rfl
      · exact queued.after other old
      · exact behind
    · intro other isMember
      rcases member isMember with old | rfl
      · exact queued.near other old
      · exact near
    · intro other isMember
      rcases member isMember with old | rfl
      · exact queued.bounded other old
      · exact bounded
    · intro step isMember
      rcases mem_append.mp isMember with old | new
      · exact holds.dirs step old
      · rw [mem_singleton.mp new]
        exact isDir
  · cases ends

theorem Holds.congr (holds : Holds sc steps) (isQueue : after.queue = sc.queue)
    (isClock : after.lastStepClock = sc.lastStepClock) (isMaxError : after.maxError = sc.maxError)
    (isSdir : after.sdir = sc.sdir) : Holds after steps where
  queued := holds.queued.congr isQueue isClock isMaxError
  dirs := by
    rw [isSdir]
    exact holds.dirs

theorem Flushed.holds {done rest : List Step} (isFlushed : Flushed sc after done rest)
    (dirs : ∀ step ∈ done ++ rest, sc.sdir = some step.dir) : Holds after rest where
  queued := isFlushed.queued
  dirs := by
    rw [isFlushed.sdir]
    exact fun step member => dirs step (mem_append_right done member)

/-- A step that is far from the last one although the queue is empty. -/
theorem stepcompressFlushFar_advances (holds : Holds sc []) (isDir : sc.sdir = some dir)
    (behind : sc.lastStepClock < clock) (bounded : clock < 2 ^ 64) :
    Advances sc (stepcompressFlushFar sc clock) [⟨dir, clock⟩] ∧
      (stepcompressFlushFar sc clock).nextStepClock = sc.nextStepClock := by
  have nonneg := holds.queued.lastStepClock
  have emits := addMove_far_emits isDir nonneg holds.queued.maxError behind bounded
  have isClock := @addMove_far_lastStepClock sc clock (by omega) bounded
    (u64 (clock - sc.lastStepClock))
  unfold stepcompressFlushFar
  have emitsAll := emits.then_nothing (calcLastStepPrintTime_emits _)
  obtain ⟨historyList, isAfter⟩ := calcLastStepPrintTime_eq
    (addMove sc clock (stepMove (u64 (clock - sc.lastStepClock)) 1 0))
  rw [isAfter] at emitsAll ⊢
  refine ⟨⟨[⟨dir, clock⟩], [], rfl, emitsAll, ⟨⟨holds.queued.queue, ?_, holds.queued.maxError,
    .nil, ?_, ?_, ?_⟩, ?_⟩⟩, rfl⟩
  · exact (nonneg.trans behind.le).trans_eq isClock.symm
  all_goals
    nofun

/-- The far path flushes the queue far enough for the step to be queued, or all of
it. -/
theorem queueAppendFar_advances (holds : Holds sc steps) (isDir : sc.sdir = some dir)
    (later : ∀ step ∈ steps, step.clock < sc.nextStepClock)
    (behind : sc.lastStepClock < sc.nextStepClock) (bounded : sc.nextStepClock < 2 ^ 63)
    (far : sc.lastStepClock + CLOCK_DIFF_MAX ≤ sc.nextStepClock)
    (ends : queueAppendFar sc = .ok after) :
    Advances sc after (steps ++ [⟨dir, sc.nextStepClock⟩]) ∧ after.nextStepClock = 0 := by
  have nonneg := holds.queued.lastStepClock
  rw [CLOCK_DIFF_MAX] at far
  obtain ⟨flushed, flushes, ends⟩ := bind_eq_ok ends
  have moveClock : u64 (u64 (sc.nextStepClock - CLOCK_DIFF_MAX) + 1) =
      sc.nextStepClock - CLOCK_DIFF_MAX + 1 := by
    rw [CLOCK_DIFF_MAX]
    simp only [u64, unsigned]
    omega
  have cleared : Holds { sc with nextStepClock := 0 } steps := holds.congr rfl rfl rfl rfl
  obtain ⟨done, rest, rfl, isFlushed, stops⟩ :=
    queueFlush_flushed cleared.queued cleared.dirs flushes
  have clears : Emits sc { sc with nextStepClock := 0 } [] := .nothing rfl rfl rfl rfl rfl rfl
  have emits : Emits sc flushed done := clears.trans isFlushed.emits
  have last : flushed.lastStepClock < sc.nextStepClock :=
    emits.lastStepClock_lt behind (fun step member => later step (mem_append_left rest member))
  have rests := isFlushed.holds cleared.dirs
  have lastNonneg := rests.queued.lastStepClock
  have flushedDir : flushed.sdir = some dir := isFlushed.sdir.trans isDir
  have limit : u64 (flushed.lastStepClock + CLOCK_DIFF_MAX) =
      flushed.lastStepClock + CLOCK_DIFF_MAX := by
    rw [CLOCK_DIFF_MAX]
    exact unsigned_of_range (by omega) (by omega)
  split at ends
  · rename_i far
    have empty : rest = [] := by
      rcases stops with empty | reached
      · exact empty
      · omega
    rw [empty] at rests ⊢
    cases ends
    have single := stepcompressFlushFar_advances rests flushedDir last (by omega)
    exact ⟨emits.advances single.1, single.2.trans isFlushed.nextStepClock⟩
  · rename_i near
    have written := writeNext_holds rests flushedDir
      (fun step member => later step (mem_append_right done member)) last (by omega) (by omega)
      ends
    exact ⟨emits.advances (written.1.advances written.2.1),
      written.2.2.trans isFlushed.nextStepClock⟩

theorem makeRoom_eq (sc : Stepcompress) :
    ∃ queuePos queueSize, makeRoom sc = { sc with queuePos, queueSize } := by
  unfold makeRoom
  split
  · split
    · exact ⟨_, _, rfl⟩
    · exact ⟨_, _, rfl⟩
  · exact ⟨_, _, rfl⟩

/-- The extend path makes room by a flush, a shuffle or a larger buffer. -/
theorem queueAppendExtend_advances (holds : Holds sc steps) (isDir : sc.sdir = some dir)
    (later : ∀ step ∈ steps, step.clock < sc.nextStepClock)
    (behind : sc.lastStepClock < sc.nextStepClock) (bounded : sc.nextStepClock < 2 ^ 63)
    (near : sc.nextStepClock ≤ sc.lastStepClock + CLOCK_DIFF_MAX)
    (ends : queueAppendExtend sc = .ok after) :
    Advances sc after (steps ++ [⟨dir, sc.nextStepClock⟩]) ∧ after.nextStepClock = 0 := by
  obtain ⟨flushed, flushes, ends⟩ := bind_eq_ok ends
  obtain ⟨written, writes, rfl⟩ := map_eq_ok ends
  have split : ∃ done rest, steps = done ++ rest ∧ Flushed sc flushed done rest := by
    split at flushes
    · obtain ⟨done, rest, isSplit, isFlushed, _⟩ :=
        queueFlush_flushed holds.queued holds.dirs flushes
      exact ⟨done, rest, isSplit, isFlushed⟩
    · cases flushes
      exact ⟨[], steps, rfl, holds.queued.nothing_flushed⟩
  obtain ⟨done, rest, rfl, isFlushed⟩ := split
  have forward := isFlushed.emits.forward
  have last : flushed.lastStepClock < sc.nextStepClock := isFlushed.emits.lastStepClock_lt behind
      (fun step member => later step (mem_append_left rest member))
  have nearFlushed : sc.nextStepClock ≤ flushed.lastStepClock + CLOCK_DIFF_MAX := by omega
  obtain ⟨queuePos, queueSize, isRoom⟩ := makeRoom_eq flushed
  rw [isFlushed.nextStepClock, isRoom] at writes
  have rests : Holds { flushed with queuePos, queueSize } rest :=
    (isFlushed.holds holds.dirs).congr rfl rfl rfl rfl
  obtain ⟨holdsWritten, nothing, _⟩ := writeNext_holds rests (isFlushed.sdir.trans isDir)
    (fun step member => later step (mem_append_right done member)) last
    nearFlushed (by omega) writes
  have roomEmits : Emits flushed { flushed with queuePos, queueSize } [] :=
    .nothing rfl rfl rfl rfl rfl rfl
  have emits := (isFlushed.emits.then_nothing roomEmits).then_nothing nothing
  refine ⟨emits.advances (Holds.advances (holdsWritten.congr rfl rfl rfl rfl) ?_), rfl⟩
  exact .nothing rfl rfl rfl rfl rfl rfl

/-- **A pending step enters the queue** behind the steps that are in it. -/
theorem queueAppend_advances (holds : Holds sc steps)
    (later : ∀ step ∈ steps, step.clock < sc.nextStepClock)
    (behind : sc.lastStepClock < sc.nextStepClock) (bounded : sc.nextStepClock < 2 ^ 63)
    (ends : queueAppend sc = .ok after) :
    Advances sc after (steps ++ [⟨sc.nextStepDir, sc.nextStepClock⟩]) ∧
      after.nextStepClock = 0 := by
  obtain ⟨turned, turns, ends⟩ := bind_eq_ok ends
  obtain ⟨⟨done, rest, rfl, emits, holdsRest⟩, isDir, isClock, _⟩ :=
    setNextStepDir_advances holds (fun step member => (later step member).trans bounded) turns
  have nonneg := holdsRest.queued.lastStepClock
  have last : turned.lastStepClock < sc.nextStepClock :=
    emits.lastStepClock_lt behind (fun step member => later step (mem_append_left rest member))
  have laterRest : ∀ step ∈ rest, step.clock < sc.nextStepClock :=
    fun step member => later step (mem_append_right done member)
  have limit : u64 (turned.lastStepClock + CLOCK_DIFF_MAX) =
      turned.lastStepClock + CLOCK_DIFF_MAX := by
    rw [CLOCK_DIFF_MAX]
    exact unsigned_of_range (by omega) (by omega)
  rw [limit] at ends
  rw [← isClock] at laterRest last bounded ⊢
  split at ends
  · rename_i far
    obtain ⟨advances, cleared⟩ :=
      queueAppendFar_advances holdsRest isDir laterRest last bounded far ends
    exact ⟨emits.advances advances, cleared⟩
  · rename_i near
    split at ends
    · obtain ⟨advances, cleared⟩ := queueAppendExtend_advances holdsRest isDir laterRest last bounded
        (by omega) ends
      exact ⟨emits.advances advances, cleared⟩
    · obtain ⟨written, writes, rfl⟩ := map_eq_ok ends
      obtain ⟨holdsWritten, nothing, _⟩ :=
        writeNext_holds holdsRest isDir laterRest last (by omega) (by omega) writes
      refine ⟨emits.advances (Holds.advances (holdsWritten.congr rfl rfl rfl rfl) ?_), rfl⟩
      exact nothing.then_nothing (.nothing rfl rfl rfl rfl rfl rfl)

end Append

end MagnetoX.Host.StepCompress
