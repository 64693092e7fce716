import MagnetoX.Host.StepCompress.Compression

/-!
Owns the bounds of the buffer of step times. `queue_next` stays between `queue_pos`
and `queue_end`, and every write but one is known to be in front of `queue_end`.

The exception is the far path: it flushes the queue and then writes without a look
at `queue_end`. A flush that does not empty the queue leaves `queue_next` where it
is, so that the write is behind a full buffer.
-/

namespace MagnetoX.Host.StepCompress

open Library.Run Library.Word List

variable {sc after flushed middle : Stepcompress} {op : Operation}

/-- `queue_next - queue`. -/
def Stepcompress.queueNext (sc : Stepcompress) : Nat := sc.queuePos + sc.queue.length

def Bounded (sc : Stepcompress) : Prop := sc.queueNext ≤ sc.queueSize

/-- What a flush does to the buffer: it starts over, or `queue_next` stays and
steps are left. -/
structure Recedes (sc after : Stepcompress) : Prop where
  size : after.queueSize = sc.queueSize
  place : (after.queue = [] ∧ after.queuePos = 0) ∨
    (after.queueNext = sc.queueNext ∧ (sc.queue ≠ [] → after.queue ≠ []))

theorem Recedes.refl (sc : Stepcompress) : Recedes sc sc := ⟨rfl, .inr ⟨rfl, id⟩⟩

open Stepcompress

theorem Recedes.trans (first : Recedes sc middle) (second : Recedes middle after) :
    Recedes sc after where
  size := second.size.trans first.size
  place := by
    rcases second.place with empty | ⟨same, left⟩
    · exact .inl empty
    · rcases first.place with ⟨empty, start⟩ | ⟨stays, leftFirst⟩
      · rw [queueNext, queueNext, empty, start, length_nil] at same
        exact .inl ⟨eq_nil_of_length_eq_zero (by omega), by omega⟩
      · exact .inr ⟨same.trans stays, left ∘ leftFirst⟩

theorem Recedes.bounded (recedes : Recedes sc after) (bounded : Bounded sc) : Bounded after := by
  unfold Bounded at bounded ⊢
  rw [recedes.size]
  rcases recedes.place with ⟨empty, start⟩ | ⟨same, -⟩
  · rw [queueNext, empty, start]
    exact Nat.zero_le _
  · rw [same]
    exact bounded

/-- The call ends in a state with `holds`, or fails without a write behind the
buffer. -/
def Stays (holds : Stepcompress → Prop) : Except Failure Stepcompress → Prop
  | .ok after => holds after
  | .error failure => failure ≠ .overrun

section Stays

variable {holds then_ : Stepcompress → Prop} {result : Except Failure Stepcompress}

section

variable (stays : Stays holds result)
include stays

theorem Stays.bind {next : Stepcompress → Except Failure Stepcompress}
    (continues : ∀ after, result = .ok after → holds after → Stays then_ (next after)) :
    Stays then_ (result.bind next) := by
  cases result with
  | error failure => exact stays
  | ok after => exact continues after rfl stays

theorem Stays.map {next : Stepcompress → Stepcompress}
    (continues : ∀ after, holds after → then_ (next after)) : Stays then_ (result.map next) := by
  cases result with
  | error failure => exact stays
  | ok after => exact continues after stays

theorem Stays.mono (weaker : ∀ after, holds after → then_ after) :
    Stays then_ result := by
  cases result with
  | error failure => exact stays
  | ok after => exact weaker after stays

theorem Stays.ne_overrun : result ≠ .error .overrun := by
  rintro rfl
  exact stays rfl

end

end Stays

theorem queueFlushLoop_recedes (moveClock : Int) (fuel : Nat) (sc : Stepcompress) :
    Stays (Recedes sc) (queueFlushLoop moveClock fuel sc) := by
  induction fuel generalizing sc with
  | zero => rintro ⟨⟩
  | succ fuel ih =>
    rw [queueFlushLoop]
    split
    · split
      · rintro ⟨⟩
      · rename_i move _
        split
        · dsimp only
          split
          · exact ⟨rfl, .inl ⟨rfl, rfl⟩⟩
          · refine (ih _).mono (fun _ recedes => Recedes.trans ?_ recedes)
            refine ⟨rfl, .inr ⟨?_, ?_⟩⟩
            · -- The steps of the move leave the queue at its front.
              change sc.queuePos + move.count.toNat + (sc.queue.drop move.count.toNat).length =
                sc.queuePos + sc.queue.length
              rw [length_drop]
              omega
            · intro queued
              have positive := length_pos_iff.mpr queued
              rw [ne_eq, drop_eq_nil_iff]
              omega
        · rintro ⟨⟩
    · exact .refl sc

theorem calcLastStepPrintTime_place (sc : Stepcompress) :
    (calcLastStepPrintTime sc).queue = sc.queue ∧ (calcLastStepPrintTime sc).queuePos = sc.queuePos ∧
      (calcLastStepPrintTime sc).queueSize = sc.queueSize := by
  unfold calcLastStepPrintTime freeHistory
  split
  · exact ⟨rfl, rfl, rfl⟩
  · exact ⟨rfl, rfl, rfl⟩

theorem recedes_calcLastStepPrintTime (sc : Stepcompress) : Recedes sc (calcLastStepPrintTime sc) := by
  obtain ⟨queue, pos, size⟩ := calcLastStepPrintTime_place sc
  refine ⟨size, .inr ⟨?_, ?_⟩⟩
  · rw [queueNext, queueNext, queue, pos]
  · rw [queue]
    exact id

theorem queueFlush_recedes (moveClock : Int) (sc : Stepcompress) :
    Stays (Recedes sc) (queueFlush sc moveClock) := by
  unfold queueFlush
  split
  · exact .refl sc
  · exact (queueFlushLoop_recedes moveClock _ sc).map
      (fun after recedes => recedes.trans (recedes_calcLastStepPrintTime after))

theorem setNextStepDir_recedes (sc : Stepcompress) (sdir : Bool) :
    Stays (Recedes sc) (setNextStepDir sc sdir) := by
  unfold setNextStepDir
  split
  · exact .refl sc
  · exact (queueFlush_recedes UINT64_MAX sc).map (fun after recedes => { recedes with })

theorem writeNext_bounded (room : sc.queueNext < sc.queueSize) (stepClock : Int) :
    Stays Bounded (writeNext sc stepClock) := by
  rw [writeNext, if_pos (show sc.queuePos + sc.queue.length < sc.queueSize from room)]
  change sc.queuePos + (sc.queue ++ [u32 stepClock]).length ≤ sc.queueSize
  rw [length_append, length_singleton]
  exact room

theorem growAlloc_full {inUse : Nat} (positive : 0 < inUse) (fuel : Nat) :
    growAlloc inUse (fuel + 2) inUse = inUse * 2 := by
  rw [growAlloc, if_pos le_rfl, growAlloc, if_neg (by omega)]

/-- Behind a full queue there is room after a shuffle or an expansion. -/
theorem makeRoom_room (bounded : Bounded sc) : (makeRoom sc).queueNext < (makeRoom sc).queueSize := by
  unfold Bounded queueNext at bounded
  unfold makeRoom
  split
  · split
    · change 0 + sc.queue.length < sc.queueSize
      omega
    · rename_i full start
      change sc.queuePos + sc.queue.length < growAlloc sc.queue.length 32 _
      have inUse : sc.queue.length = sc.queueSize := by omega
      rw [inUse]
      split
      · rename_i empty
        rw [empty, growAlloc, if_neg (by decide), QUEUE_START_SIZE]
        omega
      · rw [growAlloc_full (by omega)]
        omega
  · rename_i room
    exact Nat.lt_of_not_le room

theorem queueAppendExtend_bounded (bounded : Bounded sc) : Stays Bounded (queueAppendExtend sc) := by
  unfold queueAppendExtend
  have flushes : Stays (Recedes sc) (if sc.queue.length > 65535 + 2000 then
      queueFlush sc (u64 (sc.lastStepClock +
        u32 (sc.queue.getD (sc.queue.length - 65535) 0 - u32 sc.lastStepClock))) else .ok sc) := by
    split
    · exact queueFlush_recedes _ sc
    · exact .refl sc
  refine flushes.bind (fun flushed _ recedes => ?_)
  exact (writeNext_bounded (makeRoom_room (recedes.bounded bounded)) _).map (fun _ stays => stays)

def flushFar (sc : Stepcompress) : Except Failure Stepcompress :=
  queueFlush { sc with nextStepClock := 0 } (u64 (u64 (sc.nextStepClock - CLOCK_DIFF_MAX) + 1))

def IsFar (sc : Stepcompress) (stepClock : Int) : Prop := stepClock ≥ u64 (sc.lastStepClock + CLOCK_DIFF_MAX)

instance (sc : Stepcompress) (stepClock : Int) : Decidable (IsFar sc stepClock) :=
  inferInstanceAs (Decidable (_ ≥ _))

/-- The far path finds the buffer full, and its flush leaves steps in the queue and
the pending step to be queued. -/
def FarOverrun (sc : Stepcompress) : Prop :=
  sc.queueNext = sc.queueSize ∧
    ∃ flushed, flushFar sc = .ok flushed ∧ flushed.queue ≠ [] ∧ ¬ IsFar flushed sc.nextStepClock

theorem stepcompressFlushFar_recedes (sc : Stepcompress) (absStepClock : Int) :
    Recedes sc (stepcompressFlushFar sc absStepClock) := by
  refine Recedes.trans ?_ (recedes_calcLastStepPrintTime _)
  exact ⟨rfl, .inr ⟨rfl, id⟩⟩

theorem flushFar_recedes (sc : Stepcompress) : Stays (Recedes sc) (flushFar sc) :=
  (queueFlush_recedes _ { sc with nextStepClock := 0 }).mono (fun _ recedes => { recedes with })

/-- With no step in the queue a far step is still far after the flush. -/
theorem flushFar_nil (empty : sc.queue = []) : flushFar sc = .ok { sc with nextStepClock := 0 } :=
  if_pos empty

theorem queueAppendFar_eq (sc : Stepcompress) :
    queueAppendFar sc = (flushFar sc).bind (fun flushed =>
      if IsFar flushed sc.nextStepClock then .ok (stepcompressFlushFar flushed sc.nextStepClock)
      else writeNext flushed sc.nextStepClock) := rfl

theorem FarOverrun.overruns (overrun : FarOverrun sc) : queueAppendFar sc = .error .overrun := by
  obtain ⟨full, flushed, flushes, left, near⟩ := overrun
  have recedes := flushFar_recedes sc
  rw [flushes] at recedes
  have stays : flushed.queueNext = sc.queueNext := by
    rcases recedes.place with ⟨empty, -⟩ | ⟨same, -⟩
    · exact absurd empty left
    · exact same
  rw [queueAppendFar_eq, flushes, Except.bind, if_neg near, writeNext, if_neg]
  change ¬ flushed.queueNext < flushed.queueSize
  rw [stays, full, recedes.size]
  exact lt_irrefl _

/-- After the flush of the far path there is room for a step that is to be queued. -/
theorem flushFar_room (bounded : Bounded sc)
    (far : IsFar sc sc.nextStepClock) (flushes : flushFar sc = .ok flushed)
    (near : ¬ IsFar flushed sc.nextStepClock) (none : ¬ FarOverrun sc) :
    flushed.queueNext < flushed.queueSize := by
  have recedes := flushFar_recedes sc
  rw [flushes] at recedes
  have queued : sc.queue ≠ [] := by
    intro empty
    rw [flushFar_nil empty] at flushes
    cases flushes
    exact near far
  have positive : 0 < sc.queueNext := by
    rw [queueNext]
    exact Nat.lt_add_left _ (length_pos_iff.mpr queued)
  rw [recedes.size]
  rcases recedes.place with ⟨empty, start⟩ | ⟨same, left⟩
  · rw [queueNext, empty, start]
    exact lt_of_lt_of_le positive bounded
  · rw [same]
    refine lt_of_le_of_ne bounded (fun full => none ⟨full, flushed, flushes, left queued, near⟩)

theorem queueAppendFar_bounded (bounded : Bounded sc) (far : IsFar sc sc.nextStepClock)
    (none : ¬ FarOverrun sc) : Stays Bounded (queueAppendFar sc) := by
  rw [queueAppendFar_eq]
  refine (flushFar_recedes sc).bind (fun flushed flushes recedes => ?_)
  split
  · exact (recedes.trans (stepcompressFlushFar_recedes flushed _)).bounded bounded
  · rename_i near
    exact writeNext_bounded (flushFar_room bounded far flushes near none) _

/-- The pending step takes the far path, and that path runs over the buffer. -/
def AppendOverrun (sc : Stepcompress) : Prop :=
  ∃ turned, setNextStepDir sc sc.nextStepDir = .ok turned ∧ IsFar turned turned.nextStepClock ∧
    FarOverrun turned

theorem queueAppend_eq (sc : Stepcompress) :
    queueAppend sc = (setNextStepDir sc sc.nextStepDir).bind (fun turned =>
      if IsFar turned turned.nextStepClock then queueAppendFar turned
      else if turned.queuePos + turned.queue.length ≥ turned.queueSize then queueAppendExtend turned
      else (writeNext turned turned.nextStepClock).map (fun sc => { sc with nextStepClock := 0 })) := rfl

theorem AppendOverrun.overruns (overrun : AppendOverrun sc) : queueAppend sc = .error .overrun := by
  obtain ⟨turned, turns, far, overrun⟩ := overrun
  rw [queueAppend_eq, turns, Except.bind, if_pos far, overrun.overruns]

theorem queueAppend_bounded (bounded : Bounded sc) (none : ¬ AppendOverrun sc) :
    Stays Bounded (queueAppend sc) := by
  rw [queueAppend_eq]
  refine (setNextStepDir_recedes sc _).bind (fun turned turns recedes => ?_)
  have boundedTurned := recedes.bounded bounded
  split
  · rename_i far
    exact queueAppendFar_bounded boundedTurned far (fun overrun => none ⟨turned, turns, far, overrun⟩)
  · split
    · exact queueAppendExtend_bounded boundedTurned
    · rename_i room
      exact (writeNext_bounded (Nat.lt_of_not_le room) _).map (fun _ stays => stays)

def Operation.Appends (sc : Stepcompress) : Operation → Prop
  | .append sdir stepClock =>
      sc.nextStepClock ≠ 0 ∧
        ¬ (sdir ≠ sc.nextStepDir ∧ i64 (stepClock - sc.nextStepClock) < sc.sdsFilter)
  | .commit => sc.nextStepClock ≠ 0
  | .flush moveClock => sc.nextStepClock ≠ 0 ∧ moveClock ≥ sc.nextStepClock

def Operation.Overruns (sc : Stepcompress) (op : Operation) : Prop := op.Appends sc ∧ AppendOverrun sc

open Operation

theorem Operation.Overruns.apply_eq (overruns : op.Overruns sc) :
    op.apply sc = .error .overrun := by
  obtain ⟨appends, overrun⟩ := overruns
  cases op with
  | append sdir stepClock =>
    rw [apply, stepcompressAppend, if_neg appends.1, if_neg appends.2, overrun.overruns]
    rfl
  | commit => rw [apply, stepcompressCommit, if_neg appends, overrun.overruns]
  | flush moveClock =>
    have due : sc.nextStepClock ≠ 0 ∧ moveClock ≥ sc.nextStepClock := appends
    rw [apply, stepcompressFlush, if_pos due, overrun.overruns]
    rfl

theorem Operation.apply_bounded (bounded : Bounded sc) (none : ¬ op.Overruns sc) :
    Stays Bounded (op.apply sc) := by
  cases op with
  | append sdir stepClock =>
    rw [apply, stepcompressAppend]
    split
    · exact bounded
    · rename_i pends
      split
      · exact bounded
      · rename_i kept
        exact (queueAppend_bounded bounded (fun overrun => none ⟨⟨pends, kept⟩, overrun⟩)).map
          (fun _ stays => stays)
  | commit =>
    rw [apply, stepcompressCommit]
    split
    · exact bounded
    · rename_i pends
      exact queueAppend_bounded bounded (fun overrun => none ⟨pends, overrun⟩)
  | flush moveClock =>
    rw [apply, stepcompressFlush]
    have appends : Stays Bounded
        (if sc.nextStepClock ≠ 0 ∧ moveClock ≥ sc.nextStepClock then queueAppend sc else .ok sc) := by
      split
      · rename_i due
        exact queueAppend_bounded bounded (fun overrun => none ⟨due, overrun⟩)
      · exact bounded
    refine appends.bind (fun appended _ boundedAppended => ?_)
    exact (queueFlush_recedes moveClock appended).mono (fun _ recedes => recedes.bounded boundedAppended)

def stepcompressAlloc (maxError sdsFilter historyExpire : Int) (invertSdir : Bool) : Stepcompress :=
  { queue := [], queuePos := 0, queueSize := 0, maxError, lastStepClock := 0, msgQueue := []
    sdir := none, invertSdir, nextStepClock := 0, nextStepDir := false, lastPosition := 0
    historyList := [], sdsFilter, historyExpire }

def BufferReachable : Stepcompress → Prop :=
  Reachable (fun sc => ∃ maxError sdsFilter historyExpire invertSdir,
      sc = stepcompressAlloc maxError sdsFilter historyExpire invertSdir)
    (fun sc (op : Operation) => (op.apply sc).toOption)

theorem BufferReachable.bounded (reached : BufferReachable sc) : Bounded sc := by
  refine reached.induct_invariant ?_ ?_
  · rintro _ ⟨maxError, sdsFilter, historyExpire, invertSdir, rfl⟩ -
    exact le_rfl
  · intro sc op after _ _ moves bounded
    have none : ¬ op.Overruns sc := by
      intro overruns
      rw [overruns.apply_eq] at moves
      cases moves
    have stays := apply_bounded bounded none
    cases applies : op.apply sc with
    | error failure =>
      rw [applies] at moves
      cases moves
    | ok result =>
      rw [applies] at moves stays
      cases moves
      exact stays

/-- **The bounds of the buffer.** In every state that calls reach, `queue_next` is
between `queue_pos` and `queue_end`. The next call writes behind the buffer exactly if
it takes the far path with a full buffer and a flush that leaves steps in the queue. -/
theorem buffer_overrun_iff (reached : BufferReachable sc) :
    sc.queuePos ≤ sc.queueNext ∧ sc.queueNext ≤ sc.queueSize ∧
      ∀ op : Operation, op.apply sc = .error .overrun ↔ op.Overruns sc := by
  have bounded := reached.bounded
  refine ⟨Nat.le_add_right _ _, bounded, fun op => ⟨?_, Operation.Overruns.apply_eq⟩⟩
  intro writes
  by_contra none
  exact (apply_bounded bounded none).ne_overrun writes

/-- One step after a rollback and a reversal, and the buffer in use. -/
theorem buffer_overrun_iff_reversal :
    ∃ sc, BufferReachable sc ∧ sc.queueNext = 1 ∧ sc.queueSize = 1024 ∧
      ∀ op : Operation, op.apply sc = .error .overrun ↔ op.Overruns sc := by
  obtain ⟨sc, reached, next, size⟩ : ∃ sc, BufferReachable sc ∧ sc.queueNext = 1 ∧ sc.queueSize = 1024 :=
    exists_reachable _ _ (stepcompressAlloc 25 100 1000000 true) ⟨25, 100, 1000000, true, rfl⟩
      [.append true 1000, .append false 1050, .append true 1900, .commit, .append false 3000, .commit]
      _ (by decide +kernel)
  exact ⟨sc, reached, next, size, (buffer_overrun_iff reached).2.2⟩

def filling (queue : List Int) (pending : Int) : Stepcompress :=
  { queue, queuePos := 0, queueSize := 1024, maxError := 25, lastStepClock := 0
    msgQueue := [⟨.setNextStepDir false, 0, 0⟩]
    sdir := some true, invertSdir := true, nextStepClock := pending, nextStepDir := true
    lastPosition := 0, historyList := [], sdsFilter := 100, historyExpire := 1000000 }

def IsNear (clock : Int) : Prop := 0 < clock ∧ clock < CLOCK_DIFF_MAX

theorem filling_append {queue : List Int} {pending : Int} (near : IsNear pending)
    (room : queue.length < 1024) (clock : Int) :
    stepcompressAppend (filling queue pending) true clock = .ok (filling (queue ++ [pending]) clock) := by
  obtain ⟨positive, near⟩ := near
  have word : u32 pending = pending := by
    simp only [u32, unsigned]
    rw [CLOCK_DIFF_MAX] at near
    omega
  have pends : ¬ (filling queue pending).nextStepClock = 0 := ne_of_gt positive
  have turns : setNextStepDir (filling queue pending) (filling queue pending).nextStepDir =
      .ok (filling queue pending) := rfl
  have unfar : ¬ IsFar (filling queue pending) (filling queue pending).nextStepClock := not_le.mpr near
  have fits : (filling queue pending).queuePos + (filling queue pending).queue.length <
      (filling queue pending).queueSize := by
    change 0 + queue.length < 1024
    omega
  rw [stepcompressAppend, if_neg pends, if_neg (fun turned => turned.1 rfl), queueAppend_eq, turns, Except.bind,
    if_neg unfar, if_neg (not_le.mpr fits), writeNext, if_pos fits,
    show u32 (filling queue pending).nextStepClock = pending from word]
  rfl

/-- Near steps fill the buffer. -/
theorem filling_run (queue : List Int) (pending : Int) (clocks : List Int) (last : Int)
    (near : ∀ clock ∈ pending :: clocks, IsNear clock) (room : queue.length + clocks.length < 1024) :
    runOperations (filling queue pending) ((clocks ++ [last]).map (.append true)) =
      .ok (filling (queue ++ pending :: clocks) last) := by
  induction clocks generalizing queue pending with
  | nil =>
    simp only [nil_append, map_cons, map_nil, runOperations, apply]
    rw [filling_append (near pending (.head _)) room]
    rfl
  | cons clock clocks ih =>
    rw [length_cons] at room
    rw [cons_append, map_cons, runOperations, apply,
      filling_append (near pending (.head _)) (by omega), Except.bind,
      ih _ _ (fun other isOther => near other (.tail _ isOther))
        (by rw [length_append, length_singleton]; omega),
      append_assoc, singleton_append]

def slowSteps : List Int := (List.range 1022).map (fun k : Nat => 400001 + 787000 * ((k : Int) + 1))

theorem slowSteps_near : ∀ clock ∈ 400001 :: slowSteps, IsNear clock := by
  refine forall_mem_cons.mpr ⟨⟨by decide, by decide⟩, ?_⟩
  intro clock isSlow
  rw [slowSteps, mem_map] at isSlow
  obtain ⟨k, isIndex, rfl⟩ := isSlow
  rw [mem_range] at isIndex
  rw [IsNear, CLOCK_DIFF_MAX]
  omega

theorem slowSteps_length : slowSteps.length = 1022 := by
  rw [slowSteps, length_map, length_range]

def farBehindFull : List Operation :=
  [.append true 400000, .append true 400001] ++ (slowSteps ++ [805400000]).map (.append true) ++ [.commit]

/-- **The far path runs over the buffer.** -/
theorem far_overruns :
    runOperations (stepcompressAlloc 25 100 1000000 true) farBehindFull = .error .overrun := by
  have begins : runOperations (stepcompressAlloc 25 100 1000000 true)
      [.append true 400000, .append true 400001] = .ok (filling [400000] 400001) := by
    decide +kernel
  have fills := filling_run [400000] 400001 slowSteps 805400000 slowSteps_near
    (by rw [slowSteps_length]; decide)
  have overruns : stepcompressCommit (filling ([400000] ++ 400001 :: slowSteps) 805400000) =
      .error .overrun := by
    decide +kernel
  rw [farBehindFull, runOperations_append, runOperations_append, begins, Except.bind, fills, Except.bind,
    runOperations, apply, overruns]
  rfl

end MagnetoX.Host.StepCompress
