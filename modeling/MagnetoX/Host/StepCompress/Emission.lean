import MagnetoX.Host.StepCompress.Flush

/-!
Owns what the emitted messages ask the micro-controller to do: the steps of a
`queue_step` command, the directions between them, and when such steps are the
steps that were requested. `queue_flush` emits a prefix of its queue.

Nothing here depends on how good the search is. A flush that does not fail has had
every move accepted by `check_line`, and that is all that is used.
-/

namespace MagnetoX.Host.StepCompress

open Library.QuadraticSequence Library.Word List

structure Step where
  dir : Bool
  clock : Int
deriving DecidableEq, Repr

/-- A step that a message asks for. The first step of a move comes with the clock
from which the move starts. -/
structure ExpandedStep where
  dir : Option Bool
  start : Option Int
  time : Int
deriving DecidableEq, Repr

/-- The steps of a `queue_step` that starts at the step at `start`. -/
def expandMove (dir : Option Bool) (start interval add : Int) (count : Nat) :
    List ExpandedStep :=
  (List.range count).map (fun k =>
    { dir
      start := if k = 0 then some start else none
      time := start + position interval add (k + 1) })

/-- The steps that messages ask for. A move starts at the step before it, the clock of
which is the `min_clock` of its message. -/
def expand (invertSdir : Bool) : Option Bool → List StepMessage → List ExpandedStep
  | _, [] => []
  | dir, message :: rest =>
      match message.command with
      | .queueStep interval count add =>
          expandMove dir message.minClock interval add count.toNat ++ expand invertSdir dir rest
      | .setNextStepDir sdir => expand invertSdir (some (xor sdir invertSdir)) rest

def dirAfter (invertSdir : Bool) : Option Bool → List StepMessage → Option Bool
  | dir, [] => dir
  | dir, message :: rest =>
      match message.command with
      | .queueStep _ _ _ => dirAfter invertSdir dir rest
      | .setNextStepDir sdir => dirAfter invertSdir (some (xor sdir invertSdir)) rest

theorem expand_append (invertSdir : Bool) (dir : Option Bool) (first second : List StepMessage) :
    expand invertSdir dir (first ++ second) =
      expand invertSdir dir first ++ expand invertSdir (dirAfter invertSdir dir first) second := by
  induction first generalizing dir with
  | nil => rfl
  | cons message rest ih =>
    rw [cons_append, expand, expand, dirAfter]
    cases message.command with
    | queueStep interval count add =>
      show _ ++ expand invertSdir dir (rest ++ second) = _
      rw [ih, append_assoc]
    | setNextStepDir sdir => exact ih _

theorem dirAfter_append (invertSdir : Bool) (dir : Option Bool) (first second : List StepMessage) :
    dirAfter invertSdir dir (first ++ second) =
      dirAfter invertSdir (dirAfter invertSdir dir first) second := by
  induction first generalizing dir with
  | nil => rfl
  | cons message rest ih =>
    rw [cons_append, dirAfter, dirAfter]
    cases message.command with
    | queueStep interval count add => exact ih dir
    | setNextStepDir sdir => exact ih _

def InWindow (maxError previous requested time : Int) : Prop :=
  requested - min ((requested - previous) / 2) maxError ≤ time ∧ time ≤ requested

/-- The expanded steps are the requested steps, one for one, in order and with their
directions. `previous` is the clock requested before, `last` the clock of the last
step, from which a new move starts. Every step is in its window, but for a step whose
interval does not fit in a word: of that one the message has only the low word. -/
inductive Realizes (maxError : Int) :
    Int → Int → List ExpandedStep → List Step → Int → Prop
  | nil {previous last : Int} : Realizes maxError previous last [] [] last
  | step {previous last final : Int} {step : ExpandedStep} {request : Step}
      {steps : List ExpandedStep} {requests : List Step}
      (dir : step.dir = some request.dir)
      (start : step.start = none ∨ step.start = some last)
      (window : InWindow maxError (step.start.getD previous) request.clock step.time)
      (rest : Realizes maxError request.clock step.time steps requests final) :
      Realizes maxError previous last (step :: steps) (request :: requests) final
  | far {previous last final : Int} {step : ExpandedStep} {request : Step}
      {steps : List ExpandedStep} {requests : List Step}
      (dir : step.dir = some request.dir)
      (start : step.start = some last)
      (long : last + 2 ^ 32 ≤ request.clock)
      (low : step.time = last + (request.clock - last) % 2 ^ 32)
      (rest : Realizes maxError request.clock request.clock steps requests final) :
      Realizes maxError previous last (step :: steps) (request :: requests) final

section Realizes

variable {maxError previous last middle final : Int} {steps further : List ExpandedStep}
  {requests others : List Step}

theorem Realizes.append (realizes : Realizes maxError previous last steps requests middle)
    (follows : ∀ previous, Realizes maxError previous middle further others final) :
    Realizes maxError previous last (steps ++ further) (requests ++ others) final := by
  induction realizes with
  | nil => exact follows _
  | step dir start window _ ih =>
    exact .step dir start window (ih follows)
  | far dir start long low _ ih =>
    exact .far dir start long low (ih follows)

end Realizes

open Step

theorem realizes_steps {maxError previous start interval add : Int} {dir : Option Bool}
    {requests : List Step} (dirs : ∀ request ∈ requests, dir = some request.dir) {i count : Nat}
    (inside : i + count ≤ requests.length)
    (isPrevious : i ≠ 0 → previous = start + relative start (requests.map clock) i)
    (windows : ∀ j < i + count, InWindow maxError (start + relative start (requests.map clock) j)
      (start + relative start (requests.map clock) (j + 1))
      (start + position interval add (j + 1))) :
    Realizes maxError previous (start + position interval add i)
      ((List.range' i count).map (fun k =>
        ⟨dir, if k = 0 then some start else none, start + position interval add (k + 1)⟩))
      ((requests.drop i).take count) (start + position interval add (i + count)) := by
  induction count generalizing i previous with
  | zero => exact .nil
  | succ count ih =>
    have small : i < requests.length := by omega
    have clock : requests[i].clock = start + relative start (requests.map clock) (i + 1) := by
      rw [relative, getD_eq_getElem _ _ (by rwa [length_map]), getElem_map]
      ring
    rw [range'_succ, map_cons, drop_eq_getElem_cons small, take_succ_cons]
    apply Realizes.step (dirs _ (getElem_mem small))
    · by_cases first : i = 0
      · right
        rw [if_pos first, first]
        simp [position, triangle]
      · left
        exact if_neg first
    · have window := windows i (by omega)
      rw [clock]
      by_cases first : i = 0
      · rw [first] at window ⊢
        rw [relative, Int.add_zero] at window
        exact window
      · rw [if_neg first, Option.getD_none, isPrevious first]
        exact window
    · have rest := ih (i := i + 1) (by omega) (fun _ => clock) (fun j below => windows j (by omega))
      rw [show i + 1 + count = i + (count + 1) by omega] at rest
      exact rest

/-- A state that follows another by emitting `steps`. -/
structure Emits (before after : Stepcompress) (steps : List Step) : Prop where
  messages : ∃ messages, after.msgQueue = before.msgQueue ++ messages ∧
    dirAfter before.invertSdir before.sdir messages = after.sdir ∧
    ∀ previous, Realizes before.maxError previous before.lastStepClock
      (expand before.invertSdir before.sdir messages) steps after.lastStepClock
  forward : before.lastStepClock ≤ after.lastStepClock
  invertSdir : after.invertSdir = before.invertSdir
  maxError : after.maxError = before.maxError
  sdsFilter : after.sdsFilter = before.sdsFilter

section Emits

variable {before middle after : Stepcompress} {steps further : List Step}

theorem Emits.nothing (msgQueue : after.msgQueue = before.msgQueue)
    (sdir : after.sdir = before.sdir) (lastStepClock : after.lastStepClock = before.lastStepClock)
    (invertSdir : after.invertSdir = before.invertSdir)
    (maxError : after.maxError = before.maxError)
    (sdsFilter : after.sdsFilter = before.sdsFilter) : Emits before after [] where
  messages := by
    rw [msgQueue, lastStepClock, sdir]
    exact ⟨[], (append_nil _).symm, rfl, fun _ => .nil⟩
  forward := le_of_eq lastStepClock.symm
  invertSdir := invertSdir
  maxError := maxError
  sdsFilter := sdsFilter

theorem Emits.trans (first : Emits before middle steps) (second : Emits middle after further) :
    Emits before after (steps ++ further) where
  messages := by
    obtain ⟨early, isMiddle, middleDir, early_realizes⟩ := first.messages
    obtain ⟨late, isAfter, afterDir, late_realizes⟩ := second.messages
    rw [first.invertSdir, ← middleDir] at afterDir late_realizes
    rw [first.maxError] at late_realizes
    refine ⟨early ++ late, ?_, ?_, ?_⟩
    · rw [isAfter, isMiddle, append_assoc]
    · rw [dirAfter_append]
      exact afterDir
    · intro previous
      rw [expand_append]
      exact (early_realizes previous).append late_realizes
  forward := first.forward.trans second.forward
  invertSdir := second.invertSdir.trans first.invertSdir
  maxError := second.maxError.trans first.maxError
  sdsFilter := second.sdsFilter.trans first.sdsFilter

theorem Emits.then_nothing (first : Emits before middle steps) (second : Emits middle after []) :
    Emits before after steps := by
  have emits := first.trans second
  rw [append_nil] at emits
  exact emits

end Emits

variable {move : StepMove} {fuel k : Nat}

section Moves

variable {sc after : Stepcompress} {steps : List Step}

theorem Covers.emits {queued : Queued sc (steps.map clock)} {nonempty : steps.map clock ≠ []}
    (covers : Covers queued nonempty move k) (dirs : ∀ step ∈ steps, sc.sdir = some step.dir) :
    Emits sc (addMove sc (u64 (sc.lastStepClock + move.interval)) move) (steps.take k) where
  messages := by
    have inside := covers.inside
    rw [length_map] at inside
    refine ⟨_, rfl, rfl, ?_⟩
    intro previous
    rw [covers.lastStepClock]
    show Realizes _ _ _ (expandMove sc.sdir sc.lastStepClock move.interval move.add
      move.count.toNat ++ []) _ _
    rw [append_nil, covers.count, Int.toNat_natCast, expandMove, range_eq_range']
    have realizes := @realizes_steps sc.maxError previous sc.lastStepClock move.interval move.add
      sc.sdir steps dirs 0 k (by omega) (fun later => absurd rfl later) (fun j below => by
        obtain ⟨lower, upper⟩ := covers.fits (j + 1) (by omega) (by omega)
        have lower : relative sc.lastStepClock (steps.map clock) (j + 1) -
            min ((relative sc.lastStepClock (steps.map clock) (j + 1) -
              relative sc.lastStepClock (steps.map clock) j) / 2) sc.maxError ≤ _ := lower
        have upper : _ ≤ relative sc.lastStepClock (steps.map clock) (j + 1) := upper
        unfold InWindow
        omega)
    rw [Nat.zero_add] at realizes
    have start : sc.lastStepClock + position move.interval move.add 0 = sc.lastStepClock := by
      simp [position, triangle]
    rw [start] at realizes
    exact realizes
  forward := by
    have range := covers.fits.position_range covers.positive covers.inside
    rw [covers.lastStepClock]
    omega
  invertSdir := rfl
  maxError := rfl
  sdsFilter := rfl

theorem calcLastStepPrintTime_eq (sc : Stepcompress) :
    ∃ historyList, calcLastStepPrintTime sc = { sc with historyList } := by
  unfold calcLastStepPrintTime
  split
  · exact ⟨_, rfl⟩
  · exact ⟨sc.historyList, rfl⟩

theorem calcLastStepPrintTime_emits (sc : Stepcompress) :
    Emits sc (calcLastStepPrintTime sc) [] := by
  obtain ⟨historyList, isAfter⟩ := calcLastStepPrintTime_eq sc
  rw [isAfter]
  exact .nothing rfl rfl rfl rfl rfl rfl

/-- The move for a step far in the future has no ticks behind its first step. -/
theorem addMove_far_lastStepClock {clock : Int} (nonneg : 0 ≤ clock) (bounded : clock < 2 ^ 64)
    (interval : Int) : (addMove sc clock (stepMove interval 1 0)).lastStepClock = clock := by
  show u64 (clock + u32 (i32 (i16 0 * addFactor (u16 1)) + u32 (u32 interval * (u16 1 - 1)))) = clock
  rw [show u16 1 - 1 = 0 by decide, Int.mul_zero,
    show u32 (i32 (i16 0 * addFactor (u16 1)) + u32 0) = 0 by decide, Int.add_zero]
  exact unsigned_of_range nonneg bounded

theorem addMove_far_emits {dir : Bool} {clock : Int} (isDir : sc.sdir = some dir)
    (nonneg : 0 ≤ sc.lastStepClock) (maxError : 0 ≤ sc.maxError)
    (later : sc.lastStepClock < clock) (bounded : clock < 2 ^ 64) :
    Emits sc (addMove sc clock (stepMove (u64 (clock - sc.lastStepClock)) 1 0)) [⟨dir, clock⟩] where
  messages := by
    have interval : u32 (u64 (clock - sc.lastStepClock)) = (clock - sc.lastStepClock) % 2 ^ 32 := by
      simp only [u32, u64, unsigned]
      omega
    rw [addMove_far_lastStepClock (by omega) bounded]
    refine ⟨_, rfl, rfl, ?_⟩
    intro previous
    show Realizes _ _ _ [⟨sc.sdir, some sc.lastStepClock, sc.lastStepClock +
      position (u32 (u64 (clock - sc.lastStepClock))) (i16 0) 1⟩] _ _
    rw [position_one, interval]
    by_cases long : sc.lastStepClock + 2 ^ 32 ≤ clock
    · exact .far isDir rfl long rfl .nil
    · have fits : sc.lastStepClock + (clock - sc.lastStepClock) % 2 ^ 32 = clock := by omega
      rw [fits]
      refine .step isDir (.inr rfl) ?_ .nil
      show InWindow sc.maxError sc.lastStepClock clock clock
      unfold InWindow
      omega
  forward := by
    rw [addMove_far_lastStepClock (by omega) bounded]
    omega
  invertSdir := rfl
  maxError := rfl
  sdsFilter := rfl

end Moves

/-! ### The moves that a flush accepts

The search looks at no point behind the queue, whatever its arithmetic does. -/

section Bounds

variable {sc : Stepcompress} {available : Nat}

theorem findLongest_count {add low high interval : Int} {count : Nat} {longest : Longest}
    (found : findLongest sc available add fuel low high interval count = some longest)
    (inside : count ≤ available) :
    (∃ interval, longest = .coversQueue interval available) ∨ ∃ interval low high nextcount point,
        longest = .stops interval low high nextcount point ∧
        1 ≤ nextcount ∧ nextcount ≤ available := by
  induction fuel generalizing low high interval count with
  | zero => cases found
  | succ fuel ih =>
    rw [findLongest] at found
    dsimp only at found
    split at found
    · rename_i covered
      obtain rfl : count = available := by omega
      cases found
      exact .inl ⟨_, rfl⟩
    · split at found
      · cases found
        exact .inr ⟨_, _, _, _, _, rfl, by omega, by omega⟩
      · exact ih found (by omega)

structure Search.Counts (available : Nat) (s : Search) : Prop where
  best_nonneg : 0 ≤ s.bestcount
  best_le : s.bestcount ≤ available
  zero_nonneg : 0 ≤ s.zerocount
  zero_le : s.zerocount ≤ available

variable {s : Search} {count : Int}

section

variable (counts : s.Counts available)
include counts

theorem Search.Counts.record (interval reach : Int) (nonneg : 0 ≤ count) (le : count ≤ available) :
    (s.record interval count reach).Counts available where
  best_nonneg := nonneg
  best_le := le
  zero_nonneg := by
    show 0 ≤ if s.add = 0 then count else s.zerocount
    split
    · exact nonneg
    · exact counts.zero_nonneg
  zero_le := by
    show (if s.add = 0 then count else s.zerocount) ≤ available
    split
    · exact le
    · exact counts.zero_le

theorem Search.Counts.exclude (interval low high : Int) (nextcount : Nat) (nextpoint : Points) :
    (s.exclude interval low high nextcount nextpoint).Counts available := by
  unfold Search.exclude
  dsimp only
  split
  · exact { counts with }
  · exact { counts with }

theorem Search.Counts.limitDeviation (maxError count : Int) :
    (s.limitDeviation maxError count).Counts available := by
  unfold Search.limitDeviation
  split
  · exact { counts with }
  · exact counts

theorem Search.Counts.limitNext (nextcount : Nat) (nextpoint : Points) :
    (s.limitNext nextcount nextpoint).Counts available :=
  { counts with }

theorem Search.Counts.bisect : s.bisect.Counts available :=
  { counts with }

end

structure StepMove.Bounded (available : Nat) (move : StepMove) : Prop where
  interval : 0 ≤ move.interval
  count_nonneg : 0 ≤ move.count
  count_le : move.count ≤ available
  add : Short move.add

theorem stepMove_bounded (few : available ≤ 65535) (interval add : Int)
    (nonneg : 0 ≤ count) (le : count ≤ available) :
    (stepMove interval count add).Bounded available := by
  have exact : u16 count = count := unsigned_of_range nonneg (by norm_num; omega)
  refine ⟨unsigned_nonneg 32 interval, ?_, ?_, ?_⟩
  · show 0 ≤ u16 count
    omega
  · show u16 count ≤ available
    omega
  · constructor
    · show -32768 ≤ i16 add
      simp only [i16, signed]
      omega
    · show i16 add ≤ 32767
      simp only [i16, signed]
      omega

theorem Search.Counts.result (counts : s.Counts available) (few : available ≤ 65535) :
    s.result.Bounded available := by
  unfold Search.result
  split
  · exact stepMove_bounded few _ _ counts.zero_nonneg counts.zero_le
  · exact stepMove_bounded few _ _ counts.best_nonneg counts.best_le

theorem bisectLoop_bounded (few : available ≤ 65535) (some : 1 ≤ available)
    (counts : s.Counts available)
    (found : bisectLoop sc available fuel s = .some move) : move.Bounded available := by
  induction fuel generalizing s with
  | zero => cases found
  | succ fuel ih =>
    rw [bisectLoop] at found
    split at found
    · cases found
    · rename_i covers
      rcases findLongest_count covers some with ⟨_, isCovers⟩ | ⟨_, _, _, _, _, isStops, _⟩
      · cases isCovers
        cases found
        exact stepMove_bounded few _ _ (by omega) (by omega)
      · cases isStops
    · rename_i stops
      rcases findLongest_count stops some with ⟨_, isCovers⟩ |
        ⟨_, _, _, nextcount, _, isStops, positive, inside⟩
      · cases isCovers
      · cases isStops
        dsimp only at found
        generalize isRecorded : (if s.better _ _ = true then s.record _ _ _ else s) = recorded
          at found
        have recordedCounts : recorded.Counts available := by
          rw [← isRecorded]
          split
          · exact counts.record _ _ (by omega) (by omega)
          · exact counts
        split at found
        · cases found
          exact recordedCounts.result few
        · split at found
          · cases found
            exact (((recordedCounts.exclude _ _ _ _ _).limitDeviation _ _).limitNext _ _).result few
          · apply ih _ found
            exact (((recordedCounts.exclude _ _ _ _ _).limitDeviation _ _).limitNext _ _).bisect

theorem compressBisectAdd_bounded (nonempty : sc.queue ≠ [])
    (found : compressBisectAdd sc = some move) : move.Bounded (min sc.queue.length 65535) := by
  have positive : 0 < sc.queue.length := length_pos_iff.mpr nonempty
  apply bisectLoop_bounded (min_le_right _ _) (by omega) _ found
  exact ⟨by norm_num, by norm_num; omega, by norm_num, by norm_num⟩

end Bounds

structure Flushed (before after : Stepcompress) (done rest : List Step) : Prop where
  emits : Emits before after done
  queued : Queued after (rest.map Step.clock)
  sdir : after.sdir = before.sdir
  nextStepClock : after.nextStepClock = before.nextStepClock
  nextStepDir : after.nextStepDir = before.nextStepDir

section Flush

variable {sc after : Stepcompress} {steps : List Step} {moveClock : Int}

theorem Queued.nothing_flushed (queued : Queued sc (steps.map clock)) : Flushed sc sc [] steps where
  emits := .nothing rfl rfl rfl rfl rfl rfl
  queued := queued
  sdir := rfl
  nextStepClock := rfl
  nextStepDir := rfl

theorem Flushed.trans {before middle : Stepcompress} {done further rest : List Step}
    (first : Flushed before middle done (further ++ rest))
    (second : Flushed middle after further rest) : Flushed before after (done ++ further) rest where
  emits := first.emits.trans second.emits
  queued := second.queued
  sdir := second.sdir.trans first.sdir
  nextStepClock := second.nextStepClock.trans first.nextStepClock
  nextStepDir := second.nextStepDir.trans first.nextStepDir

theorem covers_of_accepted (queued : Queued sc (steps.map clock)) (nonempty : steps.map clock ≠ [])
    (found : compressBisectAdd sc = some move) (accepted : checkLine sc move = true) :
    Covers queued nonempty move move.count.toNat := by
  have some : sc.queue ≠ [] := by
    intro none
    rw [queued.queue, map_eq_nil_iff] at none
    exact nonempty none
  have bounded := compressBisectAdd_bounded some found
  have count : move.count = move.count.toNat := (Int.toNat_of_nonneg bounded.count_nonneg).symm
  have inside : move.count.toNat ≤ (steps.map clock).length := by
    have le := bounded.count_le
    rw [queued.length] at le
    omega
  obtain ⟨positive, fits⟩ :=
    (checkLine_iff queued nonempty count inside bounded.add bounded.interval).mp accepted
  exact ⟨count, positive, inside, fits⟩

/-- One round of the loop takes the steps of its move from the queue. -/
theorem Covers.flushed {queued : Queued sc (steps.map clock)} {nonempty : steps.map clock ≠ []}
    (covers : Covers queued nonempty move k) (dirs : ∀ step ∈ steps, sc.sdir = some step.dir)
    {queue : List Int} (isQueue : queue = sc.queue.drop k) (queuePos : Nat) :
    Flushed sc { addMove sc (u64 (sc.lastStepClock + move.interval)) move with queue, queuePos }
      (steps.take k) (steps.drop k) where
  emits := (covers.emits dirs).then_nothing (.nothing rfl rfl rfl rfl rfl rfl)
  queued := by
    rw [map_drop]
    exact covers.queued_rest isQueue rfl rfl
  sdir := rfl
  nextStepClock := rfl
  nextStepDir := rfl

/-- The loop emits a prefix of the queue; it ends with an empty queue or at
`move_clock`. -/
theorem queueFlushLoop_flushed (nonempty : steps ≠ [])
    (queued : Queued sc (steps.map clock)) (dirs : ∀ step ∈ steps, sc.sdir = some step.dir)
    (ends : queueFlushLoop moveClock fuel sc = .ok after) :
    ∃ done rest, steps = done ++ rest ∧ Flushed sc after done rest ∧
      (rest = [] ∨ moveClock ≤ after.lastStepClock) := by
  induction fuel generalizing sc steps with
  | zero => cases ends
  | succ fuel ih =>
    rw [queueFlushLoop] at ends
    split at ends
    · split at ends
      · cases ends
      · rename_i move found
        split at ends
        · rename_i accepted
          have some : steps.map clock ≠ [] := by
            rw [ne_eq, map_eq_nil_iff]
            exact nonempty
          have covers := covers_of_accepted queued some found accepted
          split at ends
          · rename_i whole
            rw [queued.length, length_map, covers.count] at whole
            cases ends
            have all : steps.drop move.count.toNat = [] := by
              rw [drop_eq_nil_iff]
              omega
            refine ⟨_, _, (take_append_drop move.count.toNat steps).symm,
              covers.flushed dirs ?_ 0, .inl all⟩
            rw [queued.queue, ← map_drop, ← map_drop, all]
            rfl
          · rename_i left
            rw [queued.length, length_map, covers.count] at left
            have more : steps.drop move.count.toNat ≠ [] := by
              rw [ne_eq, drop_eq_nil_iff]
              omega
            have flushed := covers.flushed dirs rfl (sc.queuePos + move.count.toNat)
            obtain ⟨done, rest, split, further, stops⟩ := ih more flushed.queued
              (fun step member => dirs step (mem_of_mem_drop member)) ends
            rw [split] at flushed
            refine ⟨steps.take move.count.toNat ++ done, rest, ?_, flushed.trans further, stops⟩
            rw [append_assoc, ← split, take_append_drop]
        · cases ends
    · rename_i reached
      cases ends
      exact ⟨[], steps, rfl, queued.nothing_flushed, .inr (not_lt.mp reached)⟩

theorem queueFlush_flushed (queued : Queued sc (steps.map clock))
    (dirs : ∀ step ∈ steps, sc.sdir = some step.dir) (ends : queueFlush sc moveClock = .ok after) :
    ∃ done rest, steps = done ++ rest ∧ Flushed sc after done rest ∧
      (rest = [] ∨ moveClock ≤ after.lastStepClock) := by
  unfold queueFlush at ends
  split at ends
  · rename_i empty
    cases ends
    rw [queued.queue, map_eq_nil_iff, map_eq_nil_iff] at empty
    rw [empty]
    rw [empty] at queued
    exact ⟨[], [], rfl, queued.nothing_flushed, .inl rfl⟩
  · rename_i some
    have nonempty : steps ≠ [] := by
      intro none
      apply some
      rw [queued.queue, none]
      rfl
    cases loops : queueFlushLoop moveClock (sc.queue.length + 1) sc with
    | error failure =>
      rw [loops] at ends
      cases ends
    | ok flushed =>
      rw [loops] at ends
      cases ends
      obtain ⟨done, rest, split, isFlushed, stops⟩ :=
        queueFlushLoop_flushed nonempty queued dirs loops
      obtain ⟨historyList, isAfter⟩ := calcLastStepPrintTime_eq flushed
      rw [isAfter]
      refine ⟨done, rest, split, ⟨?_, ?_, isFlushed.sdir, isFlushed.nextStepClock,
        isFlushed.nextStepDir⟩, stops⟩
      · exact isFlushed.emits.then_nothing (.nothing rfl rfl rfl rfl rfl rfl)
      · exact isFlushed.queued.congr rfl rfl rfl

end Flush

end MagnetoX.Host.StepCompress
