import Mathlib.Data.List.Chain
import MagnetoX.Host.StepCompress.Append

/-!
Owns runs of append, commit and flush calls, and the main result about them: the
emitted messages ask for the requested steps, each one once, in order, in its
direction and in its window.
-/

namespace MagnetoX.Host.StepCompress

open Library.Run Library.Word List

inductive Operation where
  | append (sdir : Bool) (stepClock : Int)
  | commit
  | flush (moveClock : Int)
deriving DecidableEq, Repr

def Operation.apply (sc : Stepcompress) : Operation → Except Failure Stepcompress
  | .append sdir stepClock => stepcompressAppend sc sdir stepClock
  | .commit => stepcompressCommit sc
  | .flush moveClock => stepcompressFlush sc moveClock

def runOperations : Stepcompress → List Operation → Except Failure Stepcompress
  | sc, [] => .ok sc
  | sc, op :: ops => (op.apply sc).bind (fun sc => runOperations sc ops)

def Operation.requests : Operation → List Step
  | .append sdir stepClock => [⟨sdir, stepClock⟩]
  | .commit => []
  | .flush _ => []

def requested (ops : List Operation) : List Step := ops.flatMap Operation.requests

def Stepcompress.pending (sc : Stepcompress) : List Step :=
  if sc.nextStepClock = 0 then [] else [⟨sc.nextStepDir, sc.nextStepClock⟩]

/-- Step clocks that increase behind the last step, in the range of a signed clock,
with no reversal inside the filter time. -/
structure Admissible (sdsFilter lastStepClock : Int) (steps : List Step) : Prop where
  increasing : steps.Pairwise (fun first second => first.clock < second.clock)
  behind : ∀ step ∈ steps, lastStepClock < step.clock
  bounded : ∀ step ∈ steps, step.clock < 2 ^ 63
  reversals : steps.IsChain (fun first second =>
    first.dir ≠ second.dir → sdsFilter ≤ second.clock - first.clock)

def Waiting (sc : Stepcompress) (steps : List Step) : Prop :=
  ∃ queued, steps = queued ++ sc.pending ∧ Holds sc queued

variable {sdsFilter : Int}

section Operations

variable {sc middle after : Stepcompress} {steps queued done rest further : List Step}
  {op : Operation} {moveClock : Int}

theorem runOperations_append (sc : Stepcompress) (first second : List Operation) :
    runOperations sc (first ++ second) =
      (runOperations sc first).bind (fun sc => runOperations sc second) := by
  induction first generalizing sc with
  | nil => rfl
  | cons op ops ih =>
    rw [cons_append, runOperations, runOperations]
    cases op.apply sc with
    | error failure => rfl
    | ok after => exact ih after

/-- What is left when a prefix has been emitted is admissible behind it. -/
theorem Admissible.left (admissible : Admissible sdsFilter sc.lastStepClock (done ++ rest))
    (emits : Emits sc after done) : Admissible sdsFilter after.lastStepClock rest where
  increasing := (pairwise_append.mp admissible.increasing).2.1
  behind := by
    intro step member
    apply emits.lastStepClock_lt
    · exact admissible.behind step (mem_append_right done member)
    · intro earlier isEarlier
      exact (pairwise_append.mp admissible.increasing).2.2 earlier isEarlier step member
  bounded := fun step member => admissible.bounded step (mem_append_right done member)
  reversals := admissible.reversals.right_of_append

theorem pending_of_zero (zero : sc.nextStepClock = 0) : sc.pending = [] := if_pos zero

theorem pending_of_ne_zero (nonzero : sc.nextStepClock ≠ 0) :
    sc.pending = [⟨sc.nextStepDir, sc.nextStepClock⟩] := if_neg nonzero

theorem Holds.waiting (holds : Holds sc steps) (zero : sc.nextStepClock = 0) : Waiting sc steps :=
  ⟨steps, by rw [pending_of_zero zero, append_nil], holds⟩

theorem queueAppend_waiting (holds : Holds sc queued) (nonzero : sc.nextStepClock ≠ 0)
    (admissible : Admissible sdsFilter sc.lastStepClock (queued ++ sc.pending ++ further))
    (ends : queueAppend sc = .ok after) :
    Advances sc after (queued ++ sc.pending) ∧ after.nextStepClock = 0 := by
  rw [pending_of_ne_zero nonzero] at admissible ⊢
  apply queueAppend_advances holds _ _ _ ends
  · intro step member
    have ordered := (pairwise_append.mp admissible.increasing).1
    exact (pairwise_append.mp ordered).2.2 step member _ (.head _)
  · exact admissible.behind ⟨sc.nextStepDir, sc.nextStepClock⟩ (by simp)
  · exact admissible.bounded ⟨sc.nextStepDir, sc.nextStepClock⟩ (by simp)

theorem stepcompressAppend_waiting {sdir : Bool} {stepClock : Int} (waiting : Waiting sc steps)
    (admissible : Admissible sc.sdsFilter sc.lastStepClock (steps ++ [⟨sdir, stepClock⟩]))
    (ends : stepcompressAppend sc sdir stepClock = .ok after) :
    ∃ done rest, steps ++ [⟨sdir, stepClock⟩] = done ++ rest ∧ Emits sc after done ∧
      Waiting after rest := by
  obtain ⟨queued, rfl, holds⟩ := waiting
  have nonneg := holds.queued.lastStepClock
  have behind := admissible.behind ⟨sdir, stepClock⟩ (by simp)
  have bounded := admissible.bounded ⟨sdir, stepClock⟩ (by simp)
  have nonzero : stepClock ≠ 0 := by
    intro zero
    rw [zero] at behind
    exact absurd behind (not_lt.mpr nonneg)
  unfold stepcompressAppend at ends
  split at ends
  · rename_i zero
    cases ends
    rw [pending_of_zero zero, append_nil]
    refine ⟨[], _, rfl, .nothing rfl rfl rfl rfl rfl rfl, queued, ?_, holds.congr rfl rfl rfl rfl⟩
    rw [pending_of_ne_zero nonzero]
    rfl
  · rename_i pends
    split at ends
    · -- A reversal inside the filter time is not admissible.
      rename_i filtered
      rw [pending_of_ne_zero pends, append_assoc] at admissible
      have ordered := (pairwise_append.mp admissible.increasing).2.1
      have pendsBelow := (pairwise_cons.mp ordered).1 ⟨sdir, stepClock⟩ (by simp)
      have pendsNonneg := admissible.behind ⟨sc.nextStepDir, sc.nextStepClock⟩ (by simp)
      have apart := (isChain_cons_cons.mp admissible.reversals.right_of_append).1
        (fun same => filtered.1 same.symm)
      have difference : i64 (stepClock - sc.nextStepClock) = stepClock - sc.nextStepClock := by
        simp only [i64, signed]
        dsimp only at pendsBelow pendsNonneg bounded
        omega
      rw [difference] at filtered
      exact absurd filtered.2 (not_lt.mpr apart)
    · obtain ⟨appended, appends, rfl⟩ := map_eq_ok ends
      obtain ⟨⟨done, rest, split, emits, holdsRest⟩, _⟩ :=
        queueAppend_waiting holds pends admissible appends
      refine ⟨done, rest ++ [⟨sdir, stepClock⟩], ?_,
        emits.then_nothing (.nothing rfl rfl rfl rfl rfl rfl), rest, ?_,
        holdsRest.congr rfl rfl rfl rfl⟩
      · rw [split, append_assoc]
      · rw [pending_of_ne_zero nonzero]

theorem stepcompressCommit_waiting (waiting : Waiting sc steps)
    (admissible : Admissible sc.sdsFilter sc.lastStepClock steps)
    (ends : stepcompressCommit sc = .ok after) :
    ∃ done rest, steps = done ++ rest ∧ Emits sc after done ∧ Waiting after rest := by
  unfold stepcompressCommit at ends
  split at ends
  · cases ends
    exact ⟨[], steps, rfl, .nothing rfl rfl rfl rfl rfl rfl, waiting⟩
  · rename_i pends
    obtain ⟨queued, rfl, holds⟩ := waiting
    rw [← append_nil (queued ++ sc.pending)] at admissible
    obtain ⟨⟨done, rest, split, emits, holdsRest⟩, cleared⟩ :=
      queueAppend_waiting holds pends admissible ends
    exact ⟨done, rest, split, emits, holdsRest.waiting cleared⟩

theorem rest_eq_nil (holds : Holds after rest) (stops : rest = [] ∨ moveClock ≤ after.lastStepClock)
    (reached : ∀ step ∈ rest, step.clock ≤ moveClock) : rest = [] := by
  rcases stops with empty | stopped
  · exact empty
  · cases rest with
    | nil => rfl
    | cons step rest =>
      have behind := holds.queued.after step.clock (mem_map_of_mem (.head _))
      have own := reached step (.head _)
      omega

theorem stepcompressFlush_waiting (waiting : Waiting sc steps)
    (admissible : Admissible sc.sdsFilter sc.lastStepClock steps)
    (ends : stepcompressFlush sc moveClock = .ok after) :
    ∃ done rest, steps = done ++ rest ∧ Emits sc after done ∧ Waiting after rest ∧
      ((∀ step ∈ steps, step.clock ≤ moveClock) → rest = []) := by
  obtain ⟨queued, rfl, holds⟩ := waiting
  obtain ⟨appended, appends, flushes⟩ := bind_eq_ok ends
  split at appends
  · rename_i pends
    rw [← append_nil (queued ++ sc.pending)] at admissible
    obtain ⟨⟨done, left, split, emits, holdsLeft⟩, cleared⟩ :=
      queueAppend_waiting holds pends.1 admissible appends
    obtain ⟨more, rest, rfl, isFlushed, stops⟩ :=
      queueFlush_flushed holdsLeft.queued holdsLeft.dirs flushes
    have holdsRest := isFlushed.holds holdsLeft.dirs
    refine ⟨done ++ more, rest, ?_, emits.trans isFlushed.emits,
      holdsRest.waiting (isFlushed.nextStepClock.trans cleared), ?_⟩
    · rw [split, append_assoc]
    · intro reached
      apply rest_eq_nil holdsRest stops
      intro step member
      apply reached
      rw [split]
      exact mem_append_right done (mem_append_right more member)
  · rename_i stays
    cases appends
    obtain ⟨done, rest, rfl, isFlushed, stops⟩ :=
      queueFlush_flushed holds.queued holds.dirs flushes
    have holdsRest := isFlushed.holds holds.dirs
    have samePending : after.pending = sc.pending := by
      unfold Stepcompress.pending
      rw [isFlushed.nextStepClock, isFlushed.nextStepDir]
    refine ⟨done, rest ++ sc.pending, append_assoc _ _ _, isFlushed.emits,
      ⟨rest, by rw [samePending], holdsRest⟩, ?_⟩
    intro reached
    have none : sc.pending = [] := by
      by_cases pends : sc.nextStepClock = 0
      · exact pending_of_zero pends
      · have own := reached ⟨sc.nextStepDir, sc.nextStepClock⟩ (by simp [pending_of_ne_zero pends])
        exact absurd ⟨pends, own⟩ stays
    rw [none, append_nil]
    apply rest_eq_nil holdsRest stops
    intro step member
    exact reached step (mem_append_left _ (mem_append_right done member))

/-- **One call** emits a prefix of the steps that wait for it. -/
theorem Operation.apply_waiting (waiting : Waiting sc steps)
    (admissible : Admissible sc.sdsFilter sc.lastStepClock (steps ++ op.requests))
    (ends : op.apply sc = .ok after) :
    ∃ done rest, steps ++ op.requests = done ++ rest ∧ Emits sc after done ∧ Waiting after rest ∧
      ∀ moveClock, op = .flush moveClock → (∀ step ∈ steps, step.clock ≤ moveClock) → rest = [] := by
  cases op with
  | append sdir stepClock =>
    obtain ⟨done, rest, split, emits, waitsRest⟩ :=
      stepcompressAppend_waiting waiting admissible ends
    exact ⟨done, rest, split, emits, waitsRest, nofun⟩
  | commit =>
    rw [Operation.requests, append_nil] at *
    obtain ⟨done, rest, split, emits, waitsRest⟩ :=
      stepcompressCommit_waiting waiting admissible ends
    exact ⟨done, rest, split, emits, waitsRest, nofun⟩
  | flush moveClock =>
    rw [Operation.requests, append_nil] at *
    obtain ⟨done, rest, split, emits, waitsRest, empty⟩ :=
      stepcompressFlush_waiting waiting admissible ends
    refine ⟨done, rest, split, emits, waitsRest, ?_⟩
    intro other isFlush
    cases isFlush
    exact empty

end Operations

structure Idle (sc : Stepcompress) : Prop where
  queue : sc.queue = []
  nextStepClock : sc.nextStepClock = 0
  lastStepClock : 0 ≤ sc.lastStepClock
  maxError : 0 ≤ sc.maxError

theorem Idle.waiting {sc : Stepcompress} (idle : Idle sc) : Waiting sc [] := by
  apply Holds.waiting _ idle.nextStepClock
  exact ⟨⟨idle.queue, idle.lastStepClock, idle.maxError, .nil, by simp, by simp, by simp⟩, by simp⟩

theorem Admissible.earlier {lastStepClock : Int} {first second : List Step}
    (admissible : Admissible sdsFilter lastStepClock (first ++ second)) :
    Admissible sdsFilter lastStepClock first where
  increasing := (pairwise_append.mp admissible.increasing).1
  behind := fun step member => admissible.behind step (mem_append_left second member)
  bounded := fun step member => admissible.bounded step (mem_append_left second member)
  reversals := admissible.reversals.left_of_append

theorem requested_append (first second : List Operation) :
    requested (first ++ second) = requested first ++ requested second :=
  flatMap_append

/-- A run emits a prefix of the steps requested so far; the others wait. -/
theorem runOperations_waiting {initial final : Stepcompress} {ops : List Operation}
    (idle : Idle initial)
    (admissible : Admissible initial.sdsFilter initial.lastStepClock (requested ops))
    (runs : runOperations initial ops = .ok final) :
    ∃ emitted rest, requested ops = emitted ++ rest ∧ Emits initial final emitted ∧
      Waiting final rest ∧
      ∀ earlier moveClock, ops = earlier ++ [.flush moveClock] →
        (∀ step ∈ requested ops, step.clock ≤ moveClock) → rest = [] := by
  induction ops using reverseRecOn generalizing final with
  | nil =>
    cases runs
    refine ⟨[], [], rfl, .nothing rfl rfl rfl rfl rfl rfl, idle.waiting, ?_⟩
    intro earlier moveClock isLast
    simp at isLast
  | append_singleton ops op ih =>
    rw [runOperations_append] at runs
    obtain ⟨middle, runsFirst, runsLast⟩ := bind_eq_ok runs
    obtain ⟨after, applies, isFinal⟩ := bind_eq_ok runsLast
    cases isFinal
    rw [requested_append] at admissible ⊢
    have single : requested [op] = op.requests := by simp [requested]
    rw [single] at admissible ⊢
    obtain ⟨early, waits, split, emitsEarly, waiting, _⟩ := ih admissible.earlier runsFirst
    rw [split, append_assoc] at admissible ⊢
    have left := admissible.left emitsEarly
    rw [← emitsEarly.sdsFilter] at left
    obtain ⟨done, rest, splitLast, emitsLast, waitsRest, empty⟩ :=
      Operation.apply_waiting waiting left applies
    refine ⟨early ++ done, rest, ?_, emitsEarly.trans emitsLast, waitsRest, ?_⟩
    · rw [splitLast, append_assoc]
    · intro earlier moveClock isLast reached
      obtain ⟨_, isFlush⟩ := append_inj' isLast rfl
      apply empty moveClock (cons.inj isFlush).1
      intro step member
      exact reached step (mem_append_right early (mem_append_left _ member))

/-- **Compression loses, duplicates and reorders nothing.** In a run of calls that all
return normally, from an idle compressor and with admissible step clocks, the emitted
messages ask for a prefix of the requested steps: one step for each, in order, in its
direction and in its window, or, for a step whose distance from the last one does not
fit in a word, with the low word of that distance. The other steps are in the queue or
pending, and none of them is left when the last call is a flush that reaches them. -/
theorem compression_realizes {initial final : Stepcompress} {ops : List Operation}
    (idle : Idle initial)
    (admissible : Admissible initial.sdsFilter initial.lastStepClock (requested ops))
    (runs : runOperations initial ops = .ok final) :
    ∃ messages emitted waiting,
      requested ops = emitted ++ (waiting ++ final.pending) ∧
      final.msgQueue = initial.msgQueue ++ messages ∧
      Realizes initial.maxError initial.lastStepClock initial.lastStepClock
        (expand initial.invertSdir initial.sdir messages) emitted final.lastStepClock ∧
      final.queue = waiting.map (fun step => u32 step.clock) ∧
      ∀ earlier moveClock, ops = earlier ++ [.flush moveClock] →
        (∀ step ∈ requested ops, step.clock ≤ moveClock) →
        waiting = [] ∧ final.pending = [] := by
  obtain ⟨emitted, rest, split, emits, ⟨queued, rfl, holds⟩, empty⟩ :=
    runOperations_waiting idle admissible runs
  obtain ⟨messages, isFinal, _, realizes⟩ := emits.messages
  refine ⟨messages, emitted, queued, split, isFinal, realizes _, ?_, ?_⟩
  · rw [holds.queued.queue, map_map]
    rfl
  · intro earlier moveClock isLast reached
    exact append_eq_nil_iff.mp (empty earlier moveClock isLast reached)

def freshCompressor : Stepcompress :=
  { queue := [], queuePos := 0, queueSize := 0, maxError := 25, lastStepClock := 0, msgQueue := []
    sdir := none, invertSdir := true, nextStepClock := 0, nextStepDir := false, lastPosition := 0
    historyList := [], sdsFilter := 100, historyExpire := 1000000 }

theorem freshCompressor_idle : Idle freshCompressor := by
  constructor <;> decide

def reversal : List Operation :=
  [.append true 1000, .append true 1900, .commit, .append false 3000, .flush 3000]

theorem compression_realizes_reversal :
    ∃ final messages, runOperations freshCompressor reversal = .ok final ∧
      final.msgQueue = messages ∧
      Realizes 25 0 0 (expand true none messages) [⟨true, 1000⟩, ⟨true, 1900⟩, ⟨false, 3000⟩]
        final.lastStepClock := by
  have completes : (runOperations freshCompressor reversal).isOk = true := by decide +kernel
  cases runs : runOperations freshCompressor reversal with
  | error failure =>
    rw [runs] at completes
    cases completes
  | ok final =>
    have admissible : Admissible 100 0 (requested reversal) := by constructor <;> decide
    obtain ⟨messages, emitted, waiting, split, isFinal, realizes, _, empty⟩ :=
      compression_realizes freshCompressor_idle admissible runs
    obtain ⟨none, noPending⟩ := empty [.append true 1000, .append true 1900, .commit,
      .append false 3000] 3000 rfl (by decide)
    rw [none, noPending, append_nil, append_nil] at split
    rw [← split] at realizes
    exact ⟨final, messages, rfl, isFinal, realizes⟩

/-- **The interval of a step is a word.** A first step `2 ^ 32 + 5` ticks after the last
one is emitted with an interval of 5: its expanded time is not in its window. -/
theorem compression_far_wraps :
    ∃ final, runOperations freshCompressor [.append true 4294967301, .flush 4294967301] = .ok final ∧
      expand true none final.msgQueue = [⟨some true, some 0, 5⟩] ∧
      ¬ InWindow 25 0 4294967301 5 := by
  refine ⟨_, rfl, ?_, ?_⟩
  · decide +kernel
  · unfold InWindow
    omega

end MagnetoX.Host.StepCompress
