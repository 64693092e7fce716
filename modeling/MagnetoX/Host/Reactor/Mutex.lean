import MagnetoX.Host.Reactor.Switching

/-!
Owns the guarantees of `ReactorMutex`: at most one greenlet has the lock, greenlets
get it in the order in which they ask for it, and the greenlet to which it is handed
will be resumed.
-/

namespace MagnetoX.Host.Reactor

open Library.Run List Option

/-- Free, held, or handed to the greenlet at the head of the queue. -/
inductive Phase (m : ReactorMutex) : Prop where
  | free (unlocked : m.isLocked = false) (settled : m.nextPending = false) (outside : m.inside = [])
      (empty : m.queue = [])
  | held (locked : m.isLocked = true) (settled : m.nextPending = false) (g : Nat) (inside : m.inside = [g])
  | handed (locked : m.isLocked = true) (pending : m.nextPending = true) (outside : m.inside = [])
      (filled : m.queue ≠ [])

structure Fair (s : State) : Prop where
  phase : Phase s.mutex
  order : s.mutex.arrivals = s.mutex.acquired ++ s.mutex.queue
  once : s.mutex.queue.Nodup
  waits : ∀ g ∈ s.mutex.queue, s.reactor.mode g = .waiting
  due : s.mutex.nextPending = true → ∀ g ∈ s.mutex.queue.head?, ∀ timer, s.reactor.timer g = some timer →
    s.reactor.waketime timer = NOW

structure Sound (s : State) : Prop where
  wired : s.reactor.Wired
  seen : s.reactor.Seen s.reactor.control.remaining
  fair : Fair s

/-- Once the lock is to be handed on, it is with the queue. -/
theorem Phase.pending {m : ReactorMutex} (phase : Phase m) (pending : m.nextPending = true) :
    m.isLocked = true ∧ m.inside = [] ∧ m.queue ≠ [] := by
  cases phase with
  | free _ settled => exact absurd (settled.symm.trans pending) (by decide)
  | held _ settled => exact absurd (settled.symm.trans pending) (by decide)
  | handed locked _ outside filled => exact ⟨locked, outside, filled⟩

variable {s after : State} {g timer eventtime : Nat} {rest : List Nat} {call : Call}
  {reactor : SelectReactor}

theorem Fair.frame (fair : Fair s)
    (waits : ∀ g ∈ s.mutex.queue, s.reactor.mode g = .waiting → reactor.mode g = .waiting)
    (keeps : s.mutex.nextPending = true → ∀ g ∈ s.mutex.queue.head?, s.reactor.Keeps reactor g) :
    Fair { s with reactor } where
  phase := fair.phase
  order := fair.order
  once := fair.once
  waits g isQueued := waits g isQueued (fair.waits g isQueued)
  due pending g isFirst timer isOwn := by
    have waiting := fair.waits g (mem_of_mem_head? isFirst)
    obtain ⟨-, same, due⟩ := keeps pending g isFirst waiting
    have isTheirs := same.symm.trans isOwn
    exact due timer isTheirs (fair.due pending g isFirst timer isTheirs)

theorem Sound.proceed (sound : Sound s) (continues : s.reactor.Continues reactor) :
    Sound { s with reactor } where
  wired := continues.wired
  seen := continues.seen
  fair := sound.fair.frame (fun g _ waits => (continues.keeps g waits).1) (fun _ g _ => continues.keeps g)

theorem Sound.enterFree (sound : Sound s) (unlocked : s.mutex.isLocked = false) (g : Nat) :
    Sound { s with mutex := s.mutex.enterFree g } := by
  obtain ⟨wired, seen, fair⟩ := sound
  cases fair.phase with
  | free _ settled outside empty =>
    have order := fair.order
    rw [empty, append_nil] at order
    refine ⟨wired, seen, ⟨.held rfl settled g ?_, ?_, fair.once, fair.waits, ?_⟩⟩
    · exact congrArg (· ++ [g]) outside
    · change s.mutex.arrivals ++ [g] = s.mutex.acquired ++ [g] ++ s.mutex.queue
      rw [order, empty, append_nil]
    · intro pending
      exact absurd (settled.symm.trans pending) (by decide)
  | held locked => exact absurd (unlocked.symm.trans locked) (by decide)
  | handed locked => exact absurd (unlocked.symm.trans locked) (by decide)

/-- A greenlet finds the mutex locked, and waits behind those that do. -/
theorem Sound.enqueue (sound : Sound s) (locked : s.mutex.isLocked = true) (runs : s.reactor.control = .run g call) :
    Sound ⟨s.reactor.pause g call .waiting NEVER, s.mutex.enqueue g⟩ := by
  obtain ⟨wired, seen, fair⟩ := sound
  have continues := wired.continues_pause seen runs (.inr rfl) NEVER
  have fresh : g ∉ s.mutex.queue := fun isQueued => wired.mode_ne_waiting runs (fair.waits g isQueued)
  refine ⟨continues.wired, continues.seen, ⟨?_, ?_, ?_, ?_, ?_⟩⟩
  · cases fair.phase with
    | free unlocked => exact absurd (unlocked.symm.trans locked) (by decide)
    | held _ settled owner inside => exact .held locked settled owner inside
    | handed _ pending outside filled => exact .handed locked pending outside (by simp [ReactorMutex.enqueue])
  · change s.mutex.arrivals ++ [g] = s.mutex.acquired ++ (s.mutex.queue ++ [g])
    rw [fair.order, append_assoc]
  · refine nodup_append.mpr ⟨fair.once, by simp, ?_⟩
    intro other isQueued last isLast
    rw [mem_singleton.mp isLast]
    rintro rfl
    exact fresh isQueued
  · intro other isQueued
    rcases mem_append.mp isQueued with before | isLast
    · exact (continues.keeps other (fair.waits other before)).1
    · rw [mem_singleton.mp isLast]
      exact wired.mode_pause runs (.inr (.inr rfl)) NEVER
  · intro pending other isFirst
    obtain ⟨-, -, filled⟩ := fair.phase.pending pending
    have isFirst : other ∈ s.mutex.queue.head? := by
      obtain ⟨ahead, behind, isQueue⟩ := exists_cons_of_ne_nil filled
      simp only [ReactorMutex.enqueue, isQueue, cons_append, head?_cons] at isFirst ⊢
      exact isFirst
    exact (fair.frame (fun g _ waits => (continues.keeps g waits).1) (fun _ g _ => continues.keeps g)).due pending
      other isFirst

theorem Sound.lock (sound : Sound s) (runs : s.reactor.control = .run g call) : Sound (s.lock g call) := by
  unfold State.lock
  split
  case isTrue unlocked => exact sound.enterFree unlocked g
  case isFalse locked => exact sound.enqueue (Bool.not_eq_false _ ▸ locked) runs

/-- The greenlet that has the lock is the only one. -/
theorem Fair.inside_eq (fair : Fair s) (inside : g ∈ s.mutex.inside) :
    s.mutex.inside = [g] ∧ s.mutex.isLocked = true ∧ s.mutex.nextPending = false := by
  cases fair.phase with
  | free _ _ outside =>
    rw [outside] at inside
    cases inside
  | held locked settled owner isInside =>
    rw [isInside, mem_singleton] at inside
    exact ⟨inside ▸ isInside, locked, settled⟩
  | handed _ _ outside =>
    rw [outside] at inside
    cases inside

/-- The greenlet that is to get the lock is due, and `_check_timers` will find it. -/
def Due (s : State) (g : Nat) : Prop :=
  ∃ timer ∈ s.reactor.timers, s.reactor.timer g = some timer ∧ s.reactor.switches timer = some g ∧
    s.reactor.waketime timer = NOW ∧ (s.reactor.nextTimer = NOW ∨ timer ∈ s.reactor.control.remaining)

theorem Sound.due (sound : Sound s) (pending : s.mutex.nextPending = true) (isFirst : g ∈ s.mutex.queue.head?) : Due s g := by
  obtain ⟨wired, seen, fair⟩ := sound
  have waits := fair.waits g (mem_of_mem_head? isFirst)
  obtain ⟨timer, isTimer, isOwn, switches⟩ := wired.timed.owned g (.inr (.inr waits))
  have due := fair.due pending g isFirst timer isOwn
  refine ⟨timer, isTimer, isOwn, switches, due, ?_⟩
  rcases seen.seen timer isTimer with early | remains
  · rw [due] at early
    exact .inl (Nat.le_zero.mp early)
  · exact .inr remains

/-- A lock is given back, or handed on. -/
theorem Sound.unlock (sound : Sound s) (inside : g ∈ s.mutex.inside) :
    ∃ after, s.unlock g = some after ∧ Sound after ∧ after.mutex.queue = s.mutex.queue ∧ after.mutex.inside = [] ∧
      (s.mutex.queue ≠ [] → after.mutex.nextPending = true) := by
  obtain ⟨wired, seen, fair⟩ := sound
  obtain ⟨isInside, locked, settled⟩ := fair.inside_eq inside
  have outside : s.mutex.inside.erase g = [] := by simp [isInside]
  unfold State.unlock
  split
  case h_1 empty =>
    refine ⟨_, rfl, ⟨wired, seen, ⟨.free rfl settled outside empty, fair.order, fair.once, fair.waits, ?_⟩⟩, rfl,
      outside, ?_⟩
    · intro pending
      exact absurd (settled.symm.trans pending) (by decide)
    · exact fun filled => absurd empty filled
  case h_2 ahead behind isQueue =>
    have waits := fair.waits ahead (by simp [isQueue])
    obtain ⟨timer, isTimer, isOwn, -⟩ := wired.timed.owned ahead (.inr (.inr waits))
    rw [isOwn]
    refine ⟨_, rfl, ⟨wired.setWaketime timer NOW (.inl isTimer) _, seen.updateTimer timer NOW,
      ⟨.handed locked rfl outside (by simp [ReactorMutex.exitNext, isQueue]), fair.order, fair.once, fair.waits, ?_⟩⟩,
      rfl, outside, fun _ => rfl⟩
    intro _ other isFirst own isTheirs
    change other ∈ s.mutex.queue.head? at isFirst
    rw [isQueue] at isFirst
    cases isFirst
    have same : timer = own := some.inj (isOwn.symm.trans isTheirs)
    rw [← same]
    exact Function.update_self _ _ _

theorem Sound.enterNext (sound : Sound s) (scans : s.reactor.control = .scan eventtime (timer :: rest))
    (isOwn : s.reactor.timer g = some timer) (pending : s.mutex.nextPending = true)
    (isFirst : s.mutex.queue.head? = some g) :
    Sound ⟨s.reactor.switchTo g timer eventtime rest, s.mutex.enterNext g⟩ := by
  obtain ⟨wired, seen, fair⟩ := sound
  obtain ⟨behind, isQueue⟩ := head?_eq_some_iff.mp isFirst
  have waits := fair.waits g (by simp [isQueue])
  have once := fair.once
  rw [scans] at seen
  rw [isQueue, nodup_cons] at once
  have due := seen.due
  refine ⟨wired.switchTo scans (.inr (.inr waits)) isOwn, { due with }, ⟨?_, ?_, ?_, ?_, nofun⟩⟩
  · obtain ⟨locked, outside, -⟩ := fair.phase.pending pending
    exact .held locked rfl g (congrArg (· ++ [g]) outside)
  · change s.mutex.arrivals = s.mutex.acquired ++ [g] ++ s.mutex.queue.tail
    rw [fair.order, isQueue, append_assoc]
    rfl
  · change s.mutex.queue.tail.Nodup
    rw [isQueue]
    exact once.2
  · intro other isQueued
    change other ∈ s.mutex.queue.tail at isQueued
    rw [isQueue] at isQueued
    have different : other ≠ g := by
      rintro rfl
      exact once.1 isQueued
    refine (Function.update_of_ne different _ _).trans (fair.waits other ?_)
    rw [isQueue]
    exact .tail _ isQueued

/-- A greenlet of the queue is resumed before it is its turn. -/
theorem Sound.pauseAgain (sound : Sound s) (scans : s.reactor.control = .scan eventtime (timer :: rest))
    (isTimer : timer ∈ s.reactor.timers) (switches : s.reactor.switches timer = some g)
    (early : ¬(s.mutex.nextPending = true ∧ s.mutex.queue.head? = some g)) :
    Sound { s with reactor := s.reactor.returned timer NEVER eventtime rest } := by
  obtain ⟨wired, seen, fair⟩ := sound
  have inControl : SelectReactor.Scans _ _ _ := wired.inControl_of scans
  rw [scans] at seen
  have quiet := wired.quiet (by simp [scans])
  have moved := wired.setWaketime timer NEVER (.inl isTimer) s.reactor.nextTimer
  refine ⟨moved.move (.scan eventtime rest) _ quiet inControl.tail, seen.returned, fair.frame (fun _ _ waits => waits) ?_⟩
  intro pending other isFirst
  have different : other ≠ g := by
    rintro rfl
    exact early ⟨pending, isFirst⟩
  refine wired.timed.keeps_updateTimer (.inl ?_)
  rw [switches]
  exact fun same => different (some.inj same).symm

open SelectReactor

theorem Sound.switchTo (sound : Sound s) (scans : s.reactor.control = .scan eventtime (timer :: rest))
    (switches : s.reactor.switches timer = some g) (isOwn : s.reactor.timer g = some timer)
    (inUse : (s.reactor.mode g).InUse) (elsewhere : s.reactor.mode g ≠ .waiting) :
    Sound { s with reactor := s.reactor.switchTo g timer eventtime rest } := by
  obtain ⟨wired, seen, fair⟩ := sound
  rw [scans] at seen
  have due := seen.due
  have keeps : ∀ other, s.reactor.Keeps (s.reactor.switchTo g timer eventtime rest) other := by
    intro other waits
    have different : other ≠ g := by
      rintro rfl
      exact elsewhere waits
    have updates : s.reactor.Keeps (s.reactor.updateTimer timer NEVER) other := by
      refine wired.timed.keeps_updateTimer (.inl ?_)
      rw [switches]
      exact fun same => different (some.inj same).symm
    exact (updates.trans (keeps_setMode (s.reactor.updateTimer timer NEVER) g .active elsewhere)) waits
  exact ⟨wired.switchTo scans inUse isOwn, { due with },
    fair.frame (fun other _ waits => (keeps other waits).1) (fun _ other _ => keeps other)⟩

theorem Sound.visit (sound : Sound s) (scans : s.reactor.control = .scan eventtime (timer :: rest)) :
    Sound (s.visit timer eventtime rest) := by
  have wired := sound.wired
  have inControl : SelectReactor.Scans _ _ _ := wired.inControl_of scans
  have quiet := wired.quiet (by simp [scans])
  have seen := sound.seen
  rw [scans] at seen
  unfold State.visit
  split
  case isTrue due =>
    split
    case h_1 plain =>
      have later := seen.due
      refine sound.proceed ⟨wired.invoke scans plain, { later with }, ?_⟩
      exact fun _ => wired.timed.keeps_updateTimer (.inl (by simp [plain]))
    case h_2 g switches =>
      obtain ⟨isTimer, isOwn, inUse⟩ := wired.owner_of_due scans due switches
      unfold State.resume
      split
      · split
        case isTrue turn => exact sound.enterNext scans isOwn turn.1 turn.2
        case isFalse early => exact sound.pauseAgain scans isTimer switches early
      case isFalse elsewhere => exact sound.switchTo scans switches isOwn inUse elsewhere
  case isFalse =>
    refine sound.proceed ⟨wired.move (.scan eventtime rest) _ quiet inControl.tail, seen.skip, ?_⟩
    exact fun _ waits => ⟨waits, rfl, fun _ _ due => due⟩

theorem wired_initial : initial.Wired := by
  have unpaused : ∀ g, ¬(initial.mode g).InUse := by
    intro g
    simp only [initial, Mode.InUse]
    grind
  refine ⟨⟨by rintro _ ⟨⟩, nodup_nil, by rintro _ ⟨⟩, fun g inUse => absurd inUse (unpaused g), by rintro _ _ ⟨⟩,
    fun g _ inUse => absurd inUse (unpaused g)⟩, ⟨by rintro _ ⟨⟩, nodup_nil, ?_⟩, rfl, trivial,
    fun g isActive => absurd (.inl isActive) (unpaused g)⟩
  intro g atLeast
  exact if_neg (Nat.ne_of_gt atLeast)

theorem sound_of_begins (begins : Begins s) : Sound s := by
  have seen : initial.Seen [] := ⟨le_rfl, nofun⟩
  rcases begins with rfl | ⟨g, rfl⟩
  · exact ⟨wired_initial, seen, ⟨.free rfl rfl rfl rfl, rfl, nodup_nil, nofun, nofun⟩⟩
  · exact ⟨wired_initial, seen, ⟨.held rfl rfl g rfl, rfl, nodup_nil, nofun, nofun⟩⟩

theorem Sound.move (sound : Sound s)
    (elsewhere : ∀ g timer eventtime remaining, s.reactor.control ≠ .run g (.switch timer eventtime remaining))
    {control : Control} {nextTimer : Nat} (inControl : s.reactor.InControl control)
    (seen : { s.reactor with nextTimer, control }.Seen control.remaining) :
    Sound { s with reactor := { s.reactor with nextTimer, control } } :=
  sound.proceed ⟨sound.wired.move control nextTimer (sound.wired.quiet elsewhere) inControl, seen,
    fun _ waits => ⟨waits, rfl, fun _ _ due => due⟩⟩

theorem Sound.checkTimers (sound : Sound s) (idle : s.reactor.control = .loop) (time : eventtime < NEVER) :
    Sound { s with reactor := s.reactor.checkTimers eventtime } := by
  unfold SelectReactor.checkTimers
  split
  · exact sound
  · refine sound.move (by simp [idle]) ⟨time, sound.wired.timed.below⟩ ?_
    exact ⟨le_rfl, fun _ isTimer => .inr isTimer⟩

theorem Sound.step (sound : Sound s) {input : Input} (moves : step s input = some after) : Sound after := by
  have seen := sound.seen
  unfold Reactor.step at moves
  split at moves
  case h_1 idle =>
    cases input with
    | checkTimers eventtime =>
      dsimp only at moves
      split at moves
      case isTrue time =>
        cases moves
        exact sound.checkTimers idle time
      · cases moves
    | readCallback =>
      cases moves
      rw [idle] at seen
      exact sound.move (by simp [idle]) rfl { seen with }
    | _ => cases moves
  case h_2 eventtime remaining scans =>
    split at moves
    · cases moves
      rw [scans] at seen
      exact sound.move (by simp [scans]) trivial { seen with }
    · cases moves
      exact sound.visit scans
    · cases moves
  case h_3 g call runs =>
    split at moves
    · cases moves
      exact sound.lock runs
    · split at moves
      case isTrue inside =>
        obtain ⟨next, unlocks, soundNext, -⟩ := sound.unlock inside
        rw [unlocks] at moves
        cases moves
        exact soundNext
      · cases moves
    · obtain ⟨reactor, continues, rfl⟩ := map_eq_some_iff.mp moves
      exact sound.proceed (sound.wired.continues_step seen runs continues)

theorem sound_of_reachable (reached : Reachable Begins step s) : Sound s :=
  reached.induct_invariant (fun _ begins _ => sound_of_begins begins)
    (fun _ _ _ _ _ moves sound => sound.step moves)

/-- The timer of the greenlet to which the lock is handed is looked at. -/
theorem Sound.visit_enters (sound : Sound s) (scans : s.reactor.control = .scan eventtime (timer :: rest))
    (pending : s.mutex.nextPending = true) (isFirst : s.mutex.queue.head? = some g)
    (isOwn : s.reactor.timer g = some timer) :
    ∃ after, Reactor.step s .visit = some after ∧ after.mutex.inside = [g] := by
  obtain ⟨own, -, isTheirs, switches, due, -⟩ := sound.due pending isFirst
  have same : own = timer := some.inj (isTheirs.symm.trans isOwn)
  rw [same] at switches due
  have waits := sound.fair.waits g (mem_of_mem_head? isFirst)
  have outside := (sound.fair.phase.pending pending).2.1
  have early : s.reactor.waketime timer ≤ eventtime := due ▸ Nat.zero_le eventtime
  have visits : s.visit timer eventtime rest =
      ⟨s.reactor.switchTo g timer eventtime rest, s.mutex.enterNext g⟩ := by
    rw [State.visit, if_pos early, switches]
    exact (if_pos waits).trans (if_pos ⟨pending, isFirst⟩)
  refine ⟨s.visit timer eventtime rest, ?_, ?_⟩
  · simp only [Reactor.step, scans]
  · rw [visits]
    exact congrArg (· ++ [g]) outside

/-- **The mutex.** At most one greenlet is between `lock` and `unlock`. The calls of
`lock` that have returned are the first ones that were made, in order, and the others
are those of the queue. If greenlets wait, one has the lock, or the first of them is
due, and it gets the lock once `_check_timers` looks at its timer. It is due after
every `unlock`, which does not fail. -/
theorem mutex_fair (reached : Reachable Begins step s) :
    s.mutex.inside.length ≤ 1 ∧ s.mutex.arrivals = s.mutex.acquired ++ s.mutex.queue ∧
      (∀ ahead ∈ s.mutex.queue.head?, s.mutex.inside ≠ [] ∨ Due s ahead ∧
        ∀ timer eventtime rest, s.reactor.timer ahead = some timer →
          s.reactor.control = .scan eventtime (timer :: rest) →
          ∃ after, step s .visit = some after ∧ after.mutex.inside = [ahead]) ∧
      ∀ g call, s.reactor.control = .run g call → g ∈ s.mutex.inside → ∃ after, step s .unlock = some after ∧
        after.mutex.queue = s.mutex.queue ∧ after.mutex.inside = [] ∧ ∀ ahead ∈ s.mutex.queue.head?, Due after ahead := by
  have sound := sound_of_reachable reached
  refine ⟨?_, sound.fair.order, ?_, ?_⟩
  · cases sound.fair.phase with
    | free _ _ outside => simp [outside]
    | held _ _ g inside => simp [inside]
    | handed _ _ outside => simp [outside]
  · intro ahead isFirst
    cases sound.fair.phase with
    | free _ _ _ empty =>
      rw [empty] at isFirst
      cases isFirst
    | held _ _ g inside => exact .inl (by simp [inside])
    | handed _ pending =>
      refine .inr ⟨sound.due pending isFirst, ?_⟩
      intro timer eventtime rest isOwn scans
      exact sound.visit_enters scans pending isFirst isOwn
  · intro g call runs inside
    obtain ⟨after, unlocks, soundAfter, sameQueue, outside, hands⟩ := sound.unlock inside
    refine ⟨after, ?_, sameQueue, outside, ?_⟩
    · simp only [Reactor.step, runs, if_pos inside]
      exact unlocks
    · intro ahead isFirst
      have filled : s.mutex.queue ≠ [] := by
        rintro empty
        rw [empty] at isFirst
        cases isFirst
      exact soundAfter.due (hands filled) (sameQueue ▸ isFirst)

/-- One greenlet has the lock, two wait for it, and it is handed to the first of them. -/
theorem mutex_fair_handed :
    ∃ s, Reachable Begins step s ∧ s.mutex.queue = [1, 2] ∧ s.mutex.inside = [] ∧ s.mutex.inside.length ≤ 1 ∧
      s.mutex.arrivals = [0] ++ [1, 2] := by
  obtain ⟨s, reached, queue, inside, acquired⟩ := exists_reachable Begins step
    ⟨.initial, ⟨false, false, [], [], [], []⟩⟩ (.inl rfl)
    [.readCallback, .lock, .pause 5, .readCallback, .lock, .readCallback, .lock, .checkTimers 7, .visit, .unlock]
    (fun s => s.mutex.queue = [1, 2] ∧ s.mutex.inside = [] ∧ s.mutex.acquired = [0]) (by decide +kernel)
  obtain ⟨exclusive, order, -⟩ := mutex_fair reached
  rw [queue, acquired] at order
  exact ⟨s, reached, queue, inside, exclusive, order⟩

end MagnetoX.Host.Reactor
