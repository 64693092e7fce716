import MagnetoX.Host.Reactor.Model

/-!
Owns what the reactor keeps while greenlets switch: every greenlet that is in a
callback which has paused has a timer of its own, and `_check_timers` does not miss a
timer.
-/

namespace MagnetoX.Host.Reactor

open List

def Mode.InUse (mode : Mode) : Prop := mode = .active ∨ mode = .paused ∨ mode = .waiting

theorem Mode.InUse.ne {mode : Mode} (inUse : mode.InUse) :
    mode ≠ .dispatching ∧ mode ≠ .cached ∧ mode ≠ .unused := by
  rcases inUse with rfl | rfl | rfl
  · decide
  · decide
  · decide

def Control.remaining : Control → List Nat
  | .scan _ remaining => remaining
  | .run _ (.callback _ _ remaining) => remaining
  | .run _ (.switch _ _ remaining) => remaining
  | _ => []

namespace SelectReactor

structure Scans (timerCount eventtime : Nat) (remaining : List Nat) : Prop where
  time : eventtime < NEVER
  below : ∀ timer ∈ remaining, timer < timerCount

def InControl (r : SelectReactor) : Control → Prop
  | .loop => True
  | .scan eventtime remaining => Scans r.timerCount eventtime remaining
  | .run g .readCallback => g = r.gDispatch
  | .run g (.callback timer eventtime remaining) =>
      g = r.gDispatch ∧ (r.switches timer = none ∧ timer < r.timerCount) ∧ Scans r.timerCount eventtime remaining
  | .run g (.switch timer eventtime remaining) =>
      r.mode g = .active ∧ r.timer g = some timer ∧ Scans r.timerCount eventtime remaining

/-- Every greenlet whose callback has paused has a timer of its own. -/
structure Timed (r : SelectReactor) : Prop where
  below : ∀ timer ∈ r.timers, timer < r.timerCount
  once : r.timers.Nodup
  owner : ∀ timer ∈ r.timers, ∀ g, r.switches timer = some g → r.timer g = some timer ∧ (r.mode g).InUse
  owned : ∀ g, (r.mode g).InUse → ∃ timer ∈ r.timers, r.timer g = some timer ∧ r.switches timer = some g
  parked : ∀ timer g, r.switches timer = some g → timer ∉ r.timers → r.waketime timer = NEVER
  base : ∀ g timer, (r.mode g).InUse → r.base g = some timer → r.switches timer = none ∧ timer < r.timerCount

structure Spare (r : SelectReactor) : Prop where
  cached : ∀ g ∈ r.greenlets, r.mode g = .cached
  once : r.greenlets.Nodup
  unused : ∀ g, r.greenletCount ≤ g → r.mode g = .unused

structure Wired (r : SelectReactor) : Prop where
  timed : r.Timed
  spare : r.Spare
  dispatch : r.mode r.gDispatch = .dispatching
  inControl : r.InControl r.control
  active : ∀ g, r.mode g = .active → ∃ timer eventtime remaining,
    r.control = .run g (.switch timer eventtime remaining)

/-- No timer is missed: `_next_timer` is not behind it, or it is still to be looked
at. -/
structure Seen (r : SelectReactor) (remaining : List Nat) : Prop where
  next : r.nextTimer ≤ NEVER
  seen : ∀ timer ∈ r.timers, r.nextTimer ≤ r.waketime timer ∨ timer ∈ remaining

def Keeps (r after : SelectReactor) (g : Nat) : Prop :=
  r.mode g = .waiting → after.mode g = .waiting ∧ after.timer g = r.timer g ∧
    ∀ timer, r.timer g = some timer → r.waketime timer = NOW → after.waketime timer = NOW

variable {r : SelectReactor} {remaining rest : List Nat} {timer waketime eventtime g : Nat}

theorem Scans.tail {timerCount : Nat} (scans : Scans timerCount eventtime (timer :: rest)) :
    Scans timerCount eventtime rest :=
  ⟨scans.time, fun other member => scans.below other (.tail _ member)⟩

/-! ### No timer is missed -/

open Function

theorem Seen.updateTimer (seen : r.Seen remaining) (timer waketime : Nat) :
    (r.updateTimer timer waketime).Seen remaining where
  next := (Nat.min_le_left _ _).trans seen.next
  seen := by
    have before := seen.seen
    simp only [SelectReactor.updateTimer, update_apply]
    grind

theorem Seen.registerTimer (seen : r.Seen remaining) (target : Option Nat) (waketime : Nat) :
    (r.registerTimer target waketime).Seen remaining where
  next := (Nat.min_le_left _ _).trans seen.next
  seen := by
    have before := seen.seen
    simp only [SelectReactor.registerTimer, update_apply]
    grind

theorem Seen.unregisterTimer (seen : r.Seen remaining) (timer : Nat) : (r.unregisterTimer timer).Seen remaining where
  next := seen.next
  seen := by
    intro other isTimer
    have before := seen.seen other (mem_of_mem_erase isTimer)
    have next := seen.next
    simp only [SelectReactor.unregisterTimer, update_apply]
    grind

/-- A timer that is due is done with, whatever it will be set to. -/
theorem Seen.due (seen : r.Seen (timer :: rest)) :
    { r with waketime := update r.waketime timer NEVER }.Seen rest where
  next := seen.next
  seen := by
    have before := seen.seen
    have next := seen.next
    simp only [update_apply]
    grind

theorem Seen.skip (seen : r.Seen (timer :: rest)) : (r.skip timer eventtime rest).Seen rest where
  next := (Nat.min_le_left _ _).trans seen.next
  seen := by
    have before := seen.seen
    simp only [SelectReactor.skip]
    grind

theorem Seen.returned (seen : r.Seen (timer :: rest)) : (r.returned timer NEVER eventtime rest).Seen rest where
  next := (Nat.min_le_left _ _).trans seen.next
  seen := by
    have before := seen.seen
    simp only [SelectReactor.returned, SelectReactor.updateTimer, update_apply]
    grind

theorem Seen.dispatchNext (seen : r.Seen remaining) : r.dispatchNext.Seen remaining := by
  unfold SelectReactor.dispatchNext
  split
  · exact { seen with }
  · exact { seen with }

theorem seen_pauseDispatch (r : SelectReactor) (g : Nat) (base : Option Nat) (mode : Mode) (waketime : Nat) :
    (r.pauseDispatch g base mode waketime).Seen [] := by
  refine Seen.dispatchNext ⟨Nat.zero_le _, fun _ _ => .inl (Nat.zero_le _)⟩

/-! ### Timers of greenlets -/

theorem Timed.setWaketime (timed : r.Timed) (timer waketime : Nat)
    (owned : timer ∈ r.timers ∨ r.switches timer = none ∨ waketime = NEVER) (nextTimer : Nat) :
    { r with waketime := update r.waketime timer waketime, nextTimer }.Timed :=
  { timed with
    parked := by
      have parked := timed.parked
      simp only [update_apply]
      grind }

theorem Timed.registerTimer (timed : r.Timed) (waketime : Nat) : (r.registerTimer none waketime).Timed := by
  obtain ⟨below, once, owner, owned, parked, base⟩ := timed
  constructor <;> simp only [SelectReactor.registerTimer, update_apply] <;> grind

theorem Timed.unregisterTimer (timed : r.Timed) (plain : r.switches timer = none) : (r.unregisterTimer timer).Timed where
  below other isTimer := timed.below other (mem_of_mem_erase isTimer)
  once := timed.once.erase timer
  owner other isTimer := timed.owner other (mem_of_mem_erase isTimer)
  owned := by
    intro g inUse
    obtain ⟨other, isTimer, isOwn, switches⟩ := timed.owned g inUse
    have different : other ≠ timer := by
      rintro rfl
      rw [plain] at switches
      cases switches
    exact ⟨other, (mem_erase_of_ne different).mpr isTimer, isOwn, switches⟩
  parked := by
    have parked := timed.parked
    simp only [SelectReactor.unregisterTimer, update_apply]
    grind
  base := timed.base

theorem Timed.owns (timed : r.Timed) (inUse : (r.mode g).InUse) (isOwn : r.timer g = some timer) :
    timer ∈ r.timers ∧ r.switches timer = some g := by
  obtain ⟨own, isTimer, isTheirs, switches⟩ := timed.owned g inUse
  have same : own = timer := Option.some.inj (isTheirs.symm.trans isOwn)
  rw [same] at isTimer switches
  exact ⟨isTimer, switches⟩

variable {mode : Mode} {other : Nat} {base : Option Nat}

theorem Timed.setMode (timed : r.Timed) (same : mode.InUse ↔ (r.mode g).InUse) :
    (r.setMode g mode).Timed := by
  obtain ⟨below, once, owner, owned, parked, base⟩ := timed
  constructor <;> simp only [SelectReactor.setMode, update_apply] <;> grind

theorem Timed.begin (timed : r.Timed) (before : ¬(r.mode g).InUse)
    (inUse : mode.InUse) (plain : ∀ timer ∈ base, r.switches timer = none ∧ timer < r.timerCount)
    (waketime : Nat) : (r.beginPause g base mode waketime).Timed := by
  obtain ⟨below, once, owner, owned, parked, base⟩ := timed
  refine ⟨?_, ?_, ?_, ?_, ?_, ?_⟩ <;>
    simp only [beginPause, SelectReactor.registerTimer, SelectReactor.setMode, update_apply]
  · grind
  · grind
  · grind
  · intro other isUsed
    by_cases isNew : other = g
    · exact ⟨r.timerCount, by simp, by simp [isNew], by simp [isNew]⟩
    · rw [if_neg isNew] at isUsed ⊢
      obtain ⟨timer, isTimer, isOwn, switches⟩ := owned other isUsed
      exact ⟨timer, mem_append_left _ isTimer, isOwn, by grind⟩
  · grind
  · grind

theorem Timed.end (timed : r.Timed) (inUse : (r.mode g).InUse) (isOwn : r.timer g = some timer) :
    (r.endGreenlet g timer).Timed := by
  obtain ⟨below, once, owner, owned, parked, base⟩ := timed
  have notInUse : ¬Mode.cached.InUse := by simp [Mode.InUse]
  constructor <;> simp only [endGreenlet, SelectReactor.unregisterTimer, SelectReactor.setMode, update_apply] <;>
    grind

/-! ### Spare greenlets -/

theorem ne_of_mode {first second : Mode} (isFirst : r.mode g = first)
    (isSecond : r.mode other = second) (different : first ≠ second) : g ≠ other := by
  rintro rfl
  exact different (isFirst.symm.trans isSecond)

theorem Spare.setMode (spare : r.Spare) (kept : ∀ other ∈ r.greenlets, other ≠ g)
    (below : g < r.greenletCount) : (r.setMode g mode).Spare where
  cached := by
    intro other isCached
    simp only [SelectReactor.setMode, update_of_ne (kept other isCached)]
    exact spare.cached other isCached
  once := spare.once
  unused := by
    intro other atLeast
    have different : other ≠ g := by
      rintro rfl
      exact absurd below (Nat.not_lt.mpr atLeast)
    simp only [SelectReactor.setMode, update_of_ne different]
    exact spare.unused other atLeast

theorem Spare.apart (spare : r.Spare) (uncached : r.mode g ≠ .cached) (used : r.mode g ≠ .unused) :
    (∀ other ∈ r.greenlets, other ≠ g) ∧ g < r.greenletCount := by
  constructor
  · rintro other isCached rfl
    exact uncached (spare.cached other isCached)
  · by_contra beyond
    exact used (spare.unused g (Nat.not_lt.mp beyond))

theorem Spare.endGreenlet (spare : r.Spare) (inUse : (r.mode g).InUse) (timer : Nat) : (r.endGreenlet g timer).Spare := by
  obtain ⟨-, uncached, used⟩ := inUse.ne
  obtain ⟨apart, below⟩ := spare.apart uncached used
  have other : (r.setMode g .cached).Spare := spare.setMode apart below
  refine ⟨?_, ?_, other.unused⟩
  · intro next isCached
    rcases mem_append.mp isCached with before | isLast
    · exact other.cached next before
    · rw [mem_singleton.mp isLast]
      exact update_self _ _ _
  · simpa [SelectReactor.endGreenlet, SelectReactor.unregisterTimer, nodup_append] using ⟨spare.once, apart⟩

theorem Timed.dispatch (timed : r.Timed) (isSpare : r.mode g = .cached ∨ r.mode g = .unused) :
    (r.setMode g .dispatching).Timed := by
  refine timed.setMode (iff_of_false (by simp [Mode.InUse]) (fun inUse => ?_))
  rcases isSpare with isCached | isUnused
  · exact inUse.ne.2.1 isCached
  · exact inUse.ne.2.2 isUnused

theorem Spare.dispatchNext (spare : r.Spare) : ∃ next greenlets greenletCount,
    r.dispatchNext = { r.setMode next .dispatching with greenlets, greenletCount, gDispatch := next, control := .loop } ∧
      (r.mode next = .cached ∨ r.mode next = .unused) ∧
      { r.setMode next .dispatching with greenlets, greenletCount }.Spare := by
  unfold SelectReactor.dispatchNext
  split
  case h_1 next isLast =>
    obtain ⟨front, split⟩ := getLast?_eq_some_iff.mp isLast
    have isCached : r.mode next = .cached := spare.cached next (by simp [split])
    have once := spare.once
    rw [split, nodup_append] at once
    refine ⟨next, _, _, rfl, .inl isCached, ?_, ?_, ?_⟩
    · intro g isFront
      rw [split, dropLast_concat] at isFront
      have different : g ≠ next := once.2.2 g isFront next (mem_singleton_self next)
      exact (update_of_ne different _ _).trans (spare.cached g (by simp [split, isFront]))
    · rw [split, dropLast_concat]
      exact once.1
    · intro g atLeast
      have isUnused := spare.unused g atLeast
      exact (update_of_ne (ne_of_mode isUnused isCached (by decide)) _ _).trans isUnused
  case h_2 empty =>
    rw [getLast?_eq_none_iff] at empty
    refine ⟨r.greenletCount, _, _, rfl, .inr (spare.unused _ le_rfl), ?_, spare.once, ?_⟩
    · intro g isCached
      simp only [SelectReactor.setMode, empty] at isCached
      cases isCached
    · intro g atLeast
      dsimp only at atLeast
      exact (update_of_ne (by omega) _ _).trans (spare.unused g (by omega))

theorem dispatchNext_wired (timed : r.Timed) (spare : r.Spare) (quiet : ∀ g, r.mode g ≠ .active) :
    r.dispatchNext.Wired := by
  obtain ⟨next, greenlets, greenletCount, same, isSpare, stillSpare⟩ := spare.dispatchNext
  rw [same]
  refine ⟨{ timed.dispatch isSpare with }, { stillSpare with }, update_self _ _ _, trivial, ?_⟩
  intro g isActive
  simp only [setMode, update_apply] at isActive
  grind

/-! ### Calls -/

section

variable (wired : r.Wired) {control : Control}
include wired

theorem Wired.inControl_of (isControl : r.control = control) :
    r.InControl control :=
  isControl ▸ wired.inControl

/-- Only the greenlet that has control is active. -/
theorem Wired.active_eq {call : Call} (runs : r.control = .run g call)
    (isActive : r.mode other = .active) : other = g := by
  obtain ⟨_, _, _, isRun⟩ := wired.active other isActive
  rw [runs] at isRun
  injection isRun with isOther
  exact isOther.symm

theorem Wired.quiet
    (elsewhere : ∀ g timer eventtime remaining, r.control ≠ .run g (.switch timer eventtime remaining))
    (g : Nat) : r.mode g ≠ .active := by
  intro isActive
  obtain ⟨timer, eventtime, remaining, isRun⟩ := wired.active g isActive
  exact elsewhere g timer eventtime remaining isRun

/-- Control moves while no callback that has paused is active. -/
theorem Wired.move (control : Control) (nextTimer : Nat) (quiet : ∀ g, r.mode g ≠ .active)
    (inControl : r.InControl control) : { r with nextTimer, control }.Wired where
  timed := { wired.timed with }
  spare := { wired.spare with }
  dispatch := wired.dispatch
  inControl := inControl
  active g isActive := absurd isActive (quiet g)

theorem Wired.setWaketime (timer waketime : Nat)
    (owned : timer ∈ r.timers ∨ r.switches timer = none ∨ waketime = NEVER) (nextTimer : Nat) :
    { r with waketime := update r.waketime timer waketime, nextTimer }.Wired where
  timed := wired.timed.setWaketime timer waketime owned nextTimer
  spare := { wired.spare with }
  dispatch := wired.dispatch
  inControl := wired.inControl
  active := wired.active

theorem Wired.registerTimer (waketime : Nat) : (r.registerTimer none waketime).Wired where
  timed := wired.timed.registerTimer waketime
  spare := { wired.spare with }
  dispatch := wired.dispatch
  inControl := by
    have inControl := wired.inControl
    have grows : ∀ {eventtime remaining}, Scans r.timerCount eventtime remaining →
        Scans (r.timerCount + 1) eventtime remaining :=
      fun scans => ⟨scans.time, fun timer member => Nat.lt_succ_of_lt (scans.below timer member)⟩
    change (r.registerTimer none waketime).InControl r.control
    cases control : r.control with
    | loop => trivial
    | scan eventtime remaining =>
      rw [control] at inControl
      exact grows inControl
    | run g call =>
      rw [control] at inControl
      cases call with
      | readCallback => exact inControl
      | callback timer eventtime remaining =>
        obtain ⟨isDispatch, ⟨plain, below⟩, scans⟩ := inControl
        refine ⟨isDispatch, ⟨?_, Nat.lt_succ_of_lt below⟩, grows scans⟩
        exact (update_of_ne (Nat.ne_of_lt below) _ _).trans plain
      | switch timer eventtime remaining =>
        exact ⟨inControl.1, inControl.2.1, grows inControl.2.2⟩
  active := wired.active

theorem Wired.unregisterTimer (plain : r.switches timer = none) :
    (r.unregisterTimer timer).Wired where
  timed := wired.timed.unregisterTimer plain
  spare := { wired.spare with }
  dispatch := wired.dispatch
  inControl := wired.inControl
  active := wired.active

/-- A callback that has paused gets control or gives it away. -/
theorem Wired.turn (before : (r.mode g).InUse) (inUse : mode.InUse)
    (quiet : ∀ other, other ≠ g → r.mode other ≠ .active)
    (inControl : (r.setMode g mode).InControl control)
    (active : mode = .active → ∃ timer eventtime remaining, control = .run g (.switch timer eventtime remaining)) :
    { r with mode := update r.mode g mode, control }.Wired := by
  obtain ⟨undispatched, uncached, used⟩ := before.ne
  obtain ⟨apart, below⟩ := wired.spare.apart uncached used
  have spare : (r.setMode g mode).Spare := wired.spare.setMode apart below
  refine ⟨{ wired.timed.setMode (iff_of_true inUse before) with }, { spare with }, ?_, inControl, ?_⟩
  · have different : r.gDispatch ≠ g := by
      rintro rfl
      exact undispatched wired.dispatch
    exact (update_of_ne different _ _).trans wired.dispatch
  · intro other isActive
    by_cases same : other = g
    · rw [same] at isActive ⊢
      exact active ((update_self g mode r.mode).symm.trans isActive)
    · exact absurd ((update_of_ne same mode r.mode).symm.trans isActive) (quiet other same)

theorem Wired.switchTo (scans : r.control = .scan eventtime (timer :: rest))
    (inUse : (r.mode g).InUse) (isOwn : r.timer g = some timer) :
    (r.switchTo g timer eventtime rest).Wired := by
  have quiet := wired.quiet (by simp [scans])
  have moved := wired.setWaketime timer NEVER (.inr (.inr rfl)) r.nextTimer
  have inControl : Scans _ _ _ := wired.inControl_of scans
  refine moved.turn inUse (.inl rfl) (fun other _ => quiet other) ⟨update_self _ _ _, isOwn, inControl.tail⟩ ?_
  exact fun _ => ⟨timer, eventtime, rest, rfl⟩

theorem Wired.invoke (scans : r.control = .scan eventtime (timer :: rest))
    (plain : r.switches timer = none) : (r.invoke timer eventtime rest).Wired := by
  have inControl : Scans _ _ _ := wired.inControl_of scans
  have quiet := wired.quiet (by simp [scans])
  exact (wired.setWaketime timer NEVER (.inr (.inl plain)) r.nextTimer).move
    (.run r.gDispatch (.callback timer eventtime rest)) r.nextTimer quiet
    ⟨rfl, ⟨plain, inControl.below timer (mem_cons_self ..)⟩, inControl.tail⟩

end

/-! ### Greenlets that wait -/

theorem Timed.switches_of_waiting (timed : r.Timed) (waits : r.mode g = .waiting) (isOwn : r.timer g = some timer) :
    timer < r.timerCount ∧ r.switches timer = some g := by
  obtain ⟨isTimer, switches⟩ := timed.owns (.inr (.inr waits)) isOwn
  exact ⟨timed.below timer isTimer, switches⟩

/-- Setting the timer of another greenlet, or one that belongs to none. -/
theorem Timed.keeps_updateTimer (timed : r.Timed) (elsewhere : r.switches timer ≠ some g ∨ waketime = NOW) :
    r.Keeps (r.updateTimer timer waketime) g := by
  intro waits
  refine ⟨waits, rfl, ?_⟩
  intro own isOwn due
  have switches := (timed.switches_of_waiting waits isOwn).2
  simp only [updateTimer, update_apply]
  grind

theorem Keeps.trans {middle after : SelectReactor} (first : r.Keeps middle g) (second : middle.Keeps after g) :
    r.Keeps after g := by
  intro waits
  obtain ⟨waitsMiddle, sameTimer, due⟩ := first waits
  obtain ⟨waitsAfter, sameAfter, dueAfter⟩ := second waitsMiddle
  refine ⟨waitsAfter, sameAfter.trans sameTimer, ?_⟩
  intro timer isOwn isDue
  exact dueAfter timer (sameTimer.trans isOwn) (due timer isOwn isDue)

theorem Timed.keeps_registerTimer (timed : r.Timed) (target : Option Nat) (waketime : Nat) :
    r.Keeps (r.registerTimer target waketime) g := by
  intro waits
  refine ⟨waits, rfl, ?_⟩
  intro own isOwn due
  have below := (timed.switches_of_waiting waits isOwn).1
  simp only [SelectReactor.registerTimer, update_apply]
  grind

theorem Timed.keeps_unregisterTimer (timed : r.Timed) (elsewhere : r.switches timer ≠ some g) :
    r.Keeps (r.unregisterTimer timer) g := by
  intro waits
  refine ⟨waits, rfl, ?_⟩
  intro own isOwn due
  have switches := (timed.switches_of_waiting waits isOwn).2
  simp only [SelectReactor.unregisterTimer, update_apply]
  grind

theorem keeps_setMode (r : SelectReactor) (other : Nat) (mode : Mode) (different : r.mode other ≠ .waiting) :
    r.Keeps (r.setMode other mode) g := by
  intro waits
  have apart : g ≠ other := by
    rintro rfl
    exact different waits
  exact ⟨(update_of_ne apart _ _).trans waits, rfl, fun _ _ due => due⟩

theorem Spare.keeps_dispatchNext (spare : r.Spare) : r.Keeps r.dispatchNext g := by
  obtain ⟨next, greenlets, greenletCount, same, isSpare, -⟩ := spare.dispatchNext
  rw [same]
  refine keeps_setMode r next .dispatching (fun waits => ?_)
  rw [waits] at isSpare
  revert isSpare
  decide

theorem Timed.keeps_begin (timed : r.Timed) (different : r.mode other ≠ .waiting) (mode : Mode)
    (base : Option Nat) (waketime : Nat) : r.Keeps (r.beginPause other base mode waketime) g := by
  intro waits
  have apart : g ≠ other := by
    rintro rfl
    exact different waits
  refine ⟨(update_of_ne apart _ _).trans waits, update_of_ne apart _ _, ?_⟩
  intro own isOwn due
  have below := (timed.switches_of_waiting waits isOwn).1
  exact (update_of_ne (Nat.ne_of_lt below) _ _).trans due

theorem Timed.keeps_end (timed : r.Timed) (isActive : r.mode other = .active)
    (isOwn : r.timer other = some timer) :
    r.Keeps ((r.endGreenlet other timer).returned timer NEVER eventtime rest) g := by
  intro waits
  have apart : g ≠ other := ne_of_mode waits isActive (by decide)
  refine ⟨(update_of_ne apart _ _).trans waits, update_of_ne apart _ _, ?_⟩
  intro own isTheirs due
  have switches := (timed.owns (.inl isActive) isOwn).2
  have switchesOwn := (timed.switches_of_waiting waits isTheirs).2
  have different : own ≠ timer := by
    rintro rfl
    rw [switchesOwn] at switches
    exact apart (Option.some.inj switches)
  simp only [returned, updateTimer, endGreenlet,
    SelectReactor.unregisterTimer, SelectReactor.setMode, update_of_ne different]
  exact due

/-! ### Steps -/

structure Continues (r after : SelectReactor) : Prop where
  wired : after.Wired
  seen : after.Seen after.control.remaining
  keeps : ∀ g, r.Keeps after g

variable {call : Call}

theorem control_dispatchNext (r : SelectReactor) : r.dispatchNext.control = .loop := by
  unfold dispatchNext
  split
  · rfl
  · rfl

theorem Wired.spare_beginPause (wired : r.Wired) (base : Option Nat) (mode : Mode) (waketime : Nat) :
    (r.beginPause r.gDispatch base mode waketime).Spare := by
  have isDispatching := wired.dispatch
  obtain ⟨apart, below⟩ := wired.spare.apart (g := r.gDispatch) (by rw [isDispatching]; decide)
    (by rw [isDispatching]; decide)
  have spare : (r.setMode r.gDispatch mode).Spare := wired.spare.setMode apart below
  exact { spare with }

theorem Wired.continues_pauseDispatch (wired : r.Wired)
    (elsewhere : ∀ g timer eventtime remaining, r.control ≠ .run g (.switch timer eventtime remaining))
    (plain : ∀ timer ∈ base, r.switches timer = none ∧ timer < r.timerCount)
    (rests : mode = .paused ∨ mode = .waiting) (waketime : Nat) :
    r.Continues (r.pauseDispatch r.gDispatch base mode waketime) := by
  have isDispatching := wired.dispatch
  have spare := wired.spare_beginPause base mode waketime
  have timed := wired.timed.begin (fun inUse => inUse.ne.1 isDispatching) (.inr rests) plain waketime
  refine ⟨dispatchNext_wired timed spare ?_, ?_, ?_⟩
  · intro g
    have before := wired.quiet elsewhere g
    simp only [beginPause, SelectReactor.registerTimer, SelectReactor.setMode, update_apply]
    grind
  · rw [SelectReactor.pauseDispatch, control_dispatchNext]
    exact seen_pauseDispatch r r.gDispatch base mode waketime
  · intro g
    have begins := wired.timed.keeps_begin (g := g) (by rw [isDispatching]; decide) mode base waketime
    exact begins.trans spare.keeps_dispatchNext

section

variable (wired : r.Wired) (seen : r.Seen r.control.remaining)
include wired seen

/-- A greenlet gives control back to the loop of `_check_timers`. -/
theorem Wired.continues_switchBack (runs : r.control = .run g (.switch timer eventtime rest))
    (rests : mode = .paused ∨ mode = .waiting) (waketime : Nat) :
    r.Continues ((r.setMode g mode).returned timer waketime eventtime rest) := by
  obtain ⟨isActive, isOwn, scans⟩ := wired.inControl_of runs
  obtain ⟨isTimer, switches⟩ := wired.timed.owns (.inl isActive) isOwn
  rw [runs] at seen
  have moved := wired.setWaketime timer waketime (.inl isTimer) (min r.nextTimer waketime)
  refine ⟨moved.turn (.inl isActive) (.inr rests) ?_ { scans with } ?_,
    { seen.updateTimer timer waketime with }, ?_⟩
  · exact fun other different isActive => different (wired.active_eq runs isActive)
  · rintro rfl
    rcases rests with wrong | wrong
    · cases wrong
    · cases wrong
  · intro other waits
    have apart : g ≠ other := ne_of_mode isActive waits (by decide)
    have updates : r.Keeps (r.updateTimer timer waketime) other := by
      refine wired.timed.keeps_updateTimer (.inl ?_)
      rw [switches]
      exact fun wrong => apart (Option.some.inj wrong)
    have sets : (r.updateTimer timer waketime).Keeps ((r.updateTimer timer waketime).setMode g mode) other := by
      refine keeps_setMode (r.updateTimer timer waketime) g mode ?_
      change r.mode g ≠ .waiting
      rw [isActive]
      decide
    exact (updates.trans sets) waits

theorem Wired.continues_pause
    (runs : r.control = .run g call) (rests : mode = .paused ∨ mode = .waiting) (waketime : Nat) :
    r.Continues (r.pause g call mode waketime) := by
  have inControl := wired.inControl_of runs
  cases call with
  | readCallback =>
    cases inControl
    exact wired.continues_pauseDispatch (by simp [runs]) (by simp) rests waketime
  | callback timer eventtime remaining =>
    obtain ⟨rfl, plain, -⟩ := inControl
    refine wired.continues_pauseDispatch (by simp [runs]) ?_ rests waketime
    rintro _ ⟨⟩
    exact plain
  | switch timer eventtime remaining => exact wired.continues_switchBack seen runs rests waketime

theorem Wired.continues_finishSwitch (runs : r.control = .run g (.switch timer eventtime rest)) :
    r.Continues ((r.endGreenlet g timer).returned timer NEVER eventtime rest) := by
  obtain ⟨isActive, isOwn, scans⟩ := wired.inControl_of runs
  have inUse : (r.mode g).InUse := .inl isActive
  have timed := (wired.timed.end inUse isOwn).setWaketime timer NEVER (.inr (.inr rfl)) (min r.nextTimer NEVER)
  rw [runs] at seen
  refine ⟨⟨{ timed with }, { wired.spare.endGreenlet inUse timer with }, ?_, { scans with }, ?_⟩,
    { (seen.unregisterTimer timer).updateTimer timer NEVER with }, fun _ => wired.timed.keeps_end isActive isOwn⟩
  · have different : r.gDispatch ≠ g := ne_of_mode wired.dispatch isActive (by decide)
    exact (update_of_ne different _ _).trans wired.dispatch
  · intro other isActive
    have wasActive : r.mode other = .active ∧ other ≠ g := by
      simp only [returned, updateTimer, endGreenlet, setMode,
        SelectReactor.unregisterTimer, update_apply] at isActive
      grind
    exact absurd (wired.active_eq runs wasActive.1) wasActive.2

end

theorem Continues.trans {middle after : SelectReactor} (first : r.Continues middle) (second : middle.Continues after) :
    r.Continues after :=
  ⟨second.wired, second.seen, fun g => (first.keeps g).trans (second.keeps g)⟩

section

variable (wired : r.Wired)
include wired

theorem Wired.continues_updateTimer (seen : r.Seen r.control.remaining)
    (plain : r.switches timer = none) (waketime : Nat) : r.Continues (r.updateTimer timer waketime) := by
  refine ⟨wired.setWaketime timer waketime (.inr (.inl plain)) _, seen.updateTimer timer waketime, ?_⟩
  exact fun _ => wired.timed.keeps_updateTimer (.inl (by simp [plain]))

theorem Wired.continues_finish (seen : r.Seen r.control.remaining) (runs : r.control = .run g call)
    (waketime : Nat) : r.Continues (r.finish g call waketime) := by
  have inControl := wired.inControl_of runs
  cases call with
  | readCallback =>
    rw [runs] at seen
    exact ⟨wired.move .loop _ (wired.quiet (by simp [runs])) trivial, { seen with },
      fun g waits => ⟨waits, rfl, fun _ _ due => due⟩⟩
  | callback timer eventtime remaining =>
    have updates := wired.continues_updateTimer seen inControl.2.1.1 waketime
    have quiet := wired.quiet (by simp [runs])
    rw [runs] at seen
    exact ⟨updates.wired.move (.scan eventtime remaining) _ quiet inControl.2.2,
      { seen.updateTimer timer waketime with }, updates.keeps⟩
  | switch timer eventtime remaining =>
    change r.Continues (((r.setBase g waketime).endGreenlet g timer).returned timer NEVER eventtime remaining)
    unfold setBase
    split
    · exact wired.continues_finishSwitch seen runs
    case h_2 base isBase =>
      have plain := (wired.timed.base g base (.inl inControl.1) isBase).1
      have updates := wired.continues_updateTimer seen plain waketime
      exact updates.trans (updates.wired.continues_finishSwitch updates.seen runs)

theorem Wired.mode_pause (runs : r.control = .run g call) (inUse : mode.InUse)
    (waketime : Nat) : (r.pause g call mode waketime).mode g = mode := by
  have inControl := wired.inControl_of runs
  have dispatch : ∀ base, (r.pauseDispatch r.gDispatch base mode waketime).mode r.gDispatch = mode := by
    intro base
    have begins : (r.beginPause r.gDispatch base mode waketime).mode r.gDispatch = mode := update_self _ _ _
    obtain ⟨next, greenlets, greenletCount, same, isSpare, -⟩ :=
      (wired.spare_beginPause base mode waketime).dispatchNext
    rw [pauseDispatch, same]
    refine (update_of_ne ?_ _ _).trans begins
    rcases isSpare with isCached | isUnused
    · exact ne_of_mode begins isCached inUse.ne.2.1
    · exact ne_of_mode begins isUnused inUse.ne.2.2
  cases call with
  | readCallback =>
    cases inControl
    exact dispatch none
  | callback timer eventtime remaining =>
    obtain ⟨rfl, -⟩ := inControl
    exact dispatch (some timer)
  | switch timer eventtime remaining => exact update_self _ _ _

theorem Wired.mode_ne_waiting (runs : r.control = .run g call) : r.mode g ≠ .waiting := by
  have inControl := wired.inControl_of runs
  cases call with
  | readCallback =>
    cases inControl
    rw [wired.dispatch]
    decide
  | callback timer eventtime remaining =>
    obtain ⟨rfl, -⟩ := inControl
    rw [wired.dispatch]
    decide
  | switch timer eventtime remaining =>
    rw [inControl.1]
    decide

/-- A timer that is due switches to a greenlet whose timer it is. -/
theorem Wired.owner_of_due (scans : r.control = .scan eventtime (timer :: rest))
    (due : r.waketime timer ≤ eventtime) (switches : r.switches timer = some g) :
    timer ∈ r.timers ∧ r.timer g = some timer ∧ (r.mode g).InUse := by
  have inControl : Scans _ _ _ := wired.inControl_of scans
  have isTimer : timer ∈ r.timers := by
    by_contra gone
    have never := wired.timed.parked timer g switches gone
    have time := inControl.time
    omega
  exact ⟨isTimer, wired.timed.owner timer isTimer g switches⟩

/-- A callback calls the reactor. -/
theorem Wired.continues_step (seen : r.Seen r.control.remaining) (runs : r.control = .run g call)
    {input : Input} {after : SelectReactor} (moves : r.step g call input = some after) : r.Continues after := by
  cases input with
  | pause waketime =>
    cases moves
    exact wired.continues_pause seen runs (.inl rfl) waketime
  | finish waketime =>
    cases moves
    exact wired.continues_finish seen runs waketime
  | registerTimer waketime =>
    cases moves
    exact ⟨wired.registerTimer waketime, seen.registerTimer none waketime,
      fun _ => wired.timed.keeps_registerTimer none waketime⟩
  | unregisterTimer timer =>
    rw [step] at moves
    split at moves
    case isTrue both =>
      cases moves
      exact ⟨wired.unregisterTimer both.2, seen.unregisterTimer timer,
        fun _ => wired.timed.keeps_unregisterTimer (by simp [both.2])⟩
    · cases moves
  | updateTimer timer waketime =>
    rw [step] at moves
    split at moves
    case isTrue both =>
      cases moves
      exact wired.continues_updateTimer seen both.2 waketime
    · cases moves
  | wake timer =>
    rw [step] at moves
    split at moves
    case isTrue both =>
      cases moves
      exact ⟨wired.setWaketime timer NOW (.inl both.1) _, seen.updateTimer timer NOW,
        fun _ => wired.timed.keeps_updateTimer (.inr rfl)⟩
    · cases moves
  | _ => cases moves

end

end SelectReactor

end MagnetoX.Host.Reactor
