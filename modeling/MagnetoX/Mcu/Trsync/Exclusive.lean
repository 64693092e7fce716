import Mathlib.Data.Fintype.Card
import MagnetoX.Library.OwnedLists
import MagnetoX.Library.Run
import MagnetoX.Mcu.Trsync.Model

/-!
Owns that a trigger takes effect at most once. The lists of signals share no
signal, and what an object has invoked since its last start is what was registered
with it before its first trigger.
-/

namespace MagnetoX.Mcu.Triggers

open Library.OwnedLists Library.Run List Option

variable {m n : Nat}

/-! ### Walking a list -/

def callbacks (func : Fin n → Option Nat) (signals : List (Fin n)) : List (Fin n × Nat) :=
  signals.filterMap (fun tss => (func tss).map (fun f => (tss, f)))

variable {func func' : Fin n → Option Nat} {ts : Trsync n} {round : Round n}
  {listed : List (Fin n × Nat)} {tss : Fin n} {signals : List (Fin n)} {s : Machine m n}

theorem callbacks_congr (same : ∀ tss ∈ signals, func' tss = func tss) :
    callbacks func' signals = callbacks func signals :=
  filterMap_congr (fun tss isSignal => by rw [same tss isSignal])

theorem callbacks_cons {f : Nat} (active : func tss = some f) (signals : List (Fin n)) :
    callbacks func (tss :: signals) = (tss, f) :: callbacks func signals := by
  rw [callbacks, filterMap_cons, active]
  rfl

theorem callbacks_fst (active : ∀ tss ∈ signals, func tss ≠ none) :
    (callbacks func signals).map Prod.fst = signals := by
  induction signals with
  | nil => rfl
  | cons tss signals ih =>
    obtain ⟨f, isActive⟩ := ne_none_iff_exists'.mp (active tss (.head _))
    rw [callbacks_cons isActive, map_cons,
      ih (fun other isSignal => active other (.tail _ isSignal))]

def nullOn {ι α : Type} [DecidableEq ι] (signals : List ι) (entries : ι → Option α) : ι → Option α :=
  fun tss => if tss ∈ signals then none else entries tss

theorem nullOn_nil {α : Type} (entries : Fin n → Option α) : nullOn [] entries = entries := by
  funext tss
  simp [nullOn]

open Function

theorem nullOn_update {α : Type} (signals : List (Fin n)) (tss : Fin n) (entries : Fin n → Option α) :
    nullOn signals (update entries tss none) = nullOn (tss :: signals) entries := by
  funext other
  by_cases same : other = tss
  · subst same
    simp [nullOn]
  · simp [nullOn, same]

namespace Machine

variable {s : Machine m n} {first : Option (Fin n)}

@[simp] theorem setObject_self (i : Fin m) (ts : Trsync n) : (s.setObject i ts).objects i = ts :=
  update_self _ _ _

@[simp] theorem setRound_self (i : Fin m) (round : Round n) : (s.setRound i round).rounds i = round :=
  update_self _ _ _

theorem setObject_of_ne {i j : Fin m} (different : j ≠ i) (ts : Trsync n) :
    (s.setObject i ts).objects j = s.objects j :=
  update_of_ne different _ _

theorem setRound_of_ne {i j : Fin m} (different : j ≠ i) (round : Round n) :
    (s.setRound i round).rounds j = s.rounds j :=
  update_of_ne different _ _

@[simp] theorem setObject_twice (i : Fin m) (ts ts' : Trsync n) :
    (s.setObject i ts).setObject i ts' = s.setObject i ts' := by
  simp [setObject]

def releaseAll (s : Machine m n) (signals : List (Fin n)) : Machine m n :=
  { s with next := nullOn signals s.next, func := nullOn signals s.func }

theorem clearSignals_eq {fuel : Nat} (reads : Reads s.next first signals)
    (enough : signals.length < fuel) : clearSignals fuel first s = some (s.releaseAll signals) := by
  induction signals generalizing s fuel first with
  | nil =>
    obtain ⟨fuel, rfl⟩ := Nat.exists_eq_succ_of_ne_zero (Nat.ne_of_gt enough)
    cases reads
    rw [clearSignals, releaseAll, nullOn_nil, nullOn_nil]
  | cons tss signals ih =>
    obtain ⟨fuel, rfl⟩ := Nat.exists_eq_succ_of_ne_zero (Nat.ne_of_gt (Nat.zero_lt_of_lt enough))
    have fresh := (nodup_cons.mp reads.nodup).1
    obtain ⟨rfl, reads⟩ := reads
    have reads' : Reads (s.release tss).next (s.next tss) signals := by
      refine reads.congr (fun other isSignal => update_of_ne ?_ _ _)
      rintro rfl
      exact fresh isSignal
    rw [clearSignals, ih reads' (by simpa using enough)]
    simp only [releaseAll, release, nullOn_update]

def dispatched (s : Machine m n) (i : Fin m) (reason : UInt8) (signals : List (Fin n)) : Machine m n :=
  ((s.releaseAll signals).setObject i { s.objects i with signals := none }).setRound i
    { s.rounds i with
      invoked := (s.rounds i).invoked ++ (callbacks s.func signals).map (fun c => (c, reason)) }

theorem dispatchSignals_eq {fuel : Nat} {i : Fin m} {reason : UInt8}
    (reads : Reads s.next (s.objects i).signals signals)
    (active : ∀ tss ∈ signals, s.func tss ≠ none) (enough : signals.length < fuel) :
    dispatchSignals i reason fuel s = some (s.dispatched i reason signals) := by
  induction signals generalizing s fuel with
  | nil =>
    obtain ⟨fuel, rfl⟩ := Nat.exists_eq_succ_of_ne_zero (Nat.ne_of_gt enough)
    have empty : (s.objects i).signals = none := reads
    have sameObject : { s.objects i with signals := none } = s.objects i := by rw [← empty]
    rw [dispatchSignals, empty]
    simp [dispatched, releaseAll, nullOn_nil, setObject, setRound, sameObject, callbacks]
  | cons tss signals ih =>
    obtain ⟨fuel, rfl⟩ := Nat.exists_eq_succ_of_ne_zero (Nat.ne_of_gt (Nat.zero_lt_of_lt enough))
    have fresh := (nodup_cons.mp reads.nodup).1
    obtain ⟨isFirst, reads⟩ := reads
    obtain ⟨f, isActive⟩ := ne_none_iff_exists'.mp (active tss (.head _))
    have others : ∀ other ∈ signals, other ≠ tss := by
      rintro other isSignal rfl
      exact fresh isSignal
    have reads' : Reads (s.invoke i tss f reason).next ((s.invoke i tss f reason).objects i).signals
        signals := by
      have same : ((s.invoke i tss f reason).objects i).signals = s.next tss := by
        simp [invoke, setObject, release, setRound]
      rw [same]
      exact reads.congr (fun other isSignal => update_of_ne (others other isSignal) _ _)
    have func' : ∀ other ∈ signals, (s.invoke i tss f reason).func other = s.func other :=
      fun other isSignal => update_of_ne (others other isSignal) _ _
    rw [dispatchSignals, isFirst]
    simp only [isActive]
    rw [ih reads' ?_ (by simpa using enough)]
    · simp only [dispatched, callbacks_congr func', callbacks_cons isActive]
      simp [invoke, setObject, setRound, release, releaseAll, nullOn_update, update_idem]
    · intro other isSignal
      rw [func' other isSignal]
      exact active other (.tail _ isSignal)

theorem reads_length (reads : Reads s.next first signals) : signals.length < n + 1 := by
  have bounded := reads.nodup.length_le_card
  rw [Fintype.card_fin] at bounded
  omega

end Machine

/-! ### The invariant -/

structure RoundInv (ts : Trsync n) (round : Round n) (listed : List (Fin n × Nat)) : Prop where
  idle : round.running = false → ts.canTrigger = false
  armed : ts.canTrigger = true → round.causes = [] ∧ round.effects = []
  triggered : round.running = true → ts.canTrigger = false →
    ∃ reason later, round.causes = reason :: later ∧ round.effects = [reason] ∧
      ts.triggerReason = reason
  once : round.effects.length ≤ 1
  listed : round.effects = [] → listed = round.registered.reverse
  nodup : (round.registered.map Prod.fst).Nodup
  invoked : round.invoked =
    round.effects.flatMap (fun reason => round.registered.reverse.map (fun c => (c, reason)))

theorem RoundInv.start (ts : Trsync n) (canTrigger : ts.canTrigger = true) :
    RoundInv ts (.empty true) [] where
  idle := nofun
  armed := fun _ => ⟨rfl, rfl⟩
  triggered := by simp [canTrigger]
  once := Nat.zero_le _
  listed := fun _ => rfl
  nodup := .nil
  invoked := rfl

section

variable (inv : RoundInv ts round listed)
include inv

theorem RoundInv.shutDown (after : Trsync n) (cannot : after.canTrigger = false) :
    RoundInv after round.shutDown [] := by
  refine ⟨fun _ => cannot, by simp [cannot], nofun, inv.once, ?_, ?_, ?_⟩
  · intro noEffect
    have noEffect : round.effects = [] := noEffect
    simp [Round.shutDown, noEffect]
  · simp only [Round.shutDown]
    split
    · exact .nil
    · exact inv.nodup
  · have invoked := inv.invoked
    simp only [Round.shutDown]
    split
    · rename_i noEffect
      simpa [noEffect] using invoked
    · exact invoked

/-- The first cause takes effect and invokes what is listed. -/
theorem RoundInv.trigger (can : ts.canTrigger = true) (reason : UInt8) :
    RoundInv { ts.trigger reason with signals := none }
      { round with
        causes := round.causes ++ [reason]
        effects := round.effects ++ [reason]
        invoked := round.invoked ++ listed.map (fun c => (c, reason)) } [] := by
  obtain ⟨noCause, noEffect⟩ := inv.armed can
  have invoked := inv.invoked
  refine ⟨fun _ => rfl, nofun, ?_, ?_, ?_, inv.nodup, ?_⟩
  · intro _ _
    exact ⟨reason, [], by simp [noCause], by simp [noEffect], rfl⟩
  · simp [noEffect]
  · simp
  · simp only [invoked, noEffect, inv.listed noEffect]
    simp

theorem RoundInv.ignore (cannot : ts.canTrigger = false) (reason : UInt8) :
    RoundInv ts { round with causes := round.causes ++ [reason] } listed := by
  refine { inv with armed := by simp [cannot], triggered := ?_ }
  intro running _
  obtain ⟨first, later, causes, effects, isReason⟩ := inv.triggered running cannot
  exact ⟨first, later ++ [reason], by simp [causes], effects, isReason⟩

/-- Changing an object in what its history does not mention. -/
theorem RoundInv.congr {after : Trsync n} (canTrigger : after.canTrigger = ts.canTrigger)
    (triggerReason : after.triggerReason = ts.triggerReason) : RoundInv after round listed := by
  refine { inv with idle := ?_, armed := ?_, triggered := ?_ }
  · rw [canTrigger]
    exact inv.idle
  · rw [canTrigger]
    exact inv.armed
  · rw [canTrigger, triggerReason]
    exact inv.triggered

theorem RoundInv.add {f : Nat} (fresh : tss ∉ listed.map Prod.fst) :
    RoundInv ts { round with
        registered := if round.effects = [] then round.registered ++ [(tss, f)] else round.registered }
      ((tss, f) :: listed) := by
  refine { inv with listed := ?_, nodup := ?_, invoked := ?_ }
  · intro noEffect
    have noEffect : round.effects = [] := noEffect
    simp [noEffect, inv.listed noEffect]
  · dsimp only
    split
    · rename_i noEffect
      rw [inv.listed noEffect, map_reverse, mem_reverse] at fresh
      rw [map_append, map_singleton]
      exact nodup_append.mpr ⟨inv.nodup, nodup_singleton _, by
        rintro other inside _ isLast rfl
        cases mem_singleton.mp isLast
        exact fresh inside⟩
    · exact inv.nodup
  · have invoked := inv.invoked
    split
    · rename_i noEffect
      simpa [noEffect] using invoked
    · exact invoked

end

/-- The lists share no signal, a signal on a list has a callback, and each object
agrees with its history. -/
structure Inv (s : Machine m n) (owner : Fin n → Option (Fin m)) (lists : Fin m → List (Fin n)) :
    Prop where
  owned : Owned s.next (fun i => (s.objects i).signals) owner lists
  func_iff : ∀ tss, s.func tss = none ↔ owner tss = none
  rounds : ∀ i, RoundInv (s.objects i) (s.rounds i) (callbacks s.func (lists i))

namespace Inv

variable {s : Machine m n} {owner : Fin n → Option (Fin m)} {lists : Fin m → List (Fin n)}

variable {i : Fin m} {ts : Trsync n}

theorem active (inv : Inv s owner lists) (isSignal : tss ∈ lists i) : s.func tss ≠ none := by
  rw [Ne, inv.func_iff, (inv.owned.mem_iff i tss).mp isSignal]
  nofun

theorem rounds_update {objects : Fin m → Trsync n} {rounds : Fin m → Round n} {list : List (Fin n)}
    (own : RoundInv ts round (callbacks func list))
    (others : ∀ j ≠ i, RoundInv (objects j) (rounds j) (callbacks func (lists j))) (j : Fin m) :
    RoundInv (update objects i ts j) (update rounds i round j)
      (callbacks func (update lists i list j)) := by
  by_cases same : j = i
  · subst same
    rw [update_self, update_self, update_self]
    exact own
  · rw [update_of_ne same, update_of_ne same, update_of_ne same]
    exact others j same

variable (inv : Inv s owner lists)
include inv

open Machine

/-- Emptying the list of one object keeps the invariant, if the object agrees with
its history then. -/
theorem empty (signals : ts.signals = none) (agrees : RoundInv ts round []) :
    ∃ owner, Inv (((s.releaseAll (lists i)).setObject i ts).setRound i round) owner
      (update lists i []) := by
  refine ⟨fun tss => if owner tss = some i then none else owner tss, ?_, ?_, ?_⟩
  · change Owned (nullOn (lists i) s.next) (Trsync.signals ∘ update s.objects i ts) _ _
    rw [comp_update, signals]
    refine inv.owned.clear i (fun tss notListed => ?_)
    simp [nullOn, notListed]
  · intro tss
    change nullOn (lists i) s.func tss = none ↔ _
    simp only [nullOn, inv.owned.mem_iff]
    split
    · simp
    · exact inv.func_iff tss
  · refine rounds_update agrees (fun j different => ?_)
    have others : ∀ tss ∈ lists j, nullOn (lists i) s.func tss = s.func tss := by
      intro tss isSignal
      have notListed : tss ∉ lists i := by
        intro inside
        rw [inv.owned.mem_iff] at isSignal inside
        exact different (some.inj (isSignal.symm.trans inside))
      simp [nullOn, notListed]
    rw [setRound, setObject, releaseAll, callbacks_congr others]
    exact inv.rounds j

theorem congr {after : Machine m n} (next : after.next = s.next)
    (func : after.func = s.func) (rounds : after.rounds = s.rounds)
    (objects : ∀ i, (after.objects i).signals = (s.objects i).signals ∧
      (after.objects i).canTrigger = (s.objects i).canTrigger ∧
      (after.objects i).triggerReason = (s.objects i).triggerReason) : Inv after owner lists := by
  refine ⟨?_, ?_, ?_⟩
  · rw [next, funext (fun i => (objects i).1)]
    exact inv.owned
  · rw [func]
    exact inv.func_iff
  · intro i
    rw [func, rounds]
    exact (inv.rounds i).congr (objects i).2.1 (objects i).2.2

theorem setObject (signals : ts.signals = (s.objects i).signals)
    (canTrigger : ts.canTrigger = (s.objects i).canTrigger)
    (triggerReason : ts.triggerReason = (s.objects i).triggerReason) :
    Inv (s.setObject i ts) owner lists := by
  refine inv.congr rfl rfl rfl (fun j => ?_)
  by_cases same : j = i
  · subst same
    rw [setObject_self]
    exact ⟨signals, canTrigger, triggerReason⟩
  · rw [setObject_of_ne same]
    exact ⟨rfl, rfl, rfl⟩

/-! ### The operations -/

theorem trsyncClear_eq (i : Fin m) :
    s.trsyncClear i = some ((s.releaseAll (lists i)).setObject i (s.objects i).clear) := by
  have reads := inv.owned.reads i
  rw [trsyncClear, clearSignals_eq reads (reads_length reads)]
  rfl

theorem start (i : Fin m) (reportClock reportTicks : UInt32) (expireReason : UInt8) :
    ∃ after owner', s.commandTrsyncStart i reportClock reportTicks expireReason = some after ∧
      Inv after owner' (update lists i []) ∧ after.func = nullOn (lists i) s.func := by
  rw [commandTrsyncStart, inv.trsyncClear_eq i]
  simp only [map_some, setObject_self, setObject_twice]
  obtain ⟨owner', inv'⟩ := inv.empty rfl (RoundInv.start
    { (s.objects i).clear with
      canTrigger := true
      reportWaketime := reportClock
      reportTicks
      reportScheduled := reportTicks != 0
      expireReason } rfl)
  exact ⟨_, owner', rfl, inv', rfl⟩

theorem clear (i : Fin m) :
    ∃ after owner', (s.trsyncClear i).map (fun s => s.setRound i (s.rounds i).shutDown) = some after ∧
      Inv after owner' (update lists i []) ∧
      after.rounds = update s.rounds i (s.rounds i).shutDown := by
  rw [inv.trsyncClear_eq i]
  obtain ⟨owner', inv'⟩ := inv.empty (i := i) rfl ((inv.rounds i).shutDown (s.objects i).clear rfl)
  exact ⟨_, owner', rfl, inv', rfl⟩

theorem trigger (i : Fin m) (reason : UInt8) :
    ∃ after owner' lists', s.trsyncDoTrigger i reason = some after ∧ Inv after owner' lists' ∧
      (after.objects i).canTrigger = false := by
  simp only [trsyncDoTrigger]
  by_cases can : (s.objects i).canTrigger = true
  · rw [can, if_neg (by decide)]
    set round := { s.rounds i with
      causes := (s.rounds i).causes ++ [reason], effects := (s.rounds i).effects ++ [reason] }
      with isRound
    set triggered := (s.setRound i round).setObject i ((s.objects i).trigger reason) with isTriggered
    have reads : Reads triggered.next (triggered.objects i).signals (lists i) := by
      rw [isTriggered, setObject_self]
      exact inv.owned.reads i
    rw [dispatchSignals_eq reads (fun tss isSignal => inv.active isSignal)
      (reads_length reads), map_some]
    obtain ⟨owner', inv'⟩ := inv.empty rfl ((inv.rounds i).trigger can reason)
    have objects : (triggered.dispatched i reason (lists i)).objects =
        update s.objects i { (s.objects i).trigger reason with signals := none } := by
      simp [isTriggered, Machine.dispatched, Machine.setRound, Machine.setObject, Machine.releaseAll]
    refine ⟨_, owner', _, rfl, inv'.congr rfl rfl ?_ ?_, ?_⟩
    · simp [isTriggered, isRound, Machine.dispatched, Machine.setRound, Machine.setObject,
        releaseAll]
    · intro j
      simp only [objects]
      exact ⟨rfl, rfl, rfl⟩
    · simp only [objects, update_self]
      rfl
  · have cannot : (s.objects i).canTrigger = false := by simpa using can
    rw [cannot, if_pos (by decide)]
    refine ⟨_, owner, lists, rfl, ⟨inv.owned, inv.func_iff, ?_⟩, cannot⟩
    intro j
    by_cases same : j = i
    · subst same
      rw [setRound_self]
      exact (inv.rounds j).ignore cannot reason
    · rw [setRound_of_ne same]
      exact inv.rounds j

theorem addSignal (i : Fin m) (inactive : s.func tss = none) (f : Nat) :
    ∃ after owner' lists', s.trsyncAddSignal i tss (some f) = some after ∧
      Inv after owner' lists' := by
  have free : owner tss = none := (inv.func_iff tss).mp inactive
  have unlisted : ∀ j, tss ∉ lists j := by
    intro j isSignal
    exact inv.owned.ne_of_mem free isSignal rfl
  have others : ∀ j, ∀ other ∈ lists j, update s.func tss (some f) other = s.func other :=
    fun j other isSignal => update_of_ne (inv.owned.ne_of_mem free isSignal) _ _
  simp only [trsyncAddSignal, inactive]
  refine ⟨_, update owner tss (some i), update lists i (tss :: lists i), rfl, ?_, ?_, ?_⟩
  · change Owned _ (Trsync.signals ∘ update s.objects i _) _ _
    rw [comp_update]
    exact inv.owned.push free
  · intro other
    change update s.func tss (some f) other = none ↔ _
    by_cases same : other = tss
    · subst same
      simp
    · rw [update_of_ne same, update_of_ne same]
      exact inv.func_iff other
  · refine rounds_update ?_ (fun j _ => ?_)
    · refine callbacks_cons (update_self _ _ _) _ ▸ callbacks_congr (others i) ▸ ?_
      refine RoundInv.congr ((inv.rounds i).add ?_) rfl rfl
      rw [callbacks_fst (fun other isSignal => inv.active isSignal)]
      exact unlisted i
    · exact callbacks_congr (others j) ▸ inv.rounds j

/-- The loop of `trsync_shutdown` clears one object after the other. -/
theorem shutdownLoop (objects : List (Fin m)) :
    ∃ after owner' lists', objects.foldlM (fun s i => (s.trsyncClear i).map (fun s =>
        s.setRound i (s.rounds i).shutDown)) s = some after ∧ Inv after owner' lists' ∧
      (∀ i, i ∈ objects ∨ lists i = [] → lists' i = []) ∧
      ∀ i, i ∈ objects ∨ (s.rounds i).running = false → (after.rounds i).running = false := by
  induction objects generalizing s owner lists with
  | nil => exact ⟨s, owner, lists, rfl, inv, by simp, by simp⟩
  | cons i objects ih =>
    obtain ⟨middle, owner', clears, inv', isRounds⟩ := inv.clear i
    obtain ⟨after, owner'', lists', loops, inv'', empty, idle⟩ := ih inv'
    refine ⟨after, owner'', lists', ?_, inv'', ?_, ?_⟩
    · rw [foldlM_cons, clears]
      exact loops
    · intro j condition
      refine empty j ?_
      by_cases same : j = i
      · subst same
        exact .inr (update_self _ _ _)
      · rw [update_of_ne same]
        exact condition.imp (fun inside => (mem_cons.mp inside).resolve_left same) id
    · intro j condition
      refine idle j ?_
      rw [isRounds]
      by_cases same : j = i
      · subst same
        exact .inr (by rw [update_self]; rfl)
      · rw [update_of_ne same]
        exact condition.imp (fun inside => (mem_cons.mp inside).resolve_left same) id

theorem shutdown :
    ∃ after owner' lists', s.trsyncShutdown = some after ∧ Inv after owner' lists' ∧
      (∀ tss, after.func tss = none) ∧ ∀ i, (after.rounds i).running = false := by
  obtain ⟨after, owner', lists', shuts, inv', empty, idle⟩ := inv.shutdownLoop (finRange m)
  refine ⟨after, owner', lists', shuts, inv', ?_, fun i => idle i (.inl (mem_finRange i))⟩
  intro tss
  rw [inv'.func_iff]
  cases owned : owner' tss with
  | none => rfl
  | some i =>
    have isSignal := (inv'.owned.mem_iff i tss).mpr owned
    rw [empty i (.inl (mem_finRange i))] at isSignal
    cases isSignal

/-- Each input keeps the invariant, and none of them fails. -/
theorem execute (input : Input m n) :
    ∃ after owner' lists', s.execute input = some after ∧ Inv after owner' lists' := by
  cases input with
  | start i reportClock reportTicks expireReason =>
    obtain ⟨after, owner', starts, inv', _⟩ := inv.start i reportClock reportTicks expireReason
    exact ⟨after, owner', _, starts, inv'⟩
  | setTimeout i clock =>
    refine ⟨_, owner, lists, rfl, ?_⟩
    unfold commandTrsyncSetTimeout
    split
    · exact inv.setObject rfl rfl rfl
    · exact inv
  | trigger i reason =>
    obtain ⟨after, owner', lists', triggers, inv', cannot⟩ := inv.trigger i reason
    exact ⟨_, owner', lists', congrArg (Option.map _) triggers, inv'.setObject rfl cannot.symm rfl⟩
  | endstop i reason =>
    obtain ⟨after, owner', lists', triggers, inv', _⟩ := inv.trigger i reason
    exact ⟨after, owner', lists', triggers, inv'⟩
  | expire i =>
    have expired : Inv (s.setObject i { s.objects i with expireScheduled := false }) owner lists :=
      inv.setObject rfl rfl rfl
    obtain ⟨after, owner', lists', triggers, inv', _⟩ := expired.trigger i (s.objects i).expireReason
    exact ⟨after, owner', lists', triggers, inv'⟩
  | reportEvent i =>
    have reported : Inv (s.setObject i { s.objects i with
        report := true
        reportWaketime := (s.objects i).reportWaketime + (s.objects i).reportTicks }) owner lists :=
      inv.setObject rfl rfl rfl
    exact ⟨_, owner, lists, rfl, reported.congr rfl rfl rfl (fun _ => ⟨rfl, rfl, rfl⟩)⟩
  | task =>
    refine ⟨_, owner, lists, rfl, ?_⟩
    unfold trsyncTask
    split
    · exact inv.congr rfl rfl rfl (fun _ => ⟨rfl, rfl, rfl⟩)
    · exact inv
  | addSignal i tss func =>
    obtain ⟨after, owner', lists', shuts, inv', _⟩ := inv.shutdown
    cases inactive : s.func tss with
    | some active =>
      refine ⟨after, owner', lists', ?_, inv'⟩
      simp only [Machine.execute, Machine.trsyncAddSignal, inactive, shuts]
    | none =>
      cases func with
      | some f => exact inv.addSignal i inactive f
      | none =>
        refine ⟨after, owner', lists', ?_, inv'⟩
        simp only [Machine.execute, Machine.trsyncAddSignal, inactive, shuts]
  | shutdown =>
    obtain ⟨after, owner', lists', shuts, inv', _⟩ := inv.shutdown
    exact ⟨after, owner', lists', shuts, inv'⟩

end Inv

theorem config_inv (m n : Nat) : Inv (Machine.config m n) (fun _ => none) (fun _ => []) where
  owned := ⟨fun _ => rfl, by simp⟩
  func_iff := fun _ => iff_of_true rfl rfl
  rounds := fun _ => ⟨fun _ => rfl, nofun, nofun, Nat.zero_le _, fun _ => rfl, .nil, rfl⟩

theorem inv_of_reachable
    (reached : Reachable (fun first => first = Machine.config m n) Machine.step s) :
    ∃ owner lists, Inv s owner lists := by
  induction reached with
  | initial begins _ =>
    subst begins
    exact ⟨_, _, config_inv m n⟩
  | @next state after input _ steps _ ih =>
    obtain ⟨owner, lists, inv⟩ := ih
    obtain ⟨after', owner', lists', executes, inv'⟩ := inv.execute input
    rw [Machine.step] at steps
    split at steps
    · rw [executes] at steps
      cases steps
      exact ⟨owner', lists', inv'⟩
    · cases steps

/-! ### Exclusive triggers -/

/-- The signals are on these lists, and every object has triggered at most once
since its last start. -/
structure Exclusive (s : Machine m n) (lists : Fin m → List (Fin n)) : Prop where
  reads : ∀ i, Reads s.next (s.objects i).signals (lists i)
  listedOnce : ∀ i, (lists i).Nodup
  oneList : ∀ i j tss, tss ∈ lists i → tss ∈ lists j → i = j
  listed_iff : ∀ tss, s.func tss ≠ none ↔ ∃ i, tss ∈ lists i
  atMostOnce : ∀ i, (s.rounds i).effects.length ≤ 1
  /-- While an object runs, its first cause took effect and gave the reason. -/
  firstCause : ∀ i, (s.rounds i).running = true → (s.rounds i).effects = (s.rounds i).causes.take 1 ∧
    ∀ reason ∈ (s.rounds i).causes.head?, (s.objects i).triggerReason = reason
  /-- Before a start and after a shutdown nothing triggers. -/
  idle : ∀ i, (s.rounds i).running = false → (s.objects i).canTrigger = false
  registeredOnce : ∀ i, ((s.rounds i).registered.map Prod.fst).Nodup
  /-- The trigger has invoked what was registered since the start, and nothing else. -/
  invoked : ∀ i, (s.rounds i).invoked = (s.rounds i).effects.flatMap (fun reason =>
    (s.rounds i).registered.reverse.map (fun c => (c, reason)))
  startClears : ∀ i reportClock reportTicks expireReason after,
    s.commandTrsyncStart i reportClock reportTicks expireReason = some after →
      (after.objects i).signals = none ∧ ∀ tss ∈ lists i, after.func tss = none
  shutdownClears : ∀ after, s.trsyncShutdown = some after →
    (∀ tss, after.func tss = none) ∧ ∀ i, (after.rounds i).running = false
  succeeds : ∀ input, (s.execute input).isSome

theorem Inv.exclusive {owner : Fin n → Option (Fin m)} {lists : Fin m → List (Fin n)}
    (inv : Inv s owner lists) : Exclusive s lists where
  reads := inv.owned.reads
  listedOnce := fun i => (inv.owned.reads i).nodup
  oneList := by
    intro i j tss first second
    rw [inv.owned.mem_iff] at first second
    exact some.inj (first.symm.trans second)
  listed_iff := by
    intro tss
    simp only [Ne, inv.func_iff, inv.owned.mem_iff]
    exact ne_none_iff_exists'
  atMostOnce := fun i => (inv.rounds i).once
  firstCause := by
    intro i running
    cases can : (s.objects i).canTrigger with
    | true =>
      obtain ⟨noCause, noEffect⟩ := (inv.rounds i).armed can
      simp [noCause, noEffect]
    | false =>
      obtain ⟨reason, later, causes, effects, isReason⟩ := (inv.rounds i).triggered running can
      simp [causes, effects, isReason]
  idle := fun i => (inv.rounds i).idle
  registeredOnce := fun i => (inv.rounds i).nodup
  invoked := fun i => (inv.rounds i).invoked
  startClears := by
    intro i reportClock reportTicks expireReason after starts
    obtain ⟨after', owner', starts', inv', func⟩ := inv.start i reportClock reportTicks expireReason
    rw [starts'] at starts
    cases starts
    have empty := inv'.owned.reads i
    rw [update_self] at empty
    refine ⟨empty, fun tss isSignal => ?_⟩
    rw [func, nullOn, if_pos isSignal]
  shutdownClears := by
    intro after shuts
    obtain ⟨after', owner', lists', shuts', _, func, idle⟩ := inv.shutdown
    rw [shuts'] at shuts
    cases shuts
    exact ⟨func, idle⟩
  succeeds := by
    intro input
    obtain ⟨after, _, _, executes, _⟩ := inv.execute input
    rw [executes]
    rfl

def homing : List (Input 2 3) :=
  [ .addSignal 0 2 (some 7),
    .start 0 1000 100 4,
    .addSignal 0 0 (some 5),
    .addSignal 0 1 (some 6),
    .addSignal 1 2 (some 7),
    .setTimeout 0 5000,
    .endstop 0 1,
    .expire 0,
    .trigger 0 2 ]

end MagnetoX.Mcu.Triggers
