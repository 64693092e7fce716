import Mathlib.Data.Fintype.Card
import MagnetoX.Mcu.MoveNodes.Memory

/-!
Owns that move nodes are neither lost nor shared: in every run the free list and
the move queues hold each node exactly once, as long as no command handler holds
one. A shutdown needs nothing of this: whatever the lists are, its handlers make
them anew, in any order.
-/

namespace MagnetoX.Mcu.MoveNodes

open Library.OwnedLists Library.Run Library.StateProgram List Option
open Mcu.Stepping (Stepper StepperMove Status Variant)
open Mcu.Gpio (DigitalOut DigitalMove)

variable {b : Board} {s : Machine b} {held : List (Node b)} {mh : Owner b} {m : Node b}

/-- A program may shut down, but not follow a null pointer. -/
def NoFault (failure : Failure) (_ : Machine b) : Prop := failure ≠ .fault

/-! ### Rules for the move queue -/

section Rules

variable {α : Type} {fails : Failure → Machine b → Prop}

theorem wp_onMemory {change : Memory b → Option (α × Memory b)} {failure : Failure} {value : α}
    {after : Memory b} {post : α → Machine b → Prop} (succeeds : change s.memory = some (value, after))
    (continues : post value { s with memory := after }) : wp (onMemory change failure) post fails s := by
  rw [onMemory, wp_bind, wp_get, succeeds]
  exact continues

variable {post : Node b → Machine b → Prop}

theorem wp_alloc (holds : s.memory.Holds held)
    (overflow : fails (.shutdown "Move queue overflow") s)
    (continues : ∀ m after, after.Holds (m :: held) → after.mq = s.memory.mq →
      post m { s with memory := after }) : wp moveAlloc post fails s := by
  cases allocates : s.memory.moveAlloc with
  | none =>
    rw [moveAlloc, onMemory, wp_bind, wp_get, allocates]
    exact overflow
  | some result =>
    obtain ⟨m, after⟩ := result
    obtain ⟨holds', mq, _⟩ := holds.alloc allocates
    exact wp_onMemory allocates (continues m after holds' mq)

theorem wp_push {post : Bool → Machine b → Prop} (holds : s.memory.Holds (m :: held))
    (fits : Fits mh (s.memory.contents m))
    (continues : ∀ first after, Memory.Pushed s.memory mh held first after →
      post first { s with memory := after }) : wp (moveQueuePush m mh) post fails s := by
  obtain ⟨first, after, pushes, pushed⟩ := holds.push fits
  exact wp_onMemory pushes (continues first after pushed)

theorem wp_pop (holds : s.memory.Holds held) (nonempty : s.memory.moveQueueEmpty mh = false)
    (continues : ∀ m after, (s.memory.mq mh).first = some m → Memory.Popped s.memory mh held m after →
      post m { s with memory := after }) : wp (moveQueuePop mh) post fails s := by
  cases isFirst : (s.memory.mq mh).first with
  | none =>
    rw [Memory.moveQueueEmpty, isFirst] at nonempty
    cases nonempty
  | some m =>
    obtain ⟨after, pops, popped⟩ := holds.pop isFirst
    exact wp_onMemory pops (continues m after isFirst popped)

theorem wp_first (holds : s.memory.Holds held) (nonempty : s.memory.moveQueueEmpty mh = false)
    (continues : ∀ m, Fits mh (s.memory.contents m) → post m s) :
    wp (moveQueueFirst mh) post fails s := by
  cases isFirst : (s.memory.mq mh).first with
  | none =>
    rw [Memory.moveQueueEmpty, isFirst] at nonempty
    cases nonempty
  | some m =>
    rw [moveQueueFirst, wp_bind, wp_get, isFirst]
    exact continues m (holds.first_fits isFirst)

theorem wp_containerOf {read : Contents → Option α} {post : α → Machine b → Prop}
    (fits : (read (s.memory.contents m)).isSome) (continues : ∀ move, post move s) :
    wp (containerOf read m) post fails s := by
  obtain ⟨move, isMove⟩ := Option.isSome_iff_exists.mp fits
  rw [containerOf, wp_bind, wp_get, isMove]
  exact continues move

@[simp] theorem wp_empty {post : Bool → Machine b → Prop} :
    wp (moveQueueEmpty mh) post fails s ↔ post (s.memory.moveQueueEmpty mh) s := Iff.rfl

section Changes

variable {post : Unit → Machine b → Prop}

@[simp] theorem wp_moveFree : wp (moveFree m) post fails s ↔
    post () { s with memory := s.memory.moveFree m } := Iff.rfl

@[simp] theorem wp_fill (contents : Contents) : wp (fill m contents) post fails s ↔
    post () { s with memory := s.memory.setContents m contents } := Iff.rfl

@[simp] theorem wp_setStepper (oid : Fin b.steppers) (stepper : Stepper) :
    wp (setStepper oid stepper) post fails s ↔
      post () { s with steppers := Function.update s.steppers oid stepper } := Iff.rfl

@[simp] theorem wp_setDigital (oid : Fin b.digitals) (digital : DigitalOut) :
    wp (setDigital oid digital) post fails s ↔
      post () { s with digitals := Function.update s.digitals oid digital } := Iff.rfl

@[simp] theorem wp_setPwm (oid : Fin b.pwms) (pwm : PwmOut) :
    wp (setPwm oid pwm) post fails s ↔
      post () { s with pwms := Function.update s.pwms oid pwm } := Iff.rfl

@[simp] theorem wp_setRunning (running : Option (Handler b)) :
    wp (setRunning running) post fails s ↔ post () { s with running } := Iff.rfl

end Changes

end Rules

/-! ### Steppers and digital outputs -/

/-- What the code of one object leaves alone. -/
structure Quiet (mh : Owner b) (held : List (Node b)) (s after : Machine b) : Prop where
  holds : after.memory.Holds held
  contents : after.memory.contents = s.memory.contents
  others : ∀ other, other ≠ mh → after.memory.mq other = s.memory.mq other
  pwms : after.pwms = s.pwms
  running : after.running = s.running

theorem Quiet.refl (holds : s.memory.Holds held) : Quiet mh held s s :=
  ⟨holds, rfl, fun _ _ => rfl, rfl, rfl⟩

variable {after middle : Machine b} {oid other : Fin b.pwms} {done : List ShutdownHandler}
  {input : Input b}

theorem Quiet.trans (first : Quiet mh held s middle)
    (second : Quiet mh held middle after) : Quiet mh held s after where
  holds := second.holds
  contents := second.contents.trans first.contents
  others := fun other different => (second.others other different).trans (first.others other different)
  pwms := second.pwms.trans first.pwms
  running := second.running.trans first.running

theorem Quiet.popFree {after : Memory b} (popped : Memory.Popped s.memory mh held m after) :
    Quiet mh held s { s with memory := after.moveFree m } where
  holds := popped.holds.free
  contents := popped.contents
  others := popped.others
  pwms := rfl
  running := rfl

theorem stepperLoadNext_spec (holds : s.memory.Holds held) (oid : Fin b.steppers) :
    wp (stepperLoadNext oid) (fun _ => Quiet (.stepper oid) held s) NoFault s := by
  unfold stepperLoadNext
  rw [wp_bind, wp_empty, wp_ite]
  constructor
  · intro _
    exact ⟨holds, rfl, fun _ _ => rfl, rfl, rfl⟩
  · intro nonempty
    rw [wp_bind]
    refine wp_pop holds (by simpa using nonempty) (fun mn after _ popped => ?_)
    rw [wp_bind]
    refine wp_containerOf (by rw [popped.contents]; exact popped.fits) (fun move => ?_)
    exact { Quiet.popFree popped with }

theorem loadNext_after_set (holds : s.memory.Holds held) (oid : Fin b.steppers)
    (steppers : Fin b.steppers → Stepper) :
    wp (stepperLoadNext oid) (fun _ => Quiet (.stepper oid) held s) NoFault { s with steppers } :=
  wp_weaken (stepperLoadNext_spec (s := { s with steppers }) holds oid)
    (fun _ _ quiet => { quiet with })

theorem Quiet.setSteppers (quiet : Quiet mh held s after) (steppers : Fin b.steppers → Stepper) :
    Quiet mh held s { after with steppers } :=
  { quiet with }

section

variable (holds : s.memory.Holds held)
include holds

theorem stepperEventEdge_spec (oid : Fin b.steppers) :
    wp (stepperEventEdge oid) (fun _ => Quiet (.stepper oid) held s) NoFault s := by
  unfold stepperEventEdge
  rw [wp_bind, wp_get, wp_ite]
  constructor
  · intro _
    exact (Quiet.refl holds).setSteppers _
  · intro _
    rw [wp_bind]
    exact loadNext_after_set holds oid _

theorem stepperEventAvr_spec (oid : Fin b.steppers) :
    wp (stepperEventAvr oid) (fun _ => Quiet (.stepper oid) held s) NoFault s := by
  unfold stepperEventAvr
  rw [wp_bind, wp_get, wp_ite]
  constructor
  · intro _
    exact (Quiet.refl holds).setSteppers _
  · intro _
    rw [wp_bind]
    refine (wp_bind).mpr (wp_weaken (loadNext_after_set holds oid _) (fun ret after quiet => ?_))
    exact quiet.setSteppers _

theorem stepperEventFull_spec (curtime : Int) (oid : Fin b.steppers) :
    wp (stepperEventFull curtime oid) (fun _ => Quiet (.stepper oid) held s) NoFault s := by
  unfold stepperEventFull
  rw [wp_bind, wp_get]
  simp only [wp_ite]
  refine ⟨fun _ => (Quiet.refl holds).setSteppers _, fun _ => ⟨fun _ => ?_, fun _ => ?_⟩⟩
  · exact (Quiet.refl holds).setSteppers _
  · rw [wp_bind]
    refine (wp_bind).mpr (wp_weaken (loadNext_after_set holds oid _) (fun ret after quiet => ?_))
    rw [wp_bind, wp_get, wp_ite]
    exact ⟨fun _ => quiet, fun _ => quiet.setSteppers _⟩

theorem stepperTimer_spec (curtime : Int) (oid : Fin b.steppers) :
    wp (stepperTimer curtime oid) (fun _ => Quiet (.stepper oid) held s) NoFault s := by
  have event : wp (stepperEvent curtime oid) (fun _ => Quiet (.stepper oid) held s) NoFault s := by
    unfold stepperEvent
    split
    · exact stepperEventEdge_spec holds oid
    · exact stepperEventAvr_spec holds oid
    · exact stepperEventFull_spec holds curtime oid
    · exact stepperEventFull_spec holds curtime oid
  have func : wp (stepperFunc curtime oid) (fun _ => Quiet (.stepper oid) held s) NoFault s := by
    unfold stepperFunc
    rw [wp_bind, wp_get, wp_ite]
    exact ⟨fun _ => stepperEventFull_spec holds curtime oid, fun _ => event⟩
  unfold stepperTimer
  rw [wp_bind]
  refine wp_weaken func (fun ret after quiet => ?_)
  rw [wp_ite]
  exact ⟨fun _ => quiet.setSteppers _, fun _ => quiet⟩

/-- The loop of `stepper_stop` ends, since each round takes one node off the
queue. -/
theorem freeQueue_spec {nodes : List (Node b)} {fuel : Nat}
    (reads : Reads s.memory.next (s.memory.mq mh).first nodes) (enough : nodes.length < fuel) :
    wp (freeQueue mh fuel) (fun _ => Quiet mh held s) NoFault s := by
  induction fuel generalizing s nodes with
  | zero => omega
  | succ fuel ih =>
    rw [freeQueue, wp_bind, wp_empty, wp_ite]
    refine ⟨fun _ => Quiet.refl holds, fun nonempty => ?_⟩
    rw [wp_bind]
    refine wp_pop holds (by simpa using nonempty) (fun mn after isFirst popped => ?_)
    rw [isFirst] at reads
    obtain ⟨rest, isNodes, readsRest⟩ := reads.of_some
    have fresh : mn ∉ rest := by
      have nodup := reads.nodup
      rw [isNodes] at nodup
      exact (nodup_cons.mp nodup).1
    have quiet := Quiet.popFree popped
    have readsAfter : Reads (after.moveFree mn).next ((after.moveFree mn).mq mh).first rest := by
      have first : ((after.moveFree mn).mq mh).first = s.memory.next mn := popped.first
      rw [first]
      refine readsRest.congr (fun node isNode => ?_)
      have different : node ≠ mn := by
        rintro rfl
        exact fresh isNode
      simp [Memory.moveFree, different, popped.next]
    rw [isNodes, length_cons] at enough
    rw [wp_bind, wp_moveFree]
    exact wp_weaken (ih quiet.holds readsAfter (by omega)) (fun _ _ later => quiet.trans later)

theorem stepperStop_spec (oid : Fin b.steppers) :
    wp (stepperStop oid) (fun _ => Quiet (.stepper oid) held s) NoFault s := by
  have isHolds := holds
  obtain ⟨owner, lists, linked, _, _⟩ := holds
  have reads := linked.owned.reads (some (.stepper oid))
  have bounded := reads.nodup.length_le_card
  rw [Fintype.card_fin] at bounded
  unfold stepperStop
  rw [wp_bind, wp_get, wp_bind, wp_setStepper]
  have loop := fun steppers => @freeQueue_spec b { s with steppers } held (.stepper oid) isHolds _
    (b.moveCount + 1) reads (Nat.lt_succ_of_le bounded)
  exact wp_weaken (loop _) (fun _ _ quiet => { quiet with })

end

theorem Quiet.setDigitals (quiet : Quiet mh held s after) (digitals : Fin b.digitals → DigitalOut) :
    Quiet mh held s { after with digitals } :=
  { quiet with }

theorem digitalLoadEvent_spec (holds : s.memory.Holds held) (oid : Fin b.digitals) :
    wp (digitalLoadEvent oid) (fun _ => Quiet (.digital oid) held s) NoFault s := by
  unfold digitalLoadEvent
  rw [wp_bind, wp_empty]
  simp only [wp_bind, wp_ite, wp_throw]
  refine ⟨fun _ => by rintro ⟨⟩, fun nonempty => ?_⟩
  refine wp_pop holds (by simpa using nonempty) (fun mn after _ popped => ?_)
  refine wp_containerOf (by rw [popped.contents]; exact popped.fits) (fun move => ?_)
  have quiet := Quiet.popFree popped
  simp only [wp_get, wp_moveFree, wp_empty, wp_setDigital]
  refine ⟨fun _ => quiet.setDigitals _, fun more => ?_⟩
  refine wp_first quiet.holds (by simpa using more) (fun first fits => ?_)
  refine wp_containerOf fits (fun next => ?_)
  exact ⟨fun _ => by rintro ⟨⟩, fun _ => quiet.setDigitals _⟩

theorem digitalTimer_spec (holds : s.memory.Holds held) (oid : Fin b.digitals) :
    wp (digitalTimer oid) (fun _ => Quiet (.digital oid) held s) NoFault s := by
  unfold digitalTimer
  rw [wp_bind, wp_get]
  dsimp only
  split
  · exact (Quiet.refl holds).setDigitals _
  · exact digitalLoadEvent_spec holds oid

/-! ### The invariant -/

/-- The node that a command handler holds between its parts. -/
def heldBy : Option (Handler b) → List (Node b)
  | none => []
  | some (.queueStep _ m) => [m]
  | some (.queueDigitalOut _ m) => [m]
  | some (.queuePwmOut _ m) => [m]
  | some (.addPwmTimer _ _) => []

/-- The node of a command handler holds the structure of its object. -/
def HandlerFits (contents : Node b → Contents) : Option (Handler b) → Prop
  | none => True
  | some (.queueStep oid m) => Fits (.stepper oid) (contents m)
  | some (.queueDigitalOut oid m) => Fits (.digital oid) (contents m)
  | some (.queuePwmOut oid m) => Fits (.pwm oid) (contents m)
  | some (.addPwmTimer oid m) => Fits (.pwm oid) (contents m)

/-- The timer will call `pwm_event`, which takes a move off the queue unchecked. -/
def PwmOut.Armed (p : PwmOut) : Prop := p.scheduled = true ∧ p.func = .pwmEvent

structure Inv (s : Machine b) : Prop where
  holds : s.memory.Holds (heldBy s.running)
  fits : HandlerFits s.memory.contents s.running
  armed : ∀ oid, (s.pwms oid).Armed → (s.memory.mq (.pwm oid)).first ≠ none
  adding : ∀ oid m, s.running = some (.addPwmTimer oid m) →
    ¬ (s.pwms oid).Armed ∧ (s.memory.mq (.pwm oid)).first ≠ none

/-- The code of a stepper or a digital output keeps the invariant. -/
theorem Quiet.inv (quiet : Quiet mh (heldBy s.running) s after) (inv : Inv s)
    (noPwm : ∀ oid, Owner.pwm oid ≠ mh) : Inv after where
  holds := by
    rw [quiet.running]
    exact quiet.holds
  fits := by
    rw [quiet.running, quiet.contents]
    exact inv.fits
  armed := by
    intro oid
    rw [quiet.pwms, quiet.others _ (noPwm oid)]
    exact inv.armed oid
  adding := by
    intro oid m
    rw [quiet.running, quiet.pwms, quiet.others _ (noPwm oid)]
    exact inv.adding oid m

/-! ### Hardware PWM outputs -/

theorem pwm_ne (different : other ≠ oid) : Owner.pwm other ≠ .pwm oid :=
  fun same => different (Owner.pwm.inj same)

section

variable (inv : Inv s)
include inv

theorem Inv.setPwm {p : PwmOut} (quiet : Quiet (.pwm oid) (heldBy s.running) s after)
    (armed : p.Armed → (after.memory.mq (.pwm oid)).first ≠ none)
    (notAdding : ∀ m, s.running ≠ some (.addPwmTimer oid m)) :
    Inv { after with pwms := Function.update s.pwms oid p } where
  holds := by
    simp only [quiet.running]
    exact quiet.holds
  fits := by
    simp only [quiet.running, quiet.contents]
    exact inv.fits
  armed := by
    intro other
    by_cases same : other = oid
    · subst same
      simpa using armed
    · simp only [Function.update_of_ne same, quiet.others _ (pwm_ne same)]
      exact inv.armed other
  adding := by
    intro other m isRunning
    rw [quiet.running] at isRunning
    by_cases same : other = oid
    · subst same
      exact absurd isRunning (notAdding m)
    · simp only [Function.update_of_ne same, quiet.others _ (pwm_ne same)]
      exact inv.adding other m isRunning

theorem pwmEvent_spec (armed : (s.pwms oid).Armed) :
    wp (pwmEvent oid) (fun _ => Inv) NoFault s := by
  have notAdding : ∀ m, s.running ≠ some (.addPwmTimer oid m) :=
    fun m isRunning => (inv.adding oid m isRunning).1 armed
  have nonempty := Memory.moveQueueEmpty_eq_false.mpr (inv.armed oid armed)
  unfold pwmEvent
  rw [wp_bind]
  refine wp_pop inv.holds nonempty (fun mn after _ popped => ?_)
  rw [wp_bind]
  refine wp_containerOf (by rw [popped.contents]; exact popped.fits) (fun move => ?_)
  have quiet := Quiet.popFree popped
  simp only [wp_bind, wp_get, wp_moveFree, wp_empty, wp_ite, wp_setPwm, wp_throw]
  refine ⟨fun _ => ⟨fun _ => ?_, fun _ => ?_⟩, fun more => ?_⟩
  · exact inv.setPwm quiet (by rintro ⟨⟨⟩, _⟩) notAdding
  · exact inv.setPwm quiet (by rintro ⟨_, ⟨⟩⟩) notAdding
  · refine wp_first quiet.holds (by simpa using more) (fun first fits => ?_)
    refine wp_containerOf fits (fun next => ?_)
    refine ⟨fun _ => by rintro ⟨⟩, fun _ => ?_⟩
    refine inv.setPwm quiet (fun _ => ?_) notAdding
    exact Memory.moveQueueEmpty_eq_false.mp (by simpa using more)

theorem pwmTimer_spec (scheduled : (s.pwms oid).scheduled = true) :
    wp (pwmTimer oid) (fun _ => Inv) NoFault s := by
  unfold pwmTimer
  rw [wp_bind, wp_get]
  split
  · rename_i isEvent
    exact pwmEvent_spec inv ⟨scheduled, isEvent⟩
  · exact nofun

/-! ### Commands -/

theorem Inv.begin {after : Memory b} (holds : after.Holds [m]) (mq : after.mq = s.memory.mq)
    (contents : Contents) {handler : Handler b} (isHeld : heldBy (some handler) = [m])
    (fits : HandlerFits (after.setContents m contents).contents (some handler)) :
    Inv { s with memory := after.setContents m contents, running := some handler } where
  holds := by
    rw [isHeld]
    exact holds.fill (.head _) contents
  fits := fits
  armed := by
    intro oid
    have same : ((after.setContents m contents).mq (.pwm oid)) = s.memory.mq (.pwm oid) := congrFun mq _
    simp only [same]
    exact inv.armed oid
  adding := by
    intro oid node isAdding
    cases isAdding
    cases isHeld

theorem Inv.finish (holds : after.memory.Holds []) (pwms : after.pwms = s.pwms)
    (queues : ∀ oid, after.memory.mq (.pwm oid) = s.memory.mq (.pwm oid))
    (ends : after.running = none) : Inv after := by
  refine ⟨?_, ?_, ?_, ?_⟩
  · rw [ends]
    exact holds
  · rw [ends]
    trivial
  · intro oid
    rw [pwms, queues oid]
    exact inv.armed oid
  · intro oid m isAdding
    rw [ends] at isAdding
    cases isAdding

theorem commandQueueStep_spec (idle : s.running = none) (oid : Fin b.steppers)
    (interval count add : Int) :
    wp (commandQueueStep oid interval count add) (fun _ => Inv) NoFault s := by
  have holds := inv.holds
  rw [idle] at holds
  unfold commandQueueStep
  rw [wp_bind]
  refine wp_alloc holds (by rintro ⟨⟩) (fun m after holds mq => ?_)
  simp only [wp_bind, wp_fill, wp_ite, wp_throw, wp_setRunning]
  refine ⟨fun _ => by rintro ⟨⟩, fun _ => ?_⟩
  refine inv.begin holds mq _ rfl ?_
  simp [HandlerFits, Memory.setContents, Fits, Contents.stepper?]

theorem finishQueueStep_spec {oid : Fin b.steppers}
    (isRunning : s.running = some (.queueStep oid m)) :
    wp (finishQueueStep oid m) (fun _ => Inv) NoFault s := by
  have holds := inv.holds
  have fits := inv.fits
  rw [isRunning] at holds fits
  unfold finishQueueStep
  rw [wp_bind]
  refine wp_containerOf fits (fun move => ?_)
  simp only [wp_bind, wp_get, wp_fill, wp_ite, wp_setStepper, wp_moveFree, wp_setRunning]
  have filled := fun contents => holds.fill (.head _) contents
  have fitsFilled : ∀ move, Fits (.stepper oid) ((s.memory.setContents m (.stepper move)).contents m) := by
    intro move
    simp [Memory.setContents, Fits, Contents.stepper?]
  refine ⟨fun _ => ?_, fun _ => ⟨fun _ => ?_, fun _ => ?_⟩⟩
  · refine wp_push (filled _) (fitsFilled _) (fun first after pushed => ?_)
    exact inv.finish pushed.holds rfl (fun oid => pushed.others _ (by rintro ⟨⟩)) rfl
  · exact inv.finish (filled _).free rfl (fun _ => rfl) rfl
  · refine wp_push (filled _) (fitsFilled _) (fun first after pushed => ?_)
    refine wp_weaken (stepperLoadNext_spec pushed.holds oid) (fun ret later quiet => ?_)
    refine inv.finish quiet.holds quiet.pwms (fun other => ?_) rfl
    exact (quiet.others (.pwm other) (by rintro ⟨⟩)).trans (pushed.others (.pwm other) (by rintro ⟨⟩))

theorem queueNode_spec {contents : Contents} {handler : Node b → Handler b} (idle : s.running = none)
    (isHeld : ∀ m, heldBy (some (handler m)) = [m])
    (fits : ∀ (memory : Memory b) m, HandlerFits (memory.setContents m contents).contents (some (handler m))) :
    wp (queueNode contents handler) (fun _ => Inv) NoFault s := by
  have holds := inv.holds
  rw [idle] at holds
  unfold queueNode
  rw [wp_bind]
  refine wp_alloc holds (by rintro ⟨⟩) (fun m after holds mq => ?_)
  simp only [wp_bind, wp_fill, wp_setRunning]
  exact inv.begin holds mq _ (isHeld m) (fits after m)

theorem finishQueueDigitalOut_spec {oid : Fin b.digitals}
    (isRunning : s.running = some (.queueDigitalOut oid m)) :
    wp (finishQueueDigitalOut oid m) (fun _ => Inv) NoFault s := by
  have holds := inv.holds
  have fits := inv.fits
  rw [isRunning] at holds fits
  unfold finishQueueDigitalOut
  rw [wp_bind]
  refine wp_containerOf fits (fun move => ?_)
  rw [wp_bind]
  refine wp_push holds fits (fun first after pushed => ?_)
  have ends : ∀ digitals, Inv { s with memory := after, digitals, running := none } :=
    fun digitals => inv.finish pushed.holds rfl (fun oid => pushed.others _ (by rintro ⟨⟩)) rfl
  simp only [wp_ite, wp_bind, wp_get, wp_throw, wp_setDigital, wp_setRunning]
  exact ⟨fun _ => ⟨fun _ => by rintro ⟨⟩, fun _ => ⟨fun _ => ends _, fun _ => ends _⟩⟩, fun _ => ends _⟩

theorem pushPwmOut_spec (isRunning : s.running = some (.queuePwmOut oid m)) :
    wp (pushPwmOut oid m) (fun _ => Inv) NoFault s := by
  have holds := inv.holds
  have fits := inv.fits
  rw [isRunning] at holds fits
  unfold pushPwmOut
  rw [wp_bind]
  refine wp_push holds fits (fun first after pushed => ?_)
  rw [wp_setRunning]
  have armed : ∀ other, (s.pwms other).Armed → (after.mq (.pwm other)).first ≠ none := by
    intro other isArmed
    by_cases same : other = oid
    · subst same
      exact pushed.nonempty
    · rw [pushed.others _ (pwm_ne same)]
      exact inv.armed other isArmed
  cases first with
  | false => exact ⟨pushed.holds, trivial, armed, nofun⟩
  | true =>
    refine ⟨pushed.holds, ?_, armed, ?_⟩
    · simp only [if_true, HandlerFits, pushed.contents]
      exact fits
    · intro other node isAdding
      cases isAdding
      exact ⟨fun isArmed => inv.armed oid isArmed (pushed.first_iff.mp rfl), pushed.nonempty⟩

theorem addPwmTimer_spec (isRunning : s.running = some (.addPwmTimer oid m)) :
    wp (addPwmTimer oid m) (fun _ => Inv) NoFault s := by
  have holds := inv.holds
  have fits := inv.fits
  have nonempty := (inv.adding oid m isRunning).2
  rw [isRunning] at holds fits
  unfold addPwmTimer
  rw [wp_bind]
  refine wp_containerOf fits (fun move => ?_)
  simp only [wp_bind, wp_get, wp_ite, wp_throw, wp_setPwm, wp_setRunning]
  refine ⟨fun _ => by rintro ⟨⟩, fun _ => ⟨holds, trivial, ?_, by rintro _ _ ⟨⟩⟩⟩
  intro other
  by_cases same : other = oid
  · subst same
    exact fun _ => nonempty
  · simp only [Function.update_of_ne same]
    exact inv.armed other

end

/-! ### Shutdown -/

/-- The shutdown handler that clears a queue. -/
def Owner.handler : Owner b → ShutdownHandler
  | .stepper _ => .stepperShutdown
  | .digital _ => .digitalOutShutdown
  | .pwm _ => .pwmShutdown

/-- What the shutdown handlers have done so far. No handler undoes what another
has done, so the order does not matter. -/
structure Cleared (done : List ShutdownHandler) (s : Machine b) : Prop where
  reset : .moveReset ∈ done →
    s.memory.next = s.memory.moveReset.next ∧ s.memory.moveFreeList = some ⟨0, b.isFinalized⟩
  queues : ∀ mh : Owner b, mh.handler ∈ done → (s.memory.mq mh).first = none
  unscheduled : ∀ oid, (s.pwms oid).scheduled = false
  idle : s.running = none

theorem Cleared.inv (cleared : Cleared done s) (all : ∀ handler, handler ∈ done) : Inv s where
  holds := by
    rw [cleared.idle]
    obtain ⟨next, free⟩ := cleared.reset (all _)
    exact Memory.moveReset_holds next free (fun mh => cleared.queues mh (all _))
  fits := by
    rw [cleared.idle]
    trivial
  armed := by
    intro oid isArmed
    rw [PwmOut.Armed, cleared.unscheduled oid] at isArmed
    cases isArmed.1
  adding := by
    intro oid m isAdding
    rw [cleared.idle] at isAdding
    cases isAdding

/-- Clearing queues keeps what is cleared. -/
structure Clears (s after : Machine b) : Prop where
  next : after.memory.next = s.memory.next
  free : after.memory.moveFreeList = s.memory.moveFreeList
  queues : ∀ mh, (s.memory.mq mh).first = none → (after.memory.mq mh).first = none
  unscheduled : (∀ oid, (s.pwms oid).scheduled = false) → ∀ oid, (after.pwms oid).scheduled = false
  running : after.running = s.running

theorem Clears.trans (first : Clears s middle) (second : Clears middle after) : Clears s after where
  next := second.next.trans first.next
  free := second.free.trans first.free
  queues := fun mh cleared => second.queues mh (first.queues mh cleared)
  unscheduled := fun unscheduled => second.unscheduled (first.unscheduled unscheduled)
  running := second.running.trans first.running

/-- A handler that goes over all objects clears all their queues, if it clears the
queue of each. -/
theorem clearEach {count : Nat} {each : Fin count → Program b Unit} (owner : Fin count → Owner b)
    (clears : ∀ oid s, wp (each oid)
      (fun _ after => Clears s after ∧ (after.memory.mq (owner oid)).first = none)
      (fun _ _ => False) s) (s : Machine b) :
    wp ((List.finRange count).forM each)
      (fun _ after => Clears s after ∧ ∀ oid, (after.memory.mq (owner oid)).first = none)
      (fun _ _ => False) s := by
  refine wp_weaken (wp_forM
    (fun done after => Clears s after ∧ ∀ oid ∈ done, (after.memory.mq (owner oid)).first = none)
    (finRange count) ?_ [] ?_)
    (fun _ after result => ⟨result.1, fun oid => result.2 oid (by simp)⟩)
  · intro done oid middle before
    refine wp_weaken (clears oid middle) (fun _ after result => ?_)
    refine ⟨before.1.trans result.1, fun other inside => ?_⟩
    rcases mem_cons.mp inside with rfl | old
    · exact result.2
    · exact result.1.queues _ (before.2 other old)
  · exact ⟨⟨rfl, rfl, fun _ cleared => cleared, fun unscheduled => unscheduled, rfl⟩, nofun⟩

theorem clears_moveQueueClear (s : Machine b) (mh : Owner b) :
    Clears s { s with memory := s.memory.moveQueueClear mh } ∧
      ((s.memory.moveQueueClear mh).mq mh).first = none := by
  refine ⟨⟨rfl, rfl, fun other cleared => ?_, fun unscheduled => unscheduled, rfl⟩, ?_⟩
  · by_cases same : other = mh
    · subst same
      simp [Memory.moveQueueClear, Memory.setHead]
    · simpa [Memory.moveQueueClear, Memory.setHead, same] using cleared
  · simp [Memory.moveQueueClear, Memory.setHead]

theorem stepperStop_cleared (s : Machine b) {oid : Fin b.steppers}
    (cleared : (s.memory.mq (.stepper oid)).first = none) :
    wp (stepperStop oid) (fun _ after => ∃ steppers, after = { s with steppers })
      (fun _ _ => False) s := by
  unfold stepperStop
  rw [wp_bind, wp_get, wp_bind, wp_setStepper, freeQueue, wp_bind, wp_empty, wp_ite]
  refine ⟨fun _ => ⟨_, rfl⟩, fun nonempty => ?_⟩
  simp [Memory.moveQueueEmpty, cleared] at nonempty

/-- A handler that only clears queues keeps what the others have done. -/
theorem Cleared.of_clears {handler : ShutdownHandler} (cleared : Cleared done s)
    (clears : Clears s after) (isOther : handler ≠ .moveReset)
    (now : ∀ mh : Owner b, mh.handler = handler → (after.memory.mq mh).first = none) :
    Cleared (handler :: done) after where
  reset := by
    intro isDone
    obtain same | isDone := mem_cons.mp isDone
    · exact absurd same.symm isOther
    · rw [clears.next, clears.free]
      exact cleared.reset isDone
  queues := by
    intro mh isDone
    obtain same | isDone := mem_cons.mp isDone
    · exact now mh same
    · exact clears.queues mh (cleared.queues mh isDone)
  unscheduled := clears.unscheduled cleared.unscheduled
  idle := clears.running.trans cleared.idle

theorem ShutdownHandler.run_spec (cleared : Cleared done s) (handler : ShutdownHandler) :
    wp (handler.run : Program b Unit) (fun _ => Cleared (handler :: done)) (fun _ _ => False) s := by
  cases handler with
  | moveReset =>
    refine ⟨fun _ => ⟨rfl, rfl⟩, fun mh isDone => ?_, cleared.unscheduled, cleared.idle⟩
    have notReset : mh.handler ≠ .moveReset := by cases mh <;> nofun
    exact cleared.queues mh ((mem_cons.mp isDone).resolve_left notReset)
  | stepperShutdown =>
    refine wp_weaken (clearEach Owner.stepper (fun oid s => ?_) s)
      (fun _ after result => cleared.of_clears result.1 nofun (by rintro (oid | oid | oid) ⟨⟩; exact result.2 oid))
    obtain ⟨clears, first⟩ := clears_moveQueueClear s (.stepper oid)
    rw [wp_bind, wp_modify]
    refine wp_weaken (stepperStop_cleared _ first) ?_
    rintro _ _ ⟨steppers, rfl⟩
    exact ⟨{ clears with }, first⟩
  | digitalOutShutdown =>
    refine wp_weaken (clearEach Owner.digital (fun oid s => ?_) s)
      (fun _ after result => cleared.of_clears result.1 nofun (by rintro (oid | oid | oid) ⟨⟩; exact result.2 oid))
    obtain ⟨clears, first⟩ := clears_moveQueueClear s (.digital oid)
    rw [wp_bind, wp_modify]
    exact ⟨{ clears with }, first⟩
  | pwmShutdown =>
    refine wp_weaken (clearEach Owner.pwm (fun oid s => ?_) s)
      (fun _ after result => cleared.of_clears result.1 nofun (by rintro (oid | oid | oid) ⟨⟩; exact result.2 oid))
    obtain ⟨clears, first⟩ := clears_moveQueueClear s (.pwm oid)
    refine ⟨⟨clears.next, clears.free, clears.queues, fun unscheduled other => ?_, rfl⟩, first⟩
    by_cases same : other = oid
    · subst same
      simpa using unscheduled other
    · simpa [Function.update_of_ne same] using unscheduled other

/-- A shutdown establishes the invariant from any state. -/
theorem runShutdown_spec (s : Machine b) : wp runShutdown (fun _ => Inv) (fun _ _ => False) s := by
  unfold runShutdown
  rw [wp_bind, wp_modify]
  have begins : Cleared [] s.timerReset := ⟨nofun, nofun, fun _ => rfl, rfl⟩
  refine wp_weaken (wp_forM Cleared b.shutdownOrder
    (fun done handler s cleared => ShutdownHandler.run_spec cleared handler) [] begins)
    (fun _ after cleared => cleared.inv (fun handler => ?_))
  simpa using b.runsAll handler

/-! ### Runs -/

section

variable (inv : Inv s)
include inv

theorem Inv.setSteppers (steppers : Fin b.steppers → Stepper) : Inv { s with steppers } :=
  { inv with }

theorem Inv.setDigitals (digitals : Fin b.digitals → DigitalOut) :
    Inv { s with digitals } :=
  { inv with }

theorem commandSetNextStepDir_spec (oid : Fin b.steppers) (dir : Int) :
    wp (commandSetNextStepDir oid dir) (fun _ => Inv) NoFault s :=
  inv.setSteppers _

theorem commandResetStepClock_spec (oid : Fin b.steppers) (clock : Int) :
    wp (commandResetStepClock oid clock) (fun _ => Inv) NoFault s := by
  unfold commandResetStepClock
  rw [wp_bind, wp_get]
  split
  · exact inv.setSteppers _
  · exact nofun

theorem commandSetDigitalOutPwmCycle_spec (oid : Fin b.digitals) (cycleTicks : Nat) :
    wp (commandSetDigitalOutPwmCycle oid cycleTicks) (fun _ => Inv) NoFault s := by
  unfold commandSetDigitalOutPwmCycle
  simp only [wp_bind, wp_empty, wp_ite, wp_throw]
  exact ⟨fun _ => by rintro ⟨⟩, fun _ => inv.setDigitals _⟩

theorem commandUpdateDigitalOut_spec (oid : Fin b.digitals) (time : Int) (value : Bool) :
    wp (commandUpdateDigitalOut oid time value) (fun _ => Inv) NoFault s := by
  unfold commandUpdateDigitalOut
  simp only [wp_bind, wp_empty, wp_ite, wp_throw, wp_get]
  refine ⟨fun _ => by rintro ⟨⟩, fun _ => ?_⟩
  split
  · exact inv.setDigitals _
  · rintro ⟨⟩

end

open Machine

/-- Whatever runs from a state with the invariant, it ends in one or shuts down. -/
theorem Inv.program (inv : Inv s) {program : Program b Unit}
    (enabled : s.program input = some program) : wp program (fun _ => Inv) NoFault s := by
  have quietly : ∀ (mh : Owner b) {program : Program b Unit}, (∀ oid, Owner.pwm oid ≠ mh) →
      wp program (fun _ => Quiet mh (heldBy s.running) s) NoFault s → wp program (fun _ => Inv) NoFault s :=
    fun _ _ noPwm spec => wp_weaken spec (fun _ _ quiet => quiet.inv inv noPwm)
  have command : ∀ {program command : Program b Unit},
      Machine.program.whenIdle s command = some program →
      (s.running = none → wp command (fun _ => Inv) NoFault s) → wp program (fun _ => Inv) NoFault s := by
    intro program command enabled spec
    obtain ⟨idle, ⟨⟩⟩ := ite_none_right_eq_some.mp enabled
    exact spec idle
  cases input with
  | queueStep oid interval count add =>
    exact command enabled (fun idle => commandQueueStep_spec inv idle oid interval count add)
  | setNextStepDir oid dir => exact command enabled (fun _ => commandSetNextStepDir_spec inv oid dir)
  | resetStepClock oid clock => exact command enabled (fun _ => commandResetStepClock_spec inv oid clock)
  | queueDigitalOut oid clock onTicks =>
    have fits : ∀ (memory : Memory b) m, HandlerFits (memory.setContents m (.digital ⟨clock, onTicks⟩)).contents
        (some (.queueDigitalOut oid m)) := by
      simp [HandlerFits, Memory.setContents, Fits, Contents.digital?]
    exact command enabled (fun idle => queueNode_spec inv idle (fun _ => rfl) fits)
  | updateDigitalOut oid time value =>
    exact command enabled (fun _ => commandUpdateDigitalOut_spec inv oid time value)
  | setDigitalOutPwmCycle oid cycleTicks =>
    exact command enabled (fun _ => commandSetDigitalOutPwmCycle_spec inv oid cycleTicks)
  | queuePwmOut oid clock value =>
    have fits : ∀ (memory : Memory b) m, HandlerFits (memory.setContents m (.pwm ⟨clock, value⟩)).contents
        (some (.queuePwmOut oid m)) := by
      simp [HandlerFits, Memory.setContents, Fits, Contents.pwm?]
    exact command enabled (fun idle => queueNode_spec inv idle (fun _ => rfl) fits)
  | resume =>
    cases isRunning : s.running with
    | none => simp [Machine.program, isRunning] at enabled
    | some handler =>
      rw [Machine.program, isRunning] at enabled
      cases handler with
      | queueStep oid m =>
        cases enabled
        exact finishQueueStep_spec inv isRunning
      | queueDigitalOut oid m =>
        cases enabled
        exact finishQueueDigitalOut_spec inv isRunning
      | queuePwmOut oid m =>
        cases enabled
        exact pushPwmOut_spec inv isRunning
      | addPwmTimer oid m =>
        cases enabled
        exact addPwmTimer_spec inv isRunning
  | stepperTimer oid curtime =>
    obtain ⟨_, ⟨⟩⟩ := ite_none_right_eq_some.mp enabled
    exact quietly (.stepper oid) nofun (stepperTimer_spec inv.holds curtime oid)
  | digitalTimer oid =>
    obtain ⟨_, ⟨⟩⟩ := ite_none_right_eq_some.mp enabled
    exact quietly (.digital oid) nofun (digitalTimer_spec inv.holds oid)
  | pwmTimer oid =>
    obtain ⟨scheduled, ⟨⟩⟩ := ite_none_right_eq_some.mp enabled
    exact pwmTimer_spec inv scheduled
  | stepperStop oid =>
    cases enabled
    exact quietly (.stepper oid) nofun (stepperStop_spec inv.holds oid)
  | shutdown =>
    cases enabled
    exact nofun

/-- A program that does not fault ends with the invariant, if need be by a
shutdown. -/
theorem finish_spec {program : Program b Unit} (spec : wp program (fun _ => Inv) NoFault s) :
    ∃ after, s.finish program = some after ∧ Inv after := by
  unfold wp at spec
  unfold finish
  cases ends : program s with
  | ok _ after =>
    rw [ends] at spec
    exact ⟨after, rfl, spec⟩
  | error failure stopped =>
    rw [ends] at spec
    cases failure with
    | fault => exact absurd rfl spec
    | shutdown reason =>
      have recovers := runShutdown_spec stopped
      unfold wp at recovers
      dsimp only
      cases shuts : runShutdown stopped with
      | ok _ after =>
        rw [shuts] at recovers
        exact ⟨after, rfl, recovers⟩
      | error failure broken =>
        rw [shuts] at recovers
        exact recovers.elim

theorem Inv.step (inv : Inv s) (enabled : (s.program input).isSome) :
    ∃ after, s.step input = some after ∧ Inv after := by
  obtain ⟨program, isProgram⟩ := isSome_iff_exists.mp enabled
  rw [Machine.step, isProgram, bind_some]
  exact finish_spec (inv.program isProgram)

theorem config_inv (objects : Objects b) : Inv (config objects) where
  holds := Memory.moveReset_holds rfl rfl (fun _ => rfl)
  fits := trivial
  armed := fun _ isArmed => nomatch isArmed.1
  adding := nofun

theorem inv_of_reachable
    (reached : Reachable (fun first => ∃ objects, first = config objects) step s) :
    Inv s := by
  refine reached.induct_invariant (fun first begins _ => ?_) (fun s input after _ _ steps inv => ?_)
  · obtain ⟨objects, rfl⟩ := begins
    exact config_inv objects
  · have enabled : (s.program input).isSome := by
      obtain ⟨program, isProgram, _⟩ := bind_eq_some_iff.mp steps
      rw [isProgram]
      rfl
    obtain ⟨after', steps', inv'⟩ := inv.step enabled
    rw [steps'] at steps
    cases steps
    exact inv'

/-! ### Conservation -/

/-- The free list (`none`) and the move queues of a state. -/
structure Conserved (s : Machine b) (lists : Option (Owner b) → List (Node b)) : Prop where
  /-- Following the links from each head gives its list, which ends with a null
  pointer. -/
  reads : ∀ i, Reads s.memory.next (s.memory.heads i) (lists i)
  acyclic : ∀ i, (lists i).Nodup
  /-- Outside of command handlers each node is on exactly one list. -/
  once : s.running = none → ∀ node, ∃! i, node ∈ lists i
  overflow : s.running = none → s.memory.moveAlloc = none → ∀ node, ∃ mh, node ∈ lists (some mh)
  succeeds : ∀ input, (s.program input).isSome → (s.step input).isSome

theorem Inv.conserved (inv : Inv s) : ∃ lists, Conserved s lists := by
  obtain ⟨owner, lists, linked, _, isHeld⟩ := inv.holds
  have once : s.running = none → ∀ node, ∃! i, node ∈ lists i := by
    intro idle node
    rw [idle] at isHeld
    obtain ⟨i, isOwner⟩ := ne_none_iff_exists'.mp (fun free => by simpa [heldBy] using (isHeld node).mp free)
    refine ⟨i, (linked.owned.mem_iff i node).mpr isOwner, fun other isOther => ?_⟩
    have isOther := (linked.owned.mem_iff other node).mp isOther
    exact some.inj (isOther.symm.trans isOwner)
  refine ⟨lists, linked.owned.reads, fun i => (linked.owned.reads i).nodup, once, ?_, ?_⟩
  · intro idle fails node
    obtain ⟨i, inside, _⟩ := once idle node
    cases i with
    | none =>
      rw [linked.of_overflow fails] at inside
      cases inside
    | some mh => exact ⟨mh, inside⟩
  · intro input enabled
    obtain ⟨after, steps, _⟩ := inv.step enabled
    rw [steps]
    rfl

/-- In every run of every board, no move node is leaked or shared. -/
theorem moves_conserved
    (reached : Reachable (fun first => ∃ objects, first = Machine.config objects) Machine.step s) :
    ∃ lists, Conserved s lists :=
  (inv_of_reachable reached).conserved

abbrev smallBoard : Board where
  variant := .plain
  moveCount := 4
  isFinalized := by decide
  steppers := 1
  digitals := 1
  pwms := 1
  shutdownOrder := [.stepperShutdown, .pwmShutdown, .moveReset, .digitalOutShutdown]
  runsAll := by
    intro handler
    cases handler <;> decide

/-- After a shutdown all nodes are queued again; a trigger stops the stepper while a
handler holds the last one. -/
def exhausting : List (Input smallBoard) :=
  [ .queuePwmOut 0 100 1,
    .shutdown,
    .resetStepClock 0 1000,
    .queueStep 0 100 5 0, .resume,
    .queueStep 0 200 5 0, .resume,
    .queueDigitalOut 0 500 1, .resume,
    .queuePwmOut 0 600 3, .resume, .resume,
    .queuePwmOut 0 700 4, .stepperStop 0, .resume,
    .queueDigitalOut 0 700 1, .resume ]

theorem moves_conserved_exhausting : ∃ s : Machine smallBoard, s.memory.moveAlloc.isNone = true ∧
    s.running = none ∧ (s.memory.mq (.stepper 0)).first = none ∧
      (s.memory.mq (.digital 0)).first = some 1 ∧ (s.memory.mq (.pwm 0)).first = some 2 ∧
        ∃ lists, Conserved s lists := by
  obtain ⟨s, reached, free, idle, steppers, digitals, pwms⟩ := exists_reachable
    (fun first => ∃ objects, first = config objects) step
    (config ⟨fun _ => (0, 10), fun _ => (false, false, 0), fun _ => (0, 0, 0)⟩) ⟨_, rfl⟩ exhausting
    (fun s => s.memory.moveAlloc.isNone = true ∧ s.running = none ∧ (s.memory.mq (.stepper 0)).first = none ∧
      (s.memory.mq (.digital 0)).first = some 1 ∧ (s.memory.mq (.pwm 0)).first = some 2) (by decide +kernel)
  exact ⟨s, free, idle, steppers, digitals, pwms, moves_conserved reached⟩

end MagnetoX.Mcu.MoveNodes
