import MagnetoX.Library.Run
import MagnetoX.Mcu.Stepping.Model

/-!
Owns the exactness of the reported stepper position. `stepper.position` is one
biased word: it holds `POSITION_BIAS + position` while the executed direction
bit is 1 and the negation of that while it is 0, and it is credited with all
steps of a move when the move is loaded. The invariant states this word
equation, and next to it what the step pin and the direction pin show between
two inputs.

Does not own the step times.
-/

namespace MagnetoX.Mcu.Stepping

open Library.Word Library.Run

def Stepper.remaining (variant : Variant) (s : Stepper) : Int :=
  if s.single variant then s.count else s.count / 2

/-- The biased position with the sign of the direction bit. -/
def signedPosition (dir : Bool) (pulses : Int) : Int :=
  if dir then positionBias + pulses else -(positionBias + pulses)

theorem signedPosition_pulse (dir : Bool) (pulses : Int) :
    signedPosition dir (pulses + (if dir then 1 else -1)) = signedPosition dir pulses + 1 := by
  cases dir <;> simp only [signedPosition, Bool.false_eq_true, if_true, if_false] <;> omega

theorem signedPosition_flip (dir : Bool) (pulses : Int) :
    signedPosition (!dir) pulses = -signedPosition dir pulses := by
  cases dir <;> simp [signedPosition]

/-- Loading the queued moves one after the other turns the direction pin to
the bit selected for each move, and ends at `SF_LAST_DIR`. -/
def DirectionsAgree : Bool → List StepperMove → Bool → Prop
  | pin, [], lastDir => pin = lastDir
  | pin, m :: rest, lastDir =>
      (pin != m.dir) = m.selected ∧ DirectionsAgree (pin != m.dir) rest lastDir

variable {mq : List StepperMove}

theorem DirectionsAgree.push {pin lastDir : Bool}
    (agree : DirectionsAgree pin mq lastDir) (m : StepperMove) (after : Bool)
    (selected : (lastDir != m.dir) = m.selected) (turned : after = (lastDir != m.dir)) :
    DirectionsAgree pin (mq ++ [m]) after := by
  induction mq generalizing pin with
  | nil =>
    have same : pin = lastDir := agree
    subst same
    exact ⟨selected, turned.symm⟩
  | cons head rest ih =>
    exact ⟨agree.1, ih agree.2⟩

def ValidMove (m : StepperMove) : Prop := 1 ≤ m.count ∧ m.count ≤ 65535

/-- What the counters, the position word and the direction pin satisfy. -/
structure Core (variant : Variant) (s : Stepper) : Prop where
  word : s.position = u32 (signedPosition s.dirPin s.pulses + s.remaining variant)
  countNonneg : 0 ≤ s.count
  singleBound : s.single variant = true → s.count ≤ 65535
  doubleBound : s.count ≤ 131070
  moves : ∀ m ∈ s.mq, ValidMove m
  directions : DirectionsAgree s.dirPin s.mq s.flags.lastDir
  executing : s.count ≠ 0 → s.dirPin = s.selected
  full : s.funcFull = true → s.flags.singleSched = false
  inline : s.funcFull = false → s.flags.singleSched = variant.singleSchedule

/-- The step pin is active exactly between a step and its unstep. Both-edge
steppers have no idle level. -/
def PinLevel (variant : Variant) (s : Stepper) : Prop :=
  (variant == .edge && s.flags.singleSched) = false →
    s.stepPin = (s.flags.invertStep != (!s.single variant && decide (s.count % 2 = 1)))

structure Invariant (variant : Variant) (s : Stepper) : Prop where
  core : Core variant s
  pin : PinLevel variant s
  scheduled : s.scheduled = true → 0 < s.count

variable {variant : Variant} {s t after : Stepper}

/-! ### Loading a move -/

theorem u32_add_of_eq {left right value : Int} (same : left = u32 right) :
    u32 (left + value) = u32 (right + value) := by
  simp only [u32, unsigned] at *
  omega

theorem u32_neg_add_of_eq {left right value : Int} (same : left = u32 right) :
    u32 (-left + value) = u32 (-right + value) := by
  simp only [u32, unsigned] at *
  omega

open Stepper

/-- With no step of the loaded move left, `stepper_load_next` restores the
invariant: it credits the whole next move and turns the word with the pin. -/
theorem Core.loadNext
    (word : s.position = u32 (signedPosition s.dirPin s.pulses))
    (moves : ∀ m ∈ s.mq, ValidMove m)
    (directions : DirectionsAgree s.dirPin s.mq s.flags.lastDir)
    (full : s.funcFull = true → s.flags.singleSched = false)
    (inline : s.funcFull = false → s.flags.singleSched = variant.singleSchedule) :
    Core variant (stepperLoadNext variant s).2 := by
  cases queue : s.mq with
  | nil =>
    rw [queue] at directions
    simp only [stepperLoadNext, queue]
    constructor <;> simp [remaining, word, directions]
    · exact full
    · exact inline
  | cons m rest =>
    rw [queue] at directions moves
    obtain ⟨lower, upper⟩ := moves m (by simp)
    have double : u32 (m.count * 2) = m.count * 2 :=
      unsigned_of_range (by omega) (by norm_num; omega)
    have turned : u32 ((if m.dir then -s.position else s.position) + m.count) =
        u32 (signedPosition (s.dirPin != m.dir) s.pulses + m.count) := by
      cases m.dir with
      | false => simpa using u32_add_of_eq word
      | true =>
        simp only [if_true, Bool.bne_true, signedPosition_flip]
        exact u32_neg_add_of_eq word
    simp only [stepperLoadNext, queue, double]
    constructor <;> simp only [remaining, single]
    · rw [turned]
      split
      · rfl
      · congr 2
        omega
    · split <;> omega
    · intro single
      rw [if_pos single]
      exact upper
    · split <;> omega
    · exact fun other member => moves other (by simp [member])
    · exact directions.2
    · exact fun _ => directions.1
    · exact full
    · exact inline

structure LoadFrame (variant : Variant) (s : Stepper) (result : Status × Stepper) : Prop where
  stepPin : result.2.stepPin = s.stepPin
  invertStep : result.2.flags.invertStep = s.flags.invertStep
  singleSched : result.2.flags.singleSched = s.flags.singleSched
  scheduled : result.2.scheduled = s.scheduled
  even : s.single variant = false → result.2.count % 2 = 0
  pulses : result.2.pulses = s.pulses
  finished : s.mq ≠ [] → result.1 = .reschedule
  loaded : result.1 = .reschedule → 0 < result.2.count

theorem stepperLoadNext_frame (variant : Variant) (s : Stepper)
    (moves : ∀ m ∈ s.mq, ValidMove m) :
    LoadFrame variant s (stepperLoadNext variant s) := by
  cases queue : s.mq with
  | nil =>
    constructor <;> simp [stepperLoadNext, queue]
  | cons m rest =>
    obtain ⟨lower, upper⟩ := moves m (by simp [queue])
    have double : u32 (m.count * 2) = m.count * 2 :=
      unsigned_of_range (by omega) (by norm_num; omega)
    constructor <;> simp only [stepperLoadNext, queue, double]
    · intro isDouble
      rw [if_neg (by simp [isDouble])]
      omega
    · exact fun _ => trivial
    · intro _
      split <;> omega

/-! ### Toggling the step pin -/

/-- A toggle from the idle level starts a pulse, and on a both-edge stepper
every toggle does. -/
theorem toggleStepPin_starts (pin : PinLevel variant s)
    (idle : s.single variant = true ∨ s.count % 2 = 0) :
    (toggleStepPin variant s).pulses = s.pulses + (if s.dirPin then 1 else -1) := by
  simp only [toggleStepPin]
  rw [if_pos]
  cases bothEdge : (variant == .edge && s.flags.singleSched) with
  | true => simp
  | false =>
    have level := pin bothEdge
    have quiet : (!s.single variant && decide (s.count % 2 = 1)) = false := by
      rcases idle with single | even
      · simp [single]
      · simp [even]
    rw [quiet] at level
    simp [level]

theorem toggleStepPin_ends (pin : PinLevel variant s)
    (double : s.flags.singleSched = false) (odd : s.count % 2 = 1) :
    (toggleStepPin variant s).pulses = s.pulses := by
  have level := pin (by simp [double])
  simp only [toggleStepPin, double, Bool.and_false, Bool.false_or]
  rw [if_neg]
  simp [level, odd, double]

/-- Starting a step moves one unit of the credited word from the remaining
steps to the taken ones. -/
theorem word_of_pulse {dir : Bool} {position pulses remaining : Int}
    (word : position = u32 (signedPosition dir pulses + remaining)) :
    position = u32 (signedPosition dir (pulses + (if dir then 1 else -1)) + (remaining - 1)) := by
  rw [signedPosition_pulse, word]
  congr 1
  omega

/-! ### Timer events -/

/-- What an event function returns: a consistent stepper that stays scheduled
only while it has events left. -/
structure EventKeeps (variant : Variant) (result : Status × Stepper) : Prop where
  core : Core variant result.2
  pin : PinLevel variant result.2
  active : result.1 = .reschedule → 0 < result.2.count

theorem Invariant.single_word (inv : Invariant variant s) (single : s.single variant = true) :
    s.position =
      u32 (signedPosition s.dirPin (toggleStepPin variant s).pulses + (s.count - 1)) := by
  have start := inv.core.word
  rw [remaining, if_pos single] at start
  rw [toggleStepPin_starts inv.pin (.inl single)]
  exact word_of_pulse start

structure SameMove (s t : Stepper) : Prop where
  dirPin : t.dirPin = s.dirPin
  mq : t.mq = s.mq
  flags : t.flags = s.flags
  funcFull : t.funcFull = s.funcFull
  selected : t.selected = s.selected

/-- An event inside a move keeps everything but the word and the counter. -/
theorem Core.advance (core : Core variant s) (same : SameMove s t)
    (word : t.position = u32 (signedPosition t.dirPin t.pulses + t.remaining variant))
    (nonneg : 0 ≤ t.count) (lowered : t.count < s.count) : Core variant t where
  word := word
  countNonneg := nonneg
  singleBound := by
    intro single
    rw [Stepper.single, same.flags] at single
    have bound := core.singleBound single
    omega
  doubleBound := by
    have bound := core.doubleBound
    omega
  moves := same.mq ▸ core.moves
  directions := by
    rw [same.dirPin, same.mq, same.flags]
    exact core.directions
  executing := by
    intro _
    rw [same.dirPin, same.selected]
    exact core.executing (by omega)
  full := by
    rw [same.funcFull, same.flags]
    exact core.full
  inline := by
    rw [same.funcFull, same.flags]
    exact core.inline

theorem remaining_single (single : s.single variant = true) :
    s.remaining variant = s.count :=
  if_pos single

theorem stepperEventEdge_keeps (inv : Invariant .edge s)
    (inline : s.funcFull = false) (active : 0 < s.count) :
    EventKeeps .edge (stepperEventEdge .edge s) := by
  have core := inv.core
  have sched : s.flags.singleSched = true := core.inline inline
  have single : s.single .edge = true := by simp [sched, Variant.singleSchedule]
  have bound := core.singleBound single
  have lowered : u32 (s.count - 1) = s.count - 1 :=
    unsigned_of_range (by omega) (by norm_num; omega)
  have word := inv.single_word single
  simp only [stepperEventEdge, toggleStepPin_count, lowered]
  split
  · constructor
    · refine core.advance ⟨rfl, rfl, rfl, rfl, rfl⟩ ?_ (by dsimp only; omega) (by dsimp only; omega)
      rw [remaining_single (by exact single)]
      exact word
    · intro bothEdge
      simp [sched] at bothEdge
    · intro _
      dsimp only
      omega
  · have last : s.count - 1 = 0 := by omega
    rw [last, add_zero] at word
    have frame := stepperLoadNext_frame .edge (toggleStepPin .edge s) core.moves
    constructor
    · exact Core.loadNext word core.moves core.directions core.full core.inline
    · intro bothEdge
      rw [frame.singleSched] at bothEdge
      simp [sched] at bothEdge
    · exact frame.loaded

theorem toggleStepPin_avr_returns (active : t.stepPin = !t.flags.invertStep) :
    (toggleStepPin .avr t).pulses = t.pulses ∧
      (toggleStepPin .avr t).stepPin = t.flags.invertStep := by
  simp [toggleStepPin, active]

/-- The unstep toggle leaves a consistent single scheduled AVR stepper. -/
theorem EventKeeps.avr_unstep {ret : Status} (sched : t.flags.singleSched = true)
    (active : t.stepPin = !t.flags.invertStep) (core : Core .avr t)
    (running : ret = .reschedule → 0 < t.count) :
    EventKeeps .avr (ret, toggleStepPin .avr t) := by
  obtain ⟨samePulses, level⟩ := toggleStepPin_avr_returns active
  constructor
  · refine { core with word := ?_ }
    rw [samePulses]
    exact core.word
  · intro _
    simp only [level, toggleStepPin_flags, single, sched]
    simp [Variant.singleSchedule]
  · exact running

theorem stepperEventAvr_keeps (inv : Invariant .avr s)
    (inline : s.funcFull = false) (active : 0 < s.count) :
    EventKeeps .avr (stepperEventAvr .avr s) := by
  have core := inv.core
  have sched : s.flags.singleSched = true := core.inline inline
  have single : s.single .avr = true := by simp [sched, Variant.singleSchedule]
  have bound := core.singleBound single
  have idle : s.stepPin = s.flags.invertStep := by
    have level := inv.pin (by simp)
    rwa [single, Bool.not_true, Bool.false_and, Bool.bne_false] at level
  have low : u16 s.count = s.count := unsigned_of_range (by omega) (by norm_num; omega)
  have lowered : u16 (s.count - 1) = s.count - 1 :=
    unsigned_of_range (by omega) (by norm_num; omega)
  have word := inv.single_word single
  simp only [stepperEventAvr, toggleStepPin_count, low, lowered]
  split
  · apply EventKeeps.avr_unstep
    · exact sched
    · simp [idle]
    · refine core.advance ⟨rfl, rfl, rfl, rfl, rfl⟩ ?_ (by dsimp only; omega) (by dsimp only; omega)
      rw [remaining_single (by exact single)]
      rw [sub_self, zero_add]
      exact word
    · intro _
      dsimp only
      omega
  · have last : s.count - 1 = 0 := by omega
    rw [last, add_zero] at word
    have frame := stepperLoadNext_frame .avr (toggleStepPin .avr s) core.moves
    apply EventKeeps.avr_unstep
    · exact frame.singleSched.trans sched
    · rw [frame.stepPin, frame.invertStep, toggleStepPin_stepPin, idle, toggleStepPin_flags]
    · exact Core.loadNext word core.moves core.directions core.full core.inline
    · exact frame.loaded

theorem remaining_double (double : s.flags.singleSched = false) :
    s.remaining variant = s.count / 2 := by
  rw [remaining, if_neg]
  simp [double]

/-- In double scheduling the pin level and the parity of the counter change
together. -/
theorem PinLevel.toggle (pin : PinLevel variant s) (double : s.flags.singleSched = false)
    (stepPin : t.stepPin = !s.stepPin) (flags : t.flags = s.flags)
    (parity : (t.count + s.count) % 2 = 1) : PinLevel variant t := by
  intro _
  have level := pin (by simp [double])
  rw [stepPin, level, single, single, flags, double]
  simp only [Bool.and_false, Bool.not_false, Bool.true_and]
  rcases Int.emod_two_eq_zero_or_one s.count with even | odd
  · have odd : t.count % 2 = 1 := by omega
    simp [even, odd]
  · have even : t.count % 2 = 0 := by omega
    simp [even, odd]

theorem PinLevel.load {result : Status × Stepper} (pin : PinLevel variant s)
    (even : s.count % 2 = 0) (frame : LoadFrame variant s result) :
    PinLevel variant result.2 := by
  intro notBothEdge
  rw [frame.singleSched] at notBothEdge
  have level := pin notBothEdge
  rw [frame.stepPin, level, frame.invertStep, single, single, frame.singleSched]
  cases single : (variant.singleSchedule && s.flags.singleSched) with
  | true => simp
  | false => simp [even, frame.even single]

/-- The word after any event of a double scheduled stepper: a step event moves
one unit, an unstep event moves none, and halving the counter agrees. -/
theorem Invariant.double_word (inv : Invariant variant s) (double : s.flags.singleSched = false) :
    s.position =
      u32 (signedPosition s.dirPin (toggleStepPin variant s).pulses + (s.count - 1) / 2) := by
  have start := inv.core.word
  rw [remaining_double double] at start
  rcases Int.emod_two_eq_zero_or_one s.count with even | odd
  · rw [toggleStepPin_starts inv.pin (.inr even), show (s.count - 1) / 2 = s.count / 2 - 1 by omega]
    exact word_of_pulse start
  · rw [toggleStepPin_ends inv.pin double odd, show (s.count - 1) / 2 = s.count / 2 by omega]
    exact start

theorem stepperEventFull_keeps (curtime : Int) (inv : Invariant variant s)
    (double : s.flags.singleSched = false) (active : 0 < s.count) :
    EventKeeps variant (stepperEventFull variant curtime s) := by
  have core := inv.core
  have bound := core.doubleBound
  have lowered : u32 (s.count - 1) = s.count - 1 :=
    unsigned_of_range (by omega) (by norm_num; omega)
  have word := inv.double_word double
  -- Every exit inside the move only differs in the times it stores.
  have inside : ∀ t : Stepper, SameMove s t → 0 < s.count - 1 → t.count = s.count - 1 →
      t.stepPin = !s.stepPin → t.position = s.position →
      t.pulses = (toggleStepPin variant s).pulses → EventKeeps variant (.reschedule, t) := by
    intro t same left count stepPin position pulses
    constructor <;> dsimp only
    · refine core.advance same ?_ (by omega) (by omega)
      rw [remaining_double (by rw [same.flags, double]), position, same.dirPin, pulses, count]
      exact word
    · exact inv.pin.toggle double stepPin same.flags (by omega)
    · intro _
      rw [count]
      exact left
  simp only [stepperEventFull, toggleStepPin_count, lowered]
  split
  · exact inside _ ⟨rfl, rfl, rfl, rfl, rfl⟩ (by omega) rfl rfl rfl rfl
  · split
    · split
      · exact inside _ ⟨rfl, rfl, rfl, rfl, rfl⟩ (by omega) rfl rfl rfl rfl
      · exact inside _ ⟨rfl, rfl, rfl, rfl, rfl⟩ (by omega) rfl rfl rfl rfl
    · have last : s.count - 1 = 0 := by omega
      rw [last, Int.zero_ediv, add_zero] at word
      let stopped : Stepper := { toggleStepPin variant s with count := s.count - 1 }
      have frame := stepperLoadNext_frame variant stopped core.moves
      have loaded : Core variant (stepperLoadNext variant stopped).2 :=
        Core.loadNext word core.moves core.directions core.full core.inline
      have pin : PinLevel variant (stepperLoadNext variant stopped).2 := by
        have toggled : PinLevel variant stopped :=
          inv.pin.toggle double rfl rfl (by simp only [stopped]; omega)
        exact toggled.load (by simp only [stopped]; omega) frame
      split
      · exact ⟨loaded, pin, frame.loaded⟩
      · rename_i rescheduled
        have again : (stepperLoadNext variant stopped).1 = .reschedule := by
          cases status : (stepperLoadNext variant stopped).1 with
          | done => exact absurd (.inl status) rescheduled
          | reschedule => rfl
        exact ⟨{ loaded with }, pin, fun _ => frame.loaded again⟩

theorem Invariant.timerDispatch (curtime : Int) (inv : Invariant variant s) (active : 0 < s.count) :
    Invariant variant (timerDispatch variant curtime s) := by
  have keeps : EventKeeps variant (if s.funcFull then stepperEventFull variant curtime s
        else stepperEvent variant curtime s) := by
    cases func : s.funcFull with
    | true => exact stepperEventFull_keeps curtime inv (inv.core.full func) active
    | false =>
      have sched := inv.core.inline func
      cases variant with
      | edge => exact stepperEventEdge_keeps inv func active
      | avr => exact stepperEventAvr_keeps inv func active
      | inlined => exact stepperEventFull_keeps curtime inv sched active
      | plain => exact stepperEventFull_keeps curtime inv sched active
  unfold Stepping.timerDispatch
  generalize (if s.funcFull then stepperEventFull variant curtime s
    else stepperEvent variant curtime s) = result at keeps
  obtain ⟨ret, after⟩ := result
  obtain ⟨core, pin, running⟩ := keeps
  cases ret with
  | done => exact ⟨{ core with }, pin, nofun⟩
  | reschedule => exact ⟨{ core with }, pin, fun _ => running rfl⟩

/-! ### Reading the position back -/

def InRange (s : Stepper) : Prop := -0x40000000 < s.pulses ∧ s.pulses < 0x40000000

instance : DecidablePred InRange := fun _ => inferInstanceAs (Decidable (_ ∧ _))

theorem stepperGetPosition_eq
    (word : s.position = u32 (signedPosition s.dirPin s.pulses + s.remaining variant))
    (range : InRange s) : stepperGetPosition variant s = positionBias + s.pulses := by
  obtain ⟨lower, upper⟩ := range
  have taken : u32 (s.position - s.remaining variant) = u32 (signedPosition s.dirPin s.pulses) := by
    rw [word]
    simp only [u32, unsigned]
    omega
  unfold stepperGetPosition
  rw [show (if s.single variant then s.count else s.count / 2) = s.remaining variant from rfl]
  simp only [taken]
  cases s.dirPin with
  | true =>
    simp only [signedPosition, positionBias, u32, unsigned, if_true]
    split <;> omega
  | false =>
    simp only [signedPosition, positionBias, u32, unsigned, Bool.false_eq_true, if_false]
    split <;> omega

/-! ### Commands and stops -/

/-- A stop needs nothing but the word equation: it rebuilds all the rest. -/
theorem Invariant.of_stop
    (word : s.position = u32 (signedPosition s.dirPin s.pulses + s.remaining variant))
    (full : s.funcFull = true → s.flags.singleSched = false)
    (inline : s.funcFull = false → s.flags.singleSched = variant.singleSchedule)
    (range : InRange s) : Invariant variant (stepperStop variant s) where
  core := by
    constructor <;> simp only [stepperStop, remaining]
    · rw [stepperGetPosition_eq word range]
      simp [signedPosition]
    · omega
    · intro _
      omega
    · omega
    · simp
    · rfl
    · intro impossible
      exact absurd rfl impossible
    · exact full
    · exact inline
  pin := by
    intro notBothEdge
    simp only [stepperStop] at notBothEdge ⊢
    rw [if_neg]
    · simp
    · intro bothEdge
      simp [bothEdge.1, bothEdge.2] at notBothEdge
  scheduled := nofun

theorem Invariant.stop (inv : Invariant variant s)
    (range : InRange s) : Invariant variant (stepperStop variant s) :=
  .of_stop inv.core.word inv.core.full inv.core.inline range

theorem Core.shutdown (core : Core variant s)
    (range : InRange s) : Invariant variant (stepperShutdown variant s) :=
  .of_stop core.word core.full core.inline range

theorem Invariant.config (variant : Variant) (invertStep stepPulseTicks : Int) :
    Invariant variant (commandConfigStepper variant invertStep stepPulseTicks) where
  core := by
    constructor <;> simp only [commandConfigStepper, remaining]
    · simp [signedPosition]
    · omega
    · intro _
      omega
    · omega
    · simp
    · rfl
    · intro impossible
      exact absurd rfl impossible
    · simp only [Bool.and_eq_true, Bool.not_eq_true']
      exact fun full => full.1
    · cases variant <;> simp [Variant.singleSchedule]
  pin := by
    intro _
    simp [commandConfigStepper]
  scheduled := nofun

/-- The move that `queue_step` appends turns the pin to the selected bit. -/
theorem DirectionsAgree.queue {pin lastDir nextDir : Bool}
    (agree : DirectionsAgree pin mq lastDir) (m : StepperMove) (dir : m.dir = (lastDir != nextDir))
    (selected : m.selected = nextDir) :
    DirectionsAgree pin (mq ++ [m]) (lastDir != (lastDir != nextDir)) := by
  apply agree.push m
  · rw [dir, selected]
    cases lastDir <;> cases nextDir <;> rfl
  · rw [dir]

theorem Invariant.queueStep (env : Surroundings)
    (interval count add : Int) (inv : Invariant variant s) (range : InRange s) :
    Invariant variant ((commandQueueStep variant env interval count add s).settle variant) := by
  have core := inv.core
  unfold commandQueueStep
  split
  · exact core.shutdown range
  · split
    · exact core.shutdown range
    · rename_i counted
      let m : StepperMove :=
        { interval := u32 interval, add := i16 add, count := u16 count
          dir := s.flags.lastDir != s.flags.nextDir, selected := s.flags.nextDir }
      let pushed : Stepper :=
        { s with
          flags := { s.flags with
            lastDir := s.flags.lastDir != (s.flags.lastDir != s.flags.nextDir) }
          mq := s.mq ++ [m] }
      have moves : ∀ other ∈ pushed.mq, ValidMove other := by
        intro other member
        rcases List.mem_append.mp member with old | new
        · exact core.moves other old
        · rw [List.mem_singleton.mp new]
          have nonneg := unsigned_nonneg 16 count
          have below := unsigned_lt 16 count
          simp only [ValidMove, m, u16] at *
          omega
      have directions : DirectionsAgree pushed.dirPin pushed.mq pushed.flags.lastDir :=
        core.directions.queue m rfl rfl
      dsimp only
      split
      · -- The stepper is busy: the move waits in the queue.
        exact ⟨{ core with moves, directions }, inv.pin, inv.scheduled⟩
      · rename_i idle
        have stopped : s.count = 0 := by omega
        have word : pushed.position = u32 (signedPosition pushed.dirPin pushed.pulses) := by
          have start := core.word
          rwa [remaining, stopped, Int.zero_ediv, ite_self, add_zero] at start
        have loaded : Core variant (stepperLoadNext variant pushed).2 :=
          Core.loadNext word moves directions core.full core.inline
        have frame := stepperLoadNext_frame variant pushed moves
        split
        · exact inv
        · split
          · refine loaded.shutdown ?_
            unfold InRange
            rw [frame.pulses]
            exact range
          · have pin : PinLevel variant (stepperLoadNext variant pushed).2 :=
              PinLevel.load (s := pushed) inv.pin (by simp only [pushed, stopped]; rfl) frame
            exact ⟨{ loaded with }, pin,
              fun _ => frame.loaded (frame.finished (by simp [pushed]))⟩

theorem Invariant.resetStepClock (clock : Int) (inv : Invariant variant s) (range : InRange s) :
    Invariant variant ((commandResetStepClock clock s).settle variant) := by
  have core := inv.core
  unfold commandResetStepClock
  split
  · exact core.shutdown range
  · exact ⟨{ core with }, inv.pin, inv.scheduled⟩

theorem Invariant.step {input : Input} (inv : Invariant variant s) (range : InRange s)
    (moves : Stepping.step variant s input = some after) : Invariant variant after := by
  have core := inv.core
  cases input with
  | queueStep env interval count add =>
    cases moves
    exact inv.queueStep env interval count add range
  | setNextStepDir dir =>
    cases moves
    exact ⟨{ core with }, inv.pin, inv.scheduled⟩
  | resetStepClock clock =>
    cases moves
    exact inv.resetStepClock clock range
  | timerEvent curtime =>
    simp only [Stepping.step] at moves
    split at moves
    · rename_i scheduled
      cases moves
      exact inv.timerDispatch curtime (inv.scheduled scheduled)
    · cases moves
  | trigger =>
    cases moves
    exact inv.stop range
  | shutdown =>
    cases moves
    exact core.shutdown range

/-- **The reported position is exact.** In every run of a configured stepper
whose net position stays strictly within `2^30` steps of the origin, the
reported position is the signed number of step pulses started so far. The
direction pin, which gives a pulse its sign, shows the bit that was selected
when the executed move was queued. -/
theorem stepperPosition_exact (variant : Variant) (invertStep stepPulseTicks : Int) {s : Stepper}
    (reached : ReachableWithin
      (fun start => start = commandConfigStepper variant invertStep stepPulseTicks)
      (Stepping.step variant) InRange s) :
    commandStepperGetPosition variant s = s.pulses ∧ (s.count ≠ 0 → s.dirPin = s.selected) := by
  have inv : Invariant variant s := by
    refine reached.induct_invariant ?_ ?_
    · rintro start rfl _
      exact .config variant invertStep stepPulseTicks
    · intro state input after range _ moves inv
      exact inv.step range moves
  refine ⟨?_, inv.core.executing⟩
  obtain ⟨lower, upper⟩ := reached.inside
  rw [commandStepperGetPosition, stepperGetPosition_eq inv.core.word reached.inside,
    add_sub_cancel_left]
  exact i32_of_range (by omega) (by omega)

/-- A double scheduled stepper between the second step of a move and its
unstep, after a first move in the other direction. -/
theorem stepperPosition_exact_midPulse :
    ∃ s : Stepper, s.count = 3 ∧ s.pulses = 1 ∧ commandStepperGetPosition .plain s = s.pulses := by
  let quiet : Surroundings := ⟨false, false⟩
  let inputs : List Input :=
    [.queueStep quiet 100 1 0, .setNextStepDir 1, .queueStep quiet 200 3 5,
      .timerEvent 100, .timerEvent 102, .timerEvent 300, .timerEvent 302, .timerEvent 505]
  have result : (run (Stepping.step .plain) InRange (commandConfigStepper .plain 0 2) inputs).map
      (fun s => (s.count, s.pulses)) = some (3, 1) := by
    decide +kernel
  obtain ⟨s, executes, counters⟩ := Option.map_eq_some_iff.mp result
  obtain ⟨count, pulses⟩ := Prod.mk.inj counters
  exact ⟨s, count, pulses,
    (stepperPosition_exact .plain 0 2 (.of_run (fun inside => .initial rfl inside) executes)).1⟩

end MagnetoX.Mcu.Stepping
