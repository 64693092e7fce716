import MagnetoX.Library.Run
import MagnetoX.Library.Word
import Mathlib.Tactic.Ring

/-!
Owns the end stops of `src/endstop.c` and the time that `home_wait` of `klippy/mcu.py`
reports: when an end stop triggers, in terms of all readings of its pin, and which
reading the reported time belongs to.

A clock is an integer, of which the micro-controller keeps the residue modulo `2 ^ 32`.
A check whose reading matches is followed by a second reading at the same time, the first
one of the oversampling.
-/

namespace MagnetoX.Mcu.Endstops

open Library.Run Library.Word List

inductive TimerFunc where
  | endstopEvent
  | endstopOversampleEvent
deriving DecidableEq, Repr

/-- `struct endstop`; the flags are separate fields, and the trsync is an oid. -/
structure Endstop where
  scheduled : Bool
  waketime : Int
  func : TimerFunc
  restTime : Int
  sampleTime : Int
  nextwake : Int
  ts : Option Nat
  pinHigh : Bool
  homing : Bool
  sampleCount : Nat
  triggerCount : Nat
  triggerReason : Nat
deriving DecidableEq, Repr

/-- A reading of the pin: by `endstop_event` or by `endstop_oversample_event`, with the
wake time of the timer and the value. -/
inductive Reading where
  | check (time : Int) (val : Bool)
  | sample (time : Int) (val : Bool)
deriving DecidableEq, Repr

/-- An end stop, all readings of its pin since the start of a homing, and all calls of
`trsync_do_trigger` since then. -/
structure System where
  e : Endstop
  readings : List Reading
  triggers : List (Option Nat × Nat)
deriving DecidableEq, Repr

inductive Status where
  | done
  | reschedule
deriving DecidableEq, Repr

/-- `(val ? ~e->flags : e->flags) & ESF_PIN_HIGH`. -/
def Endstop.differs (e : Endstop) (val : Bool) : Bool := if val then !e.pinHigh else e.pinHigh

def endstopOversampleEvent (s : System) (val : Bool) : Status × System :=
  let e := s.e
  let s := { s with readings := s.readings ++ [Reading.sample e.waketime val] }
  if e.differs val then
    -- No longer matching - reschedule for the next attempt
    (.reschedule, { s with e := { e with
      func := .endstopEvent
      waketime := e.nextwake
      triggerCount := e.sampleCount } })
  else
    let count := (e.triggerCount + 255) % 256
    if count = 0 then (.done, { s with triggers := s.triggers ++ [(e.ts, e.triggerReason)] })
    else
      (.reschedule, { s with e := { e with
        triggerCount := count
        waketime := e.waketime + e.sampleTime } })

/-- Timer callback for an end stop; `oversampled` is the reading of the event that it
calls. -/
def endstopEvent (s : System) (val oversampled : Bool) : Status × System :=
  let e := s.e
  let s := { s with readings := s.readings ++ [Reading.check e.waketime val] }
  let nextwake := e.waketime + e.restTime
  if e.differs val then
    -- No match - reschedule for the next attempt
    (.reschedule, { s with e := { e with waketime := nextwake } })
  else
    endstopOversampleEvent { s with e := { e with nextwake, func := .endstopOversampleEvent } }
      oversampled

structure HomeArgs where
  clock : Int
  sampleTicks : Nat
  sampleCount : Nat
  restTicks : Nat
  pinValue : Nat
  trsyncOid : Nat
  triggerReason : Nat
deriving DecidableEq, Repr

def commandEndstopHome (e : Endstop) (args : HomeArgs) : Endstop :=
  let e := { e with
    scheduled := false
    waketime := args.clock
    sampleTime := u32 args.sampleTicks
    sampleCount := args.sampleCount % 256 }
  if e.sampleCount = 0 then
    -- Disable end stop checking
    { e with ts := none, pinHigh := false, homing := false }
  else
    { e with
      restTime := u32 args.restTicks
      func := .endstopEvent
      triggerCount := e.sampleCount
      homing := true
      pinHigh := decide (args.pinValue ≠ 0)
      ts := some args.trsyncOid
      triggerReason := args.triggerReason % 256
      scheduled := true }

/-- The scheduler takes a timer that is done off its list. -/
def System.conclude (s : System) : Status → System
  | .done => { s with e := { s.e with scheduled := false } }
  | .reschedule => s

/-- What happens during a homing. The pin is read at most twice by an event. -/
inductive Input where
  | timer (val oversampled : Bool)
  | disable
deriving DecidableEq, Repr

/-- A timer event, or the command with which `home_wait` ends the homing. -/
def step (s : System) : Input → Option System
  | .timer val oversampled =>
      if s.e.scheduled then
        let (status, s) := match s.e.func with
          | .endstopEvent => endstopEvent s val oversampled
          | .endstopOversampleEvent => endstopOversampleEvent s val
        some (s.conclude status)
      else none
  | .disable => some { s with e := commandEndstopHome s.e ⟨0, 0, 0, 0, 0, 0, 0⟩ }

/-- A homing with `args` starts, whatever the end stop did before. -/
def Starts (args : HomeArgs) (s : System) : Prop := ∃ e, s = ⟨commandEndstopHome e args, [], []⟩

/-- `clock32_to_clock64` of `klippy/clocksync.py`. -/
def clock32ToClock64 (lastClock clock32 : Int) : Int :=
  let clockDiff := u32 (lastClock - clock32)
  if 0x80000000 ≤ clockDiff then lastClock + 0x100000000 - clockDiff else lastClock - clockDiff

/-- The clock of the time that `home_wait` returns, from the `next_clock` of
`endstop_state`. -/
def homeWaitClock (lastClock restTicks nextClock : Int) : Int :=
  clock32ToClock64 lastClock nextClock - restTicks

theorem clock32ToClock64_eq {lastClock clock : Int} (above : clock - lastClock ≤ 2 ^ 31)
    (below : lastClock - clock < 2 ^ 31) : clock32ToClock64 lastClock (u32 clock) = clock := by
  have difference : u32 (lastClock - u32 clock) = (lastClock - clock) % 2 ^ 32 := by
    simp only [u32, unsigned]
    omega
  rw [clock32ToClock64, difference]
  split <;> omega

variable {args : HomeArgs} {s : System} {readings before : List Reading} {time : Int} {n : Nat}
  {reading : Reading} {val : Bool}

def HomeArgs.wanted (args : HomeArgs) : Bool := decide (args.pinValue ≠ 0)

/-- A check that matches and samples at `times`, which match too. -/
def matching (args : HomeArgs) (time : Int) (times : List Int) : List Reading :=
  .check time args.wanted :: times.map (.sample · args.wanted)

/-- `n` samples, the first at `time` and then one every `sample_ticks`. -/
def sampleTimes (args : HomeArgs) (time : Int) (n : Nat) : List Int :=
  (List.range n).map (fun k : Nat => time + k * u32 args.sampleTicks)

/-- All `sample_count` samples that follow some matching check match. -/
def HasRun (args : HomeArgs) (readings : List Reading) : Prop :=
  ∃ before time times after, times.length = args.sampleCount % 256 ∧
    readings = before ++ matching args time times ++ after

def EndsInRun (args : HomeArgs) (readings : List Reading) : Prop :=
  ∃ before time times, times.length = args.sampleCount % 256 ∧
    readings = before ++ matching args time times

@[simp] theorem length_sampleTimes (args : HomeArgs) (time : Int) (n : Nat) :
    (sampleTimes args time n).length = n := by
  rw [sampleTimes, length_map, length_range]

theorem matching_succ (args : HomeArgs) (time : Int) (n : Nat) :
    matching args time (sampleTimes args time (n + 1)) = matching args time (sampleTimes args time n) ++
      [.sample (time + n * u32 args.sampleTicks) args.wanted] := by
  rw [sampleTimes, range_succ, map_append]
  simp only [matching, map_append, cons_append]
  rfl

theorem HasRun.of_append (hasRun : HasRun args (readings ++ [reading])) :
    HasRun args readings ∨ EndsInRun args (readings ++ [reading]) := by
  obtain ⟨before, time, times, after, count, isRun⟩ := hasRun
  rcases eq_nil_or_concat after with rfl | ⟨later, last, rfl⟩
  · rw [append_nil] at isRun
    exact .inr ⟨before, time, times, count, isRun⟩
  · rw [concat_eq_append, ← append_assoc] at isRun
    exact .inl ⟨before, time, times, later, count, (append_inj' isRun rfl).1⟩

def Reading.isSample : Reading → Bool
  | .check _ _ => false
  | .sample _ _ => true

theorem samples_matching (args : HomeArgs) (before : List Reading) (time : Int) (times : List Int) :
    ((before ++ matching args time times).reverse.takeWhile Reading.isSample).length = times.length := by
  have areSamples : ∀ reading ∈ (times.map (Reading.sample · args.wanted)).reverse, reading.isSample := by
    intro reading isMember
    obtain ⟨_, _, rfl⟩ := mem_map.mp (mem_reverse.mp isMember)
    rfl
  rw [matching, reverse_append, reverse_cons, append_assoc,
    takeWhile_append_of_pos areSamples]
  simp [Reading.isSample]

/-- As long as samples are missing, the readings do not end in a run. -/
theorem not_endsInRun_of_lt (missing : n < args.sampleCount % 256) :
    ¬ EndsInRun args (before ++ matching args time (sampleTimes args time n)) := by
  rintro ⟨earlier, start, times, count, same⟩
  have ours := samples_matching args before time (sampleTimes args time n)
  have theirs := samples_matching args earlier start times
  rw [← same, ours, length_sampleTimes, count] at theirs
  omega

theorem not_endsInRun_of_sample (positive : 0 < args.sampleCount % 256) (isOther : val ≠ args.wanted) :
    ¬ EndsInRun args (readings ++ [.sample time val]) := by
  rintro ⟨earlier, start, times, count, same⟩
  rcases eq_nil_or_concat times with rfl | ⟨rest, last, rfl⟩
  · simp at count
    omega
  · simp only [matching, concat_eq_append, map_append, map_cons, map_nil,
      ← cons_append, ← append_assoc] at same
    have last := (append_inj' same rfl).2
    simp only [cons.injEq, Reading.sample.injEq, and_true] at last
    exact isOther last.2

/-- A check comes before all of its samples. -/
theorem not_endsInRun_of_check (positive : 0 < args.sampleCount % 256) :
    ¬ EndsInRun args (readings ++ [.check time val]) := by
  rintro ⟨earlier, start, times, count, same⟩
  have theirs := samples_matching args earlier start times
  rw [← same, reverse_append] at theirs
  simp [Reading.isSample] at theirs
  omega

structure Homes (args : HomeArgs) (e : Endstop) : Prop where
  scheduled : e.scheduled = true
  restTime : e.restTime = u32 args.restTicks
  sampleTime : e.sampleTime = u32 args.sampleTicks
  sampleCount : e.sampleCount = args.sampleCount % 256
  pinHigh : e.pinHigh = args.wanted
  ts : e.ts = some args.trsyncOid
  triggerReason : e.triggerReason = args.triggerReason % 256

/-- The check at `time` matched, and so did its first `n` samples. -/
structure Samples (args : HomeArgs) (n : Nat) (s : System) : Prop where
  homes : Homes args s.e
  func : s.e.func = .endstopOversampleEvent
  missing : n < args.sampleCount % 256
  triggerCount : s.e.triggerCount = args.sampleCount % 256 - n
  untriggered : s.triggers = []
  noRun : ¬ HasRun args s.readings
  readings : ∃ before time, s.readings = before ++ matching args time (sampleTimes args time n) ∧
    s.e.nextwake = time + u32 args.restTicks ∧ s.e.waketime = time + n * u32 args.sampleTicks

/-- The phases of a homing: the checks, the samples of a check, after the trigger, and
disabled without one. -/
inductive Phase (args : HomeArgs) (s : System) : Prop where
  | checks (homes : Homes args s.e) (func : s.e.func = .endstopEvent)
      (triggerCount : s.e.triggerCount = args.sampleCount % 256) (untriggered : s.triggers = [])
      (noRun : ¬ HasRun args s.readings)
  | samples {n : Nat} (samples : Samples args n s)
  | triggered {before : List Reading} {time : Int} (idle : s.e.scheduled = false)
      (restTime : s.e.restTime = u32 args.restTicks)
      (nextwake : s.e.nextwake = time + u32 args.restTicks)
      (readings : s.readings = before ++ matching args time (sampleTimes args time (args.sampleCount % 256)))
      (triggers : s.triggers = [(some args.trsyncOid, args.triggerReason % 256)])
  | disabled (idle : s.e.scheduled = false) (untriggered : s.triggers = [])
      (noRun : ¬ HasRun args s.readings)

theorem Homes.differs_iff {e : Endstop} (homes : Homes args e) :
    e.differs val = true ↔ val ≠ args.wanted := by
  rw [Endstop.differs, homes.pinHigh]
  cases val <;> cases args.wanted <;> decide

theorem not_hasRun_append (noRun : ¬ HasRun args readings)
    (noEnd : ¬ EndsInRun args (readings ++ [reading])) : ¬ HasRun args (readings ++ [reading]) :=
  fun hasRun => hasRun.of_append.elim noRun noEnd

theorem Samples.oversample (samples : Samples args n s) (val : Bool) :
    Phase args ((endstopOversampleEvent s val).2.conclude (endstopOversampleEvent s val).1) := by
  obtain ⟨homes, func, missing, triggerCount, untriggered, noRun, before, time, readings, nextwake, waketime⟩ := samples
  rw [endstopOversampleEvent]
  dsimp only
  by_cases other : s.e.differs val
  · rw [if_pos other]
    exact .checks { homes with } rfl homes.sampleCount untriggered
      (not_hasRun_append noRun (not_endsInRun_of_sample (by omega) (homes.differs_iff.mp other)))
  · rw [if_neg other]
    have isWanted : val = args.wanted := not_not.mp (fun differs => other (homes.differs_iff.mpr differs))
    have longer : s.readings ++ [.sample s.e.waketime val] =
        before ++ matching args time (sampleTimes args time (n + 1)) := by
      rw [matching_succ, readings, isWanted, waketime, append_assoc]
    have count : (s.e.triggerCount + 255) % 256 = args.sampleCount % 256 - (n + 1) := by
      omega
    rw [count, longer]
    split
    · rename_i complete
      have isLast : n + 1 = args.sampleCount % 256 := by omega
      refine .triggered rfl homes.restTime nextwake (by rw [isLast]; rfl) ?_
      simp only [System.conclude, untriggered, homes.ts, homes.triggerReason, nil_append]
    · rename_i incomplete
      refine .samples ⟨{ homes with }, func, (by omega : n + 1 < _), rfl, untriggered, ?_,
        before, time, rfl, nextwake, ?_⟩
      · rw [System.conclude, ← longer]
        refine not_hasRun_append noRun ?_
        rw [longer]
        exact not_endsInRun_of_lt (by omega)
      · simp only [System.conclude, homes.sampleTime, waketime]
        push_cast
        ring

theorem Starts.phase (positive : 0 < args.sampleCount % 256) (starts : Starts args s) : Phase args s := by
  obtain ⟨e, rfl⟩ := starts
  have enabled : ¬ args.sampleCount % 256 = 0 := by omega
  rw [commandEndstopHome]
  rw [if_neg enabled]
  refine .checks ⟨rfl, rfl, rfl, rfl, rfl, rfl, rfl⟩ rfl rfl rfl ?_
  rintro ⟨before, time, times, after, _, isRun⟩
  simp [matching] at isRun

/-- A check of the pin, with the first sample if it matches. -/
theorem Phase.check (positive : 0 < args.sampleCount % 256) (homes : Homes args s.e)
    (triggerCount : s.e.triggerCount = args.sampleCount % 256) (func : s.e.func = .endstopEvent)
    (untriggered : s.triggers = []) (noRun : ¬ HasRun args s.readings) (val oversampled : Bool) :
    Phase args ((endstopEvent s val oversampled).2.conclude (endstopEvent s val oversampled).1) := by
  have stillNone : ¬ HasRun args (s.readings ++ [.check s.e.waketime val]) :=
    not_hasRun_append noRun (not_endsInRun_of_check positive)
  rw [endstopEvent]
  by_cases other : s.e.differs val
  · rw [if_pos other]
    exact .checks { homes with } func triggerCount untriggered stillNone
  · rw [if_neg other]
    have isWanted : val = args.wanted := not_not.mp (fun differs => other (homes.differs_iff.mpr differs))
    have begins : Samples args 0 { s with
        readings := s.readings ++ [.check s.e.waketime val]
        e := { s.e with
          nextwake := s.e.waketime + s.e.restTime
          func := .endstopOversampleEvent } } :=
      ⟨{ homes with }, rfl, positive, triggerCount, untriggered, stillNone, s.readings,
        s.e.waketime, by rw [isWanted]; rfl, by rw [← homes.restTime], by simp⟩
    exact begins.oversample oversampled

/-- The command that ends the homing does not touch what a trigger left. -/
theorem Phase.disable (phase : Phase args s) :
    Phase args { s with e := commandEndstopHome s.e ⟨0, 0, 0, 0, 0, 0, 0⟩ } := by
  cases phase with
  | checks _ _ _ untriggered noRun => exact .disabled rfl untriggered noRun
  | samples samples => exact .disabled rfl samples.untriggered samples.noRun
  | triggered _ restTime nextwake readings triggers => exact .triggered rfl restTime nextwake readings triggers
  | disabled _ untriggered noRun => exact .disabled rfl untriggered noRun

theorem Phase.step {input : Input} {next : System} (positive : 0 < args.sampleCount % 256)
    (phase : Phase args s) (moves : step s input = some next) : Phase args next := by
  cases input with
  | disable =>
    cases moves
    exact phase.disable
  | timer val oversampled =>
    simp only [Endstops.step, Option.ite_none_right_eq_some, Option.some.injEq] at moves
    obtain ⟨active, rfl⟩ := moves
    cases phase with
    | checks homes func triggerCount untriggered noRun =>
      rw [func]
      exact .check positive homes triggerCount func untriggered noRun val oversampled
    | samples samples =>
      rw [samples.func]
      exact samples.oversample val
    | triggered idle => exact absurd active (by rw [idle]; decide)
    | disabled idle => exact absurd active (by rw [idle]; decide)

theorem phase_of_reachable (positive : 0 < args.sampleCount % 256)
    (reached : Reachable (Starts args) step s) : Phase args s :=
  reached.induct_invariant (fun _ starts _ => starts.phase positive)
    (fun _ _ _ _ _ moves phase => phase.step positive moves)

/-- **An end stop triggers on a full run of samples, and reports its start.** Whatever the
pin reads, the trsync is triggered if and only if all samples that follow some matching
check match. The trigger is then the only one, it comes with the last of these samples,
which are at the times that `sample_ticks` gives, and both the micro-controller and
`home_wait` hold the time of the check. -/
theorem trigger_iff_samples_match (args : HomeArgs) (positive : 0 < args.sampleCount % 256) (s : System)
    (reached : Reachable (Starts args) step s) :
    (s.triggers ≠ [] ↔ HasRun args s.readings) ∧ (s.triggers ≠ [] → ∃ before time,
        s.readings = before ++ matching args time (sampleTimes args time (args.sampleCount % 256)) ∧
        s.triggers = [(some args.trsyncOid, args.triggerReason % 256)] ∧
        s.e.nextwake - s.e.restTime = time ∧
        ∀ lastClock, s.e.nextwake - lastClock ≤ 2 ^ 31 → lastClock - s.e.nextwake < 2 ^ 31 →
          args.restTicks < 2 ^ 32 → homeWaitClock lastClock args.restTicks (u32 s.e.nextwake) = time) := by
  cases phase_of_reachable positive reached with
  | checks _ _ _ untriggered noRun => simp [untriggered, noRun]
  | samples samples => simp [samples.untriggered, samples.noRun]
  | disabled _ untriggered noRun => simp [untriggered, noRun]
  | @triggered before time _ restTime nextwake readings triggers =>
    refine ⟨⟨fun _ => ⟨before, time, _, [], length_sampleTimes .., by rw [readings, append_nil]⟩,
      fun _ => by simp [triggers]⟩, fun _ => ⟨before, time, readings, triggers, ?_, ?_⟩⟩
    · rw [nextwake, restTime, add_sub_cancel_right]
    · intro lastClock above below fits
      have restTicks : u32 args.restTicks = args.restTicks := by
        simp only [u32, unsigned]
        omega
      rw [homeWaitClock, clock32ToClock64_eq above below, nextwake, restTicks, add_sub_cancel_right]

/-- A bounce of two samples, then a run of three that starts at `0x100000028`. -/
theorem trigger_iff_samples_match_bounce :
    let args : HomeArgs := ⟨0xffffffe8, 5, 3, 32, 1, 7, 1⟩
    ∃ s, Reachable (Starts args) step s ∧ s.triggers ≠ [] ∧ HasRun args s.readings ∧
      homeWaitClock 0x100000000 32 (u32 s.e.nextwake) = 0x100000028 := by
  let e : Endstop := ⟨false, 0, .endstopEvent, 0, 0, 0, none, false, false, 0, 0, 0⟩
  let args : HomeArgs := ⟨0xffffffe8, 5, 3, 32, 1, 7, 1⟩
  obtain ⟨s, reached, triggered, reports⟩ := exists_reachable (Starts args) step
    ⟨commandEndstopHome e args, [], []⟩ ⟨e, rfl⟩
    [.timer false true, .timer true true, .timer true true, .timer false true, .timer true true,
      .timer true true, .timer true true, .disable]
    (fun s => s.triggers ≠ [] ∧ homeWaitClock 0x100000000 32 (u32 s.e.nextwake) = 0x100000028) (by decide +kernel)
  exact ⟨s, reached, triggered, (trigger_iff_samples_match args (by decide) s reached).1.mp triggered, reports⟩

end MagnetoX.Mcu.Endstops
