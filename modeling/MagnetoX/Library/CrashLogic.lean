import Mathlib.Tactic.Common

/-!
Owns programs of commands that the environment may let fail or cut short, and a
calculus of weakest preconditions for them. Each command is given a fate by the
environment; the fate decides its response and its effect on the state, or that the
program is cut there. A program that has no more fates is cut before its next
command.

`Ends` states what is wanted of each of the three ways in which a program can end;
the condition on a cut has to hold at every point of the program.
-/

namespace MagnetoX.Library.CrashLogic

open List

variable {ν : Type} {Resp : ν → Type} {φ σ α β ι : Type}

/-- A program that issues commands `ν` and goes on with their responses. -/
inductive Prog (Resp : ν → Type) (α : Type) where
  | ret (value : α)
  | exit (code : Nat)
  | call (command : ν) (next : Resp command → Prog Resp α)

namespace Prog

def bind : Prog Resp α → (α → Prog Resp β) → Prog Resp β
  | ret value, next => next value
  | exit code, _ => exit code
  | call command continues, next => call command (fun response => (continues response).bind next)

instance : Monad (Prog Resp) where
  pure := ret
  bind := bind

theorem bind_assoc {γ : Type} (program : Prog Resp α) (next : α → Prog Resp β) (last : β → Prog Resp γ) :
    program >>= next >>= last = program >>= fun value => next value >>= last := by
  change (program.bind next).bind last = program.bind (fun value => (next value).bind last)
  induction program with
  | ret value => rfl
  | exit code => rfl
  | call command continues ih => simp only [Prog.bind, ih]

def perform (command : ν) : Prog Resp (Resp command) := call command ret

def forEach : List ι → (ι → Prog Resp Unit) → Prog Resp Unit
  | [], _ => ret ()
  | item :: items, body => (body item).bind (fun _ => forEach items body)

end Prog

/-- How a run ends. A run that returns has fates left for what comes after it. -/
inductive Ending (φ σ α : Type) where
  | returns (value : α) (state : σ) (fates : List φ)
  | exits (code : Nat) (state : σ)
  | cut (state : σ)

def Ending.state : Ending φ σ α → σ
  | .returns _ state _ => state
  | .exits _ state => state
  | .cut state => state

/-- The code that the program has exited with. -/
def Ending.code : Ending φ σ α → Option Nat
  | .exits code _ => some code
  | _ => none

/-- The effect of a command under a fate: a response, or none if the program is cut. -/
abbrev Step (Resp : ν → Type) (φ σ : Type) := (command : ν) → φ → σ → Option (Resp command) × σ

def Prog.run (step : Step Resp φ σ) : Prog Resp α → List φ → σ → Ending φ σ α
  | ret value, fates, state => .returns value state fates
  | exit code, _, state => .exits code state
  | call _ _, [], state => .cut state
  | call command next, fate :: fates, state =>
      match step command fate state with
      | (none, after) => .cut after
      | (some response, after) => (next response).run step fates after

def Ending.Returned : Ending φ σ α → Prop
  | .returns _ _ _ => True
  | .exits _ _ => False
  | .cut _ => False

instance : DecidablePred (@Ending.Returned φ σ α) := fun ending =>
  match ending with
  | .returns _ _ _ => .isTrue trivial
  | .exits _ _ => .isFalse id
  | .cut _ => .isFalse id

/-- The run gets through the program. -/
abbrev Prog.Passes (step : Step Resp φ σ) (program : Prog Resp α) (fates : List φ) (state : σ) : Prop :=
  (program.run step fates state).Returned

/-- A sequence goes on where its first part returns, or ends with it. -/
theorem Prog.run_bind (step : Step Resp φ σ) (program : Prog Resp α) (next : α → Prog Resp β) (fates : List φ)
    (state : σ) :
    (∃ value middle rest, program.run step fates state = .returns value middle rest ∧
        (program >>= next).run step fates state = (next value).run step rest middle) ∨
      ¬ program.Passes step fates state ∧
        ((program >>= next).run step fates state).state = (program.run step fates state).state := by
  change (∃ value middle rest, _ ∧ (program.bind next).run step fates state = _) ∨
    _ ∧ ((program.bind next).run step fates state).state = _
  induction program generalizing fates state with
  | ret value => exact .inl ⟨value, state, fates, rfl, rfl⟩
  | exit code => exact .inr ⟨id, rfl⟩
  | call command continues ih =>
    cases fates with
    | nil => exact .inr ⟨id, rfl⟩
    | cons fate fates =>
      simp only [Prog.bind, Passes, run]
      split
      · exact .inr ⟨id, rfl⟩
      · exact ih _ fates _

/-- What is wanted of the end of a program. -/
structure Ends (σ α : Type) where
  returns : α → σ → Prop
  exits : Nat → σ → Prop
  cut : σ → Prop

/-- All ends but a return are alike. -/
abbrev Ends.returning (returns : α → σ → Prop) (otherwise : σ → Prop) : Ends σ α :=
  ⟨returns, fun _ => otherwise, otherwise⟩

def Ends.Meets (ends : Ends σ α) : Ending φ σ α → Prop
  | .returns value state _ => ends.returns value state
  | .exits code state => ends.exits code state
  | .cut state => ends.cut state

/-- What holds at every way to end holds of the last state. -/
theorem Ends.Meets.state {ends : Ends σ α} {ending : Ending φ σ α} {holds : σ → Prop}
    (meets : ends.Meets ending) (returns : ∀ value after, ends.returns value after → holds after)
    (exits : ∀ code after, ends.exits code after → holds after)
    (cut : ∀ after, ends.cut after → holds after) : holds ending.state := by
  cases ending with
  | returns value after fates => exact returns value after meets
  | exits code after => exact exits code after meets
  | cut after => exact cut after meets

/-- The states from which every run ends as wanted. -/
def Prog.wp (step : Step Resp φ σ) : Prog Resp α → Ends σ α → σ → Prop
  | ret value, ends, state => ends.returns value state
  | exit code, ends, state => ends.exits code state
  | call command next, ends, state =>
      ends.cut state ∧ ∀ fate,
        match step command fate state with
        | (none, after) => ends.cut after
        | (some response, after) => (next response).wp step ends after

section Calculus

variable {step : Step Resp φ σ} {ends : Ends σ β} {state : σ}

variable {program : Prog Resp β} {returned returns : β → σ → Prop} {next : α → Prog Resp β}

/-- **Soundness.** -/
theorem Prog.run_meets (holds : program.wp step ends state) (fates : List φ) :
    ends.Meets (program.run step fates state) := by
  induction program generalizing fates state with
  | ret value => exact holds
  | exit code => exact holds
  | call command next ih =>
    cases fates with
    | nil => exact holds.1
    | cons fate fates =>
      have own := holds.2 fate
      rw [run]
      split at own
      · exact own
      · exact ih _ own fates

/-- What is wanted of a run that does not get through the program. -/
theorem Prog.run_stops {otherwise : σ → Prop} {fates : List φ}
    (holds : program.wp step (.returning returned otherwise) state)
    (stops : ¬ program.Passes step fates state) : otherwise (program.run step fates state).state := by
  have meets := run_meets holds fates
  unfold Passes at stops
  revert meets stops
  cases program.run step fates state with
  | returns value after rest => exact fun stops => absurd trivial stops
  | exits code after => exact fun _ meets => meets
  | cut after => exact fun _ meets => meets

theorem Prog.wp_bind {program : Prog Resp α} :
    (program.bind next).wp step ends state ↔ program.wp step
        ⟨fun value after => (next value).wp step ends after, ends.exits, ends.cut⟩ state := by
  induction program generalizing state with
  | ret value => exact Iff.rfl
  | exit code => exact Iff.rfl
  | call command continues ih =>
    apply and_congr_right
    intro _
    apply forall_congr'
    intro fate
    split
    · exact Iff.rfl
    · exact ih _

theorem Prog.wp_mono {weaker : Ends σ β} (holds : program.wp step ends state)
    (returns : ∀ value after, ends.returns value after → weaker.returns value after)
    (exits : ∀ code after, ends.exits code after → weaker.exits code after)
    (cut : ∀ after, ends.cut after → weaker.cut after) : program.wp step weaker state := by
  induction program generalizing state with
  | ret value => exact returns value state holds
  | exit code => exact exits code state holds
  | call command next ih =>
    refine ⟨cut state holds.1, ?_⟩
    intro fate
    have own := holds.2 fate
    split at own
    · exact cut _ own
    · exact ih _ own

theorem Prog.wp_weaken (holds : program.wp step ⟨returned, ends.exits, ends.cut⟩ state)
    (returns : ∀ value after, returned value after → ends.returns value after) :
    program.wp step ends state :=
  wp_mono holds returns (fun _ _ same => same) (fun _ same => same)

theorem Prog.wp_imp {stopped otherwise : σ → Prop}
    (holds : program.wp step (.returning returned stopped) state)
    (onReturn : ∀ value after, returned value after → returns value after)
    (onStop : ∀ after, stopped after → otherwise after) :
    program.wp step (.returning returns otherwise) state :=
  wp_mono holds onReturn (fun _ => onStop) onStop

/-- **The rule of sequence.** -/
theorem Prog.wp_seq {program : Prog Resp α} {returned : α → σ → Prop}
    (first : program.wp step ⟨returned, ends.exits, ends.cut⟩ state)
    (second : ∀ value after, returned value after → (next value).wp step ends after) :
    (program >>= next).wp step ends state :=
  wp_bind.mpr (wp_weaken first second)

/-- **The loop rule.** The invariant speaks of the items done so far. -/
theorem Prog.wp_forEach {items : List ι} {body : ι → Prog Resp Unit} {ends : Ends σ Unit}
    (invariant : List ι → σ → Prop) (begins : invariant [] state)
    (preserved : ∀ done item rest before, items = done ++ item :: rest → invariant done before →
      (body item).wp step
        ⟨fun _ after => invariant (done ++ [item]) after, ends.exits, ends.cut⟩ before)
    (finishes : ∀ after, invariant items after → ends.returns () after) :
    (forEach items body).wp step ends state := by
  have loop : ∀ rest done before, items = done ++ rest → invariant done before →
      (forEach rest body).wp step ends before := by
    intro rest
    induction rest with
    | nil =>
      intro done before split holds
      rw [append_nil] at split
      rw [← split] at holds
      exact finishes before holds
    | cons item rest ih =>
      intro done before split holds
      apply wp_seq (preserved done item rest before split holds)
      intro _ after next
      apply ih (done ++ [item]) after _ next
      rw [split, append_assoc]
      rfl
  exact loop items [] state rfl begins

theorem Prog.wp_and {other : Ends σ β} (holds : program.wp step ends state)
    (also : program.wp step other state) :
    program.wp step ⟨fun value after => ends.returns value after ∧ other.returns value after,
        fun code after => ends.exits code after ∧ other.exits code after,
        fun after => ends.cut after ∧ other.cut after⟩ state := by
  induction program generalizing state with
  | ret value => exact ⟨holds, also⟩
  | exit code => exact ⟨holds, also⟩
  | call command next ih =>
    refine ⟨⟨holds.1, also.1⟩, ?_⟩
    intro fate
    have own := holds.2 fate
    have second := also.2 fate
    split at own
    · rename_i same
      rw [same] at second
      exact ⟨own, second⟩
    · rename_i same
      rw [same] at second
      exact ih _ own second

/-- What holds in an environment holds in one that can do less. -/
theorem Prog.wp_of_refines {ψ : Type} {weaker : Step Resp ψ σ}
    (refines : ∀ command fate before, ∃ other, weaker command fate before = step command other before)
    (holds : program.wp step ends state) : program.wp weaker ends state := by
  induction program generalizing state with
  | ret value => exact holds
  | exit code => exact holds
  | call command next ih =>
    refine ⟨holds.1, ?_⟩
    intro fate
    obtain ⟨other, same⟩ := refines command fate state
    have own := holds.2 other
    rw [← same] at own
    split at own
    · exact own
    · exact ih _ own

/-- In an environment that never cuts a program, every program ends, given enough fates. -/
theorem Prog.run_finishes (answers : ∀ command fate before, (step command fate before).1 ≠ none)
    (program : Prog Resp β) (fates : ℕ → φ) (state : σ) :
    ∃ count, (∃ value after,
        program.run step ((List.range count).map fates) state = .returns value after []) ∨
      ∃ code after, program.run step ((List.range count).map fates) state = .exits code after := by
  induction program generalizing fates state with
  | ret value => exact ⟨0, .inl ⟨value, state, rfl⟩⟩
  | exit code => exact ⟨0, .inr ⟨code, state, rfl⟩⟩
  | call command next ih =>
    cases answer : step command (fates 0) state with
    | mk response after =>
      cases response with
      | none => exact absurd (by rw [answer]) (answers command (fates 0) state)
      | some response =>
        obtain ⟨count, ends⟩ := ih response (fun index => fates (index + 1)) after
        refine ⟨count + 1, ?_⟩
        rw [range_succ_eq_map, map_cons, map_map]
        simp only [run, answer]
        exact ends

end Calculus

end MagnetoX.Library.CrashLogic
