import Mathlib.Tactic.Common

/-!
Owns runs of a deterministic, partial transition function. The inputs carry
every choice the environment makes; `none` means that an input is not enabled.
`Reachable` collects the states of all runs, `ReachableWithin` those of the
runs that never leave a given set of states. Also owns how a chain of fallible
calls that ends well is taken apart.
-/

namespace MagnetoX.Library.Run

universe u v

variable {σ : Type u} {ι : Type v}

/-- States reached by runs every state of which lies in `within`. -/
inductive ReachableWithin (start : σ → Prop) (step : σ → ι → Option σ) (within : σ → Prop) :
    σ → Prop where
  | initial {state : σ} (begins : start state) (inside : within state) :
      ReachableWithin start step within state
  | next {state after : σ} {input : ι} (before : ReachableWithin start step within state)
      (moves : step state input = some after) (inside : within after) :
      ReachableWithin start step within after

/-- States reached by any run. -/
abbrev Reachable (start : σ → Prop) (step : σ → ι → Option σ) : σ → Prop :=
  ReachableWithin start step (fun _ => True)

variable {start : σ → Prop} {step : σ → ι → Option σ} {within invariant : σ → Prop} {state last : σ}

/-- **The invariant rule.** What holds initially and is preserved by every step
inside `within` holds in every state reached inside `within`. -/
theorem ReachableWithin.induct_invariant (reached : ReachableWithin start step within state)
    (initially : ∀ state, start state → within state → invariant state)
    (preserved : ∀ state input after, within state → within after →
      step state input = some after → invariant state → invariant after) :
    invariant state := by
  have both : within state ∧ invariant state := by
    induction reached with
    | initial begins inside => exact ⟨inside, initially _ begins inside⟩
    | next _ moves inside ih =>
      exact ⟨inside, preserved _ _ _ ih.1 inside moves ih.2⟩
  exact both.2

theorem Reachable.after (reached : Reachable start step state) (input : ι)
    (moves : step state input = some last) : Reachable start step last :=
  .next reached moves trivial

theorem ReachableWithin.inside (reached : ReachableWithin start step within state) :
    within state := by
  cases reached with
  | initial _ inside => exact inside
  | next _ _ inside => exact inside

/-- Executing a list of inputs, as long as the states stay in `within`. -/
def run (step : σ → ι → Option σ) (within : σ → Prop) [DecidablePred within] :
    σ → List ι → Option σ
  | state, [] => if within state then some state else none
  | state, input :: rest =>
      if within state then (step state input).bind (fun after => run step within after rest)
      else none

/-- Executable runs only meet reachable states. -/
theorem ReachableWithin.of_run [DecidablePred within] {inputs : List ι}
    (before : within state → ReachableWithin start step within state)
    (executes : run step within state inputs = some last) :
    ReachableWithin start step within last := by
  induction inputs generalizing state with
  | nil =>
    rw [run] at executes
    split at executes
    · rename_i inside
      cases executes
      exact before inside
    · cases executes
  | cons input rest ih =>
    rw [run] at executes
    split at executes
    · rename_i inside
      obtain ⟨after, moves, executes⟩ := Option.bind_eq_some_iff.mp executes
      exact ih (fun reached => .next (before inside) moves reached) executes
    · cases executes

/-- A run that can be evaluated, with what its last state is seen to satisfy. -/
theorem exists_reachable (start : σ → Prop) (step : σ → ι → Option σ) (initial : σ) (begins : start initial)
    (inputs : List ι) (holds : σ → Prop) [DecidablePred holds]
    (found : (run step (fun _ => True) initial inputs).any (fun last => decide (holds last)) = true) :
    ∃ last, Reachable start step last ∧ holds last := by
  obtain ⟨last, executes, isFound⟩ := (Option.any_eq_true _ _).mp found
  exact ⟨last, .of_run (fun _ => .initial begins trivial) executes, of_decide_eq_true isFound⟩

section Fallible

variable {ε α β : Type*}

variable {call : Except ε α} {next : α → Except ε β} {result : β}

theorem bind_eq_ok
    (ends : call.bind next = .ok result) : ∃ middle, call = .ok middle ∧ next middle = .ok result := by
  cases call with
  | error failure => cases ends
  | ok middle => exact ⟨middle, rfl, ends⟩

/-- A call that can be evaluated, with what its result is seen to satisfy. -/
theorem exists_of_any (holds : α → Prop) [DecidablePred holds]
    (found : call.toOption.any (fun result => decide (holds result)) = true) :
    ∃ result, call = .ok result ∧ holds result := by
  cases call with
  | error failure => cases found
  | ok result => exact ⟨result, rfl, of_decide_eq_true found⟩

theorem bind_eq_error {failure : ε} (fails : call.bind next = .error failure) :
    call = .error failure ∨ ∃ middle, call = .ok middle ∧ next middle = .error failure := by
  cases call with
  | error first =>
    cases fails
    exact .inl rfl
  | ok middle => exact .inr ⟨middle, rfl, fails⟩

theorem map_eq_ok {next : α → β}
    (ends : call.map next = .ok result) : ∃ middle, call = .ok middle ∧ next middle = result := by
  cases call with
  | error failure => cases ends
  | ok middle => exact ⟨middle, rfl, Except.ok.inj ends⟩

end Fallible

end MagnetoX.Library.Run
