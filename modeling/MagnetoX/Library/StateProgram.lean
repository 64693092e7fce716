import Mathlib.Tactic.Common

/-!
Owns weakest preconditions for programs that change a state and may raise an
exception, which keeps the changes made before it. `wp` has a condition for each
of the two ways in which a program can end, and the rules for the constructs of
programs are rewrite rules: they execute a program up to the calls in it, where
the specification of the called program takes over by `wp_weaken`.
-/

namespace MagnetoX.Library.StateProgram

variable {ε σ α β : Type} {program : EStateM ε σ α} {state : σ}

/-- From `state` the program returns with `post` or raises with `fails`. -/
def wp (program : EStateM ε σ α) (post : α → σ → Prop) (fails : ε → σ → Prop) (state : σ) : Prop :=
  match program state with
  | .ok value after => post value after
  | .error failure after => fails failure after

variable {post stronger : α → σ → Prop} {fails failsStronger : ε → σ → Prop}

theorem wp_mono (meets : wp program stronger failsStronger state)
    (posts : ∀ value after, stronger value after → post value after)
    (raises : ∀ failure after, failsStronger failure after → fails failure after) :
    wp program post fails state := by
  unfold wp at meets ⊢
  split at meets
  · exact posts _ _ meets
  · exact raises _ _ meets

theorem wp_weaken (meets : wp program stronger fails state)
    (posts : ∀ value after, stronger value after → post value after) : wp program post fails state :=
  wp_mono meets posts (fun _ _ raised => raised)

@[simp] theorem wp_pure (value : α) : wp (pure value) post fails state ↔ post value state := Iff.rfl

@[simp] theorem wp_throw (failure : ε) :
    wp (throw failure : EStateM ε σ α) post fails state ↔ fails failure state := Iff.rfl

@[simp] theorem wp_get {post : σ → σ → Prop} :
    wp (get : EStateM ε σ σ) post fails state ↔ post state state := Iff.rfl

@[simp] theorem wp_modify {post : PUnit → σ → Prop} (change : σ → σ) :
    wp (modify change : EStateM ε σ PUnit) post fails state ↔ post ⟨⟩ (change state) := Iff.rfl

@[simp] theorem wp_modifyGet (change : σ → α × σ) :
    wp (modifyGet change : EStateM ε σ α) post fails state ↔
      post (change state).1 (change state).2 := Iff.rfl

@[simp] theorem wp_bind {next : α → EStateM ε σ β} {post : β → σ → Prop} :
    wp (program >>= next) post fails state ↔
      wp program (fun value after => wp (next value) post fails after) fails state := by
  cases ends : program state with
  | ok value after => simp only [wp, bind, EStateM.bind, ends]
  | error failure after => simp only [wp, bind, EStateM.bind, ends]

@[simp] theorem wp_ite {condition : Prop} [Decidable condition] {other : EStateM ε σ α} :
    wp (if condition then program else other) post fails state ↔
      (condition → wp program post fails state) ∧ (¬ condition → wp other post fails state) := by
  by_cases holds : condition
  · simp [holds]
  · simp [holds]

@[simp] theorem wp_tryCatch {handle : ε → EStateM ε σ α} :
    wp (tryCatch program handle) post fails state ↔
      wp program post (fun failure after => wp (handle failure) post fails after) state := by
  cases ends : program state with
  | ok value after =>
    simp only [wp, tryCatch, tryCatchThe, MonadExceptOf.tryCatch, EStateM.tryCatch, ends]
  | error failure after =>
    simp only [wp, tryCatch, tryCatchThe, MonadExceptOf.tryCatch, EStateM.tryCatch, ends]
    rfl

/-- **The rule for loops over a list.** What one round adds holds for all items in
the end. -/
theorem wp_forM {f : α → EStateM ε σ PUnit} (holds : List α → σ → Prop) (items : List α)
    (each : ∀ done item state, holds done state →
      wp (f item) (fun _ => holds (item :: done)) fails state)
    (done : List α) (begins : holds done state) :
    wp (items.forM f) (fun _ => holds (items.reverse ++ done)) fails state := by
  induction items generalizing done state with
  | nil => exact begins
  | cons item items ih =>
    rw [List.forM, wp_bind]
    refine wp_weaken (each done item state begins) (fun _ after round => ?_)
    rw [List.reverse_cons, List.append_assoc]
    exact ih (item :: done) round

/-- The state in which a program ends, whichever way it ends. -/
def stateAfter (program : EStateM ε σ α) (state : σ) : σ :=
  match program state with
  | .ok _ after => after
  | .error _ after => after

/-- What holds both ways holds in the end. -/
theorem stateAfter_of_wp {holds : σ → Prop}
    (meets : wp program (fun _ => holds) (fun _ => holds) state) : holds (stateAfter program state) := by
  unfold wp at meets
  unfold stateAfter
  cases ends : program state with
  | ok value after =>
    rw [ends] at meets
    exact meets
  | error failure after =>
    rw [ends] at meets
    exact meets

end MagnetoX.Library.StateProgram
