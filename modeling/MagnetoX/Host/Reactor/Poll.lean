import Mathlib.Data.List.Induction

/-!
Owns the batch of events in `PollReactor._dispatch_loop`: which descriptors it looks up
in `_fds` after `poll` has returned, while the callbacks register and unregister
descriptors. `poll` returns a descriptor once, and only while it is registered.
-/

namespace MagnetoX.Host.Reactor.Poll

open List

structure Event where
  fd : Nat
  /-- `POLLIN` or `POLLHUP` -/
  readable : Bool
  /-- `POLLOUT` -/
  writable : Bool
deriving DecidableEq, Repr

/-- What a callback does to `_fds`, and whether it paused, so that another greenlet
dispatches. -/
structure Effect where
  unregistered : List Nat
  registered : List Nat
  switched : Bool
deriving DecidableEq, Repr

inductive Outcome where
  /-- The loop goes on. -/
  | done (fds : List Nat)
  /-- Another greenlet dispatches: `_end_greenlet` and `break`. -/
  | switched (fds : List Nat)
  | keyError (fd : Nat)
deriving DecidableEq, Repr

structure Callback where
  fd : Nat
  write : Bool
deriving DecidableEq, Repr

def Effect.apply (effect : Effect) (fds : List Nat) : List Nat :=
  fds.filter (· ∉ effect.unregistered) ++ effect.registered

section Loop

variable (effect : Callback → Effect)

/-- `self._fds[fd].read_callback(eventtime)`, and likewise for writing. -/
def lookup (fds : List Nat) (callback : Callback) : Outcome :=
  if callback.fd ∈ fds then
    let after := (effect callback).apply fds
    if (effect callback).switched then .switched after else .done after
  else .keyError callback.fd

def dispatchEvent (fds : List Nat) (event : Event) : Outcome :=
  let write (fds : List Nat) : Outcome :=
    if event.writable then lookup effect fds ⟨event.fd, true⟩ else .done fds
  if event.readable then
    match lookup effect fds ⟨event.fd, false⟩ with
    | .done fds => write fds
    | other => other
  else write fds

def dispatchLoop (fds : List Nat) : List Event → Outcome
  | [] => .done fds
  | event :: rest =>
      match dispatchEvent effect fds event with
      | .done fds => dispatchLoop fds rest
      | other => other

def Event.callbacks (event : Event) : List Callback :=
  (if event.readable then [⟨event.fd, false⟩] else []) ++
    if event.writable then [⟨event.fd, true⟩] else []

def callAll (fds : List Nat) : List Callback → Outcome
  | [] => .done fds
  | callback :: rest =>
      match lookup effect fds callback with
      | .done fds => callAll fds rest
      | other => other

/-- A callback has unregistered the descriptor, and none has registered it since. -/
def Dropped (fd : Nat) (called : List Callback) : Prop :=
  ∃ earlier callback later, called = earlier ++ callback :: later ∧ fd ∈ (effect callback).unregistered ∧
    ∀ other ∈ callback :: later, fd ∉ (effect other).registered

variable {effect} {fds : List Nat} {fd : Nat} {called : List Callback}

theorem callAll_append (first second : List Callback) : callAll effect fds (first ++ second) =
    match callAll effect fds first with
    | .done fds => callAll effect fds second
    | other => other := by
  induction first generalizing fds with
  | nil => rfl
  | cons callback rest ih =>
    simp only [cons_append, callAll]
    cases lookup effect fds callback with
    | done fds => exact ih
    | switched fds => rfl
    | keyError fd => rfl

theorem callAll_single (callback : Callback) : callAll effect fds [callback] = lookup effect fds callback := by
  rw [callAll]
  cases lookup effect fds callback <;> rfl

theorem dispatchLoop_eq (batch : List Event) :
    dispatchLoop effect fds batch = callAll effect fds (batch.flatMap Event.callbacks) := by
  induction batch generalizing fds with
  | nil => rfl
  | cons event rest ih =>
    have single : dispatchEvent effect fds event = callAll effect fds event.callbacks := by
      obtain ⟨fd, readable, writable⟩ := event
      cases readable with
      | false => cases writable <;> simp [dispatchEvent, Event.callbacks, callAll_single, callAll]
      | true =>
        rw [Event.callbacks, callAll_append]
        cases writable <;> simp [dispatchEvent, callAll_single, callAll]
    rw [dispatchLoop, flatMap_cons, callAll_append, single]
    cases callAll effect fds event.callbacks with
    | done fds => exact ih
    | switched fds => rfl
    | keyError fd => rfl

theorem mem_foldl_apply (registered : fd ∈ fds) :
    fd ∈ called.foldl (fun fds callback => (effect callback).apply fds) fds ↔ ¬ Dropped effect fd called := by
  induction called using reverseRecOn with
  | nil => simpa [Dropped] using registered
  | append_singleton called last ih =>
    rw [foldl_append, foldl_cons, foldl_nil, Effect.apply, mem_append, mem_filter, ih,
      decide_eq_true_iff]
    constructor
    · rintro here ⟨earlier, callback, later, isCalled, unregistered, others⟩
      rcases eq_nil_or_concat later with rfl | ⟨rest, other, rfl⟩
      · obtain ⟨rfl, isLast⟩ := append_inj' isCalled rfl
        cases isLast
        grind
      · rw [concat_eq_append, ← cons_append, ← append_assoc] at isCalled
        obtain ⟨rfl, isLast⟩ := append_inj' isCalled rfl
        cases isLast
        rcases here with ⟨kept, -⟩ | again
        · exact kept ⟨earlier, callback, rest, rfl, unregistered, fun c isC => others c (by grind)⟩
        · exact others last (by simp) again
    · intro kept
      by_cases again : fd ∈ (effect last).registered
      · exact .inr again
      · refine .inl ⟨fun dropped => kept ?_, fun unregistered => kept ⟨called, last, [], rfl, unregistered, by simpa⟩⟩
        obtain ⟨earlier, callback, later, rfl, unregistered, others⟩ := dropped
        exact ⟨earlier, callback, later ++ [last], by simp, unregistered, by grind⟩

/-- The callbacks fail at the first one whose descriptor is not registered. -/
theorem callAll_keyError_iff :
    (∃ fd, callAll effect fds called = .keyError fd) ↔ ∃ before callback after, called = before ++ callback :: after ∧
      (∀ other ∈ before, (effect other).switched = false) ∧
      callback.fd ∉ before.foldl (fun fds other => (effect other).apply fds) fds := by
  induction called generalizing fds with
  | nil => simp [callAll]
  | cons callback rest ih =>
    simp only [callAll, lookup]
    by_cases registered : callback.fd ∈ fds
    · rw [if_pos registered]
      cases switches : (effect callback).switched with
      | true =>
        refine iff_of_false (by simp) ?_
        rintro ⟨before, other, after, isCalled, stays, missing⟩
        cases before with
        | nil =>
          cases isCalled
          exact missing registered
        | cons first before =>
          cases isCalled
          have wrong := stays callback (.head _)
          rw [switches] at wrong
          cases wrong
      | false =>
        refine ih.trans ⟨?_, ?_⟩
        · rintro ⟨before, other, after, rfl, stays, missing⟩
          exact ⟨callback :: before, other, after, rfl, forall_mem_cons.mpr ⟨switches, stays⟩, missing⟩
        · rintro ⟨before, other, after, isCalled, stays, missing⟩
          cases before with
          | nil =>
            cases isCalled
            exact absurd registered missing
          | cons first before =>
            cases isCalled
            exact ⟨before, other, after, rfl, (forall_mem_cons.mp stays).2, missing⟩
    · rw [if_neg registered]
      exact iff_of_true ⟨_, rfl⟩ ⟨[], callback, rest, rfl, nofun, registered⟩

end Loop

/-- **When the poll loop looks up a descriptor that is not registered.** For any
callbacks, the loop raises no `KeyError` if and only if no callback is to be called
whose descriptor an earlier one of the batch has unregistered, up to the callback that
makes another greenlet dispatch. -/
theorem dispatchLoop_keyError_iff (effect : Callback → Effect) {fds : List Nat} {batch : List Event}
    (polled : ∀ event ∈ batch, event.fd ∈ fds) :
    (∀ fd, dispatchLoop effect fds batch ≠ .keyError fd) ↔
      ∀ before callback after, batch.flatMap Event.callbacks = before ++ callback :: after →
        (∀ other ∈ before, (effect other).switched = false) → ¬ Dropped effect callback.fd before := by
  rw [dispatchLoop_eq, ← not_exists, callAll_keyError_iff]
  simp only [not_exists, not_and, not_not]
  refine forall_congr' fun before => forall_congr' fun callback => forall_congr' fun after =>
    forall_congr' fun isBatch => forall_congr' fun _ => mem_foldl_apply ?_
  have isCalled : callback ∈ batch.flatMap Event.callbacks := by simp [isBatch]
  obtain ⟨event, isEvent, isTheirs⟩ := mem_flatMap.mp isCalled
  have same : callback.fd = event.fd := by
    simp only [Event.callbacks] at isTheirs
    grind
  exact same ▸ polled event isEvent

/-- What `recv` returns to `ClientConnection.process_received`. -/
inductive Recv where
  | error
  | data
  | hangUp
deriving DecidableEq, Repr

/-- `process_received` of an open connection; requests are handled by timers. -/
def processReceived (fd : Nat) : Recv → Effect
  | .hangUp => ⟨[fd], [], false⟩
  | _ => ⟨[], [], false⟩

/-- The events of a descriptor whose `set_fd_wake` was called; `POLLHUP` is always
reported. -/
def pollEvent (fd : Nat) (isReadable isWriteable hungUp : Bool) : Event :=
  ⟨fd, isReadable || hungUp, isWriteable⟩

/-- Two clients: the first sends, and the second hangs up behind its last event. -/
theorem dispatchLoop_keyError_iff_lastEvent :
    let batch := [pollEvent 7 false true false, pollEvent 8 true false true]
    let effect := fun callback : Callback => processReceived callback.fd (if callback.fd = 8 then .hangUp else .data)
    dispatchLoop effect [7, 8] batch = .done [7] ∧
      ∀ before callback after, batch.flatMap Event.callbacks = before ++ callback :: after →
        (∀ other ∈ before, (effect other).switched = false) → ¬ Dropped effect callback.fd before := by
  intro batch effect
  have result : dispatchLoop effect [7, 8] batch = .done [7] := by decide
  have safe : ∀ fd, dispatchLoop effect [7, 8] batch ≠ .keyError fd := by simp [result]
  exact ⟨result, (dispatchLoop_keyError_iff effect (by decide)).mp safe⟩

/-- A client hangs up while a blocked send waits: `set_fd_wake` has been called for
writing, so that the entry has both events. -/
theorem dispatchLoop_keyError_hangUp :
    dispatchLoop (fun callback => processReceived callback.fd .hangUp) [7] [pollEvent 7 false true true] =
      .keyError 7 := by
  decide

end MagnetoX.Host.Reactor.Poll
