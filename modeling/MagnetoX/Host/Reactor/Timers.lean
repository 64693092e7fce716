import MagnetoX.Host.Reactor.Switching

/-!
Owns that the reactor does not overlook a timer, whatever its clients do: they may set
and drop any timer, that of a greenlet too, return any time from a callback, and pause
in it. Does not own who waits for what; `ReactorMutex` is one of the clients.
-/

namespace MagnetoX.Host.Reactor

open Library.Run

namespace SelectReactor

/-- A call of a client. `unregister_timer` fails for a timer that is not registered. -/
def clientCall (r : SelectReactor) : Input → Option SelectReactor
  | .registerTimer waketime => some (r.registerTimer none waketime)
  | .unregisterTimer timer => if timer ∈ r.timers then some (r.unregisterTimer timer) else none
  | .updateTimer timer waketime => some (r.updateTimer timer waketime)
  | .wake timer => some (r.updateTimer timer NOW)
  | _ => none

def visit (r : SelectReactor) (timer eventtime : Nat) (remaining : List Nat) : SelectReactor :=
  if r.waketime timer ≤ eventtime then
    match r.switches timer with
    | none => r.invoke timer eventtime remaining
    | some g => r.switchTo g timer eventtime remaining
  else r.skip timer eventtime remaining

/-- One step. Clients that are not called by the reactor call it before it runs. -/
def clientStep (r : SelectReactor) (input : Input) : Option SelectReactor :=
  match r.control, input with
  | .loop, .checkTimers eventtime => some (r.checkTimers eventtime)
  | .loop, .readCallback => some { r with control := .run r.gDispatch .readCallback }
  | .scan _ [], .visit => some { r with control := .loop }
  | .scan eventtime (timer :: remaining), .visit => some (r.visit timer eventtime remaining)
  | .run g call, .pause waketime => some (r.pause g call .paused waketime)
  | .run g call, .finish waketime => some (r.finish g call waketime)
  | .scan _ _, _ => none
  | _, input => r.clientCall input

variable {r after : SelectReactor} {input : Input} {call : Call}

def Watched (r : SelectReactor) : Prop := r.Seen r.control.remaining

theorem Watched.clientCall (watched : r.Watched) (calls : r.clientCall input = some after) : after.Watched := by
  cases input with
  | registerTimer waketime =>
    cases calls
    exact Seen.registerTimer watched none waketime
  | unregisterTimer timer =>
    rw [SelectReactor.clientCall] at calls
    split at calls
    · cases calls
      exact Seen.unregisterTimer watched timer
    · cases calls
  | updateTimer timer waketime =>
    cases calls
    exact Seen.updateTimer watched timer waketime
  | wake timer =>
    cases calls
    exact Seen.updateTimer watched timer NOW
  | _ => cases calls

theorem Seen.visit {timer eventtime : Nat} {remaining : List Nat} (seen : r.Seen (timer :: remaining)) :
    (r.visit timer eventtime remaining).Watched := by
  rw [SelectReactor.visit]
  split
  · split
    · exact { seen.due with }
    · exact { seen.due with }
  · exact { seen.skip with }

/-- The callback pauses: a greenlet that begins to dispatch looks at all timers. -/
theorem Watched.pause (watched : r.Watched) {g : Nat} (runs : r.control = .run g call) (mode : Mode)
    (waketime : Nat) : (r.pause g call mode waketime).Watched := by
  have dispatches : ∀ base, (r.pauseDispatch g base mode waketime).Watched := by
    intro base
    rw [Watched, SelectReactor.pauseDispatch, control_dispatchNext]
    exact seen_pauseDispatch r g base mode waketime
  cases call with
  | readCallback => exact dispatches none
  | callback timer eventtime remaining => exact dispatches (some timer)
  | switch timer eventtime remaining =>
    rw [Watched, runs] at watched
    have updated := Seen.updateTimer watched timer waketime
    exact { updated with }

/-- The callback returns. If it has paused, the scan it was in is given up. -/
theorem Watched.finish (watched : r.Watched) {g : Nat} (runs : r.control = .run g call)
    (waketime : Nat) : (r.finish g call waketime).Watched := by
  rw [Watched, runs] at watched
  cases call with
  | readCallback => exact { watched with }
  | callback timer eventtime remaining =>
    have updated := Seen.updateTimer watched timer waketime
    exact { updated with }
  | switch timer eventtime remaining =>
    have based : (r.setBase g waketime).Seen remaining := by
      rw [setBase]
      split
      · exact watched
      · exact Seen.updateTimer watched _ waketime
    have updated := (based.unregisterTimer timer).updateTimer timer NEVER
    exact { updated with }

theorem Watched.step (watched : r.Watched) (steps : r.clientStep input = some after) : after.Watched := by
  unfold clientStep at steps
  split at steps
  case h_1 eventtime isLoop =>
    cases steps
    rw [checkTimers]
    split
    · exact watched
    · exact ⟨le_rfl, fun _ => .inr⟩
  case h_2 isLoop =>
    cases steps
    rw [Watched, isLoop] at watched
    exact { watched with }
  case h_3 isScan =>
    cases steps
    rw [Watched, isScan] at watched
    exact { watched with }
  case h_4 eventtime timer remaining isScan =>
    cases steps
    rw [Watched, isScan] at watched
    exact Seen.visit watched
  case h_5 g call waketime runs =>
    cases steps
    exact watched.pause runs .paused waketime
  case h_6 g call waketime runs =>
    cases steps
    exact watched.finish runs waketime
  case h_7 => cases steps
  case h_8 => exact watched.clientCall steps

theorem watched_of_reachable (reached : Reachable (· = SelectReactor.initial) clientStep r) : r.Watched := by
  apply reached.induct_invariant
  · rintro _ rfl _
    exact ⟨le_rfl, nofun⟩
  · exact fun _ _ _ _ _ steps watched => watched.step steps

end SelectReactor

/-- **No timer is overlooked.** Whenever a greenlet is about to call `_check_timers`,
`_next_timer` is at most the time of every registered timer. So `_check_timers` looks
at all timers if one of them is due. -/
theorem no_timer_overlooked {r : SelectReactor}
    (reached : Reachable (· = SelectReactor.initial) SelectReactor.clientStep r) (atLoop : r.control = .loop) :
    (∀ timer ∈ r.timers, r.nextTimer ≤ r.waketime timer) ∧
      ∀ eventtime, ∀ timer ∈ r.timers, r.waketime timer ≤ eventtime →
        (r.checkTimers eventtime).control = .scan eventtime r.timers := by
  have watched := SelectReactor.watched_of_reachable reached
  rw [SelectReactor.Watched, atLoop] at watched
  have atMost : ∀ timer ∈ r.timers, r.nextTimer ≤ r.waketime timer :=
    fun timer isTimer => (watched.seen timer isTimer).resolve_right nofun
  refine ⟨atMost, fun eventtime timer isTimer due => ?_⟩
  rw [SelectReactor.checkTimers, if_neg (Nat.not_lt.mpr ((atMost timer isTimer).trans due))]

/-- The callback of the first of two timers pauses before the second one is looked at. -/
theorem no_timer_overlooked_paused :
    ∃ r : SelectReactor, r.timers = [0, 1, 2] ∧ r.waketime 1 = 5 ∧
      (r.checkTimers 7).control = .scan 7 [0, 1, 2] := by
  obtain ⟨r, reached, atLoop, timers, waketime⟩ := exists_reachable (· = SelectReactor.initial)
    SelectReactor.clientStep .initial rfl
    [.registerTimer 5, .registerTimer 5, .checkTimers 6, .visit, .pause 9]
    (fun r => r.control = .loop ∧ r.timers = [0, 1, 2] ∧ r.waketime 1 = 5) (by decide +kernel)
  have scans := (no_timer_overlooked reached atLoop).2 7 1
    (by rw [timers]; decide) (by rw [waketime]; decide)
  exact ⟨r, timers, waketime, by rw [scans, timers]⟩

end MagnetoX.Host.Reactor
