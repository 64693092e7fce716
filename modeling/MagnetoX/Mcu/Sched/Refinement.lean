import MagnetoX.Library.Run
import MagnetoX.Mcu.Sched.Dispatch

/-!
Owns the refinement theorem of the scheduler: along every run whose times stay
in one window, the linked list holds the live timers by unwrapped waketime, and
first in, first out among equal ones.
-/

namespace MagnetoX.Mcu.Sched

open Library Library.LinkedList Library.Run Library.Word List

variable {count : Nat} {s : System count}

def Inv (s : System count) : Prop :=
  ∃ status queue, s.status = some status ∧ Listed status queue ∧
    FifoOrder Entry.waketime s.arrivals queue

theorem System.Window.near (window : s.Window) : Near s.arrivals := by
  intro first inFirst second inSecond
  exact window _ (.tail _ (mem_map_of_mem inFirst)) _
    (.tail _ (mem_map_of_mem inSecond))

theorem inv_of_initial (initial : s.Initial) : Inv s := by
  obtain ⟨status, arrivals⟩ := initial
  refine ⟨SchedStatus.init, [⟨.periodicTimer, 0⟩], status, ?_, ?_⟩
  · refine ⟨⟨readsFrom_nodes rfl ?_ rfl, ?_, ?_, ?_⟩, ⟨0, .head _⟩, ?_, ?_,
      mem_singleton_self _⟩
    · exact isChain_cons_cons.mpr ⟨rfl, .singleton _⟩
    · exact nodup_cons.mpr ⟨by simp, nodup_singleton _⟩
    · simp
    · intro entry member
      rw [mem_singleton.mp member]
      rfl
    · intro waketime member
      cases mem_singleton.mp member
      rfl
    · exact nofun
  · rw [arrivals]
    exact ⟨pairwise_singleton _ _, fun _ => rfl⟩

variable {queue : List (Entry count)} {after : System count} {oid : Fin count}

/-- A waketime may be set before the timer is listed. -/
theorem Listed.setFresh {s : SchedStatus count} (listed : Listed s queue)
    (fresh : ∀ entry ∈ queue, entry.timer ≠ .user oid) (waketime : Int) :
    Listed { s with timers := setWaketime s.timers (.user oid) waketime } queue := by
  refine ⟨?_, listed.periodic, ?_, ?_, listed.lastInsert⟩
  · apply listed.spelled.congr
    · exact fun node _ => setWaketime_next _ _ _ _
    · exact fun entry member => setWaketime_waketime_of_ne _ _ (fresh entry member)
  · intro periodic isPeriodic
    rw [setWaketime_waketime_of_ne]
    · exact listed.sentinel periodic isPeriodic
    · exact nofun
  · intro isDummy
    rw [setWaketime_waketime_of_ne]
    · exact listed.dummy isDummy
    · exact nofun

theorem Listed.setShutdown {s : SchedStatus count} (listed : Listed s queue)
    (shutdownStatus : Bool) : Listed { s with shutdownStatus } queue :=
  { listed with }

theorem schedAddTimer_refused {s after : SchedStatus count} {now : Int} {add : TimerId count}
    (refused : schedAddTimer s now add = some (after, false)) : after = runShutdown s := by
  unfold schedAddTimer at refused
  dsimp only at refused
  split at refused
  · split at refused
    · cases refused
      rfl
    · cases refused
  · obtain ⟨timers, -, same⟩ := Option.map_eq_some_iff.mp refused
    cases same

theorem Inv.addTimer {status : SchedStatus count}
    (listed : Listed status queue) (order : FifoOrder Entry.waketime s.arrivals queue)
    (windowAfter : after.Window) {waketime : Int}
    (adds : s.addTimer status oid waketime = some after) : Inv after := by
  unfold System.addTimer at adds
  split at adds
  · rename_i fresh
    have notListed : ∀ entry ∈ queue, entry.timer ≠ .user oid :=
      fun entry member => fresh entry ((order.mem_iff entry).mp member)
    have prepared := listed.setFresh notListed (u32 waketime)
    cases adds
    generalize result : schedAddTimer _ _ _ = outcome at windowAfter ⊢
    by_cases added : outcome.all Prod.snd = true
    · -- The waketime is in the window only because the timer is live afterwards.
      have near := windowAfter.near
      rw [if_pos added] at near
      rcases prepared.add order notListed (setWaketime_waketime_self _ _ _)
        (near.of_arrivals order) (u32 s.now) with refused | ⟨next, queue', adds, listedAfter, orderAfter⟩
      · rw [← result, refused] at added
        cases added
      · rw [← result, adds]
        exact ⟨next, queue', rfl, listedAfter, orderAfter⟩
    · obtain ⟨next, isNext⟩ : ∃ next, outcome = some (next, false) := by
        cases outcome with
        | none => exact absurd rfl added
        | some pair =>
          obtain ⟨next, flag⟩ := pair
          cases flag with
          | true => exact absurd rfl added
          | false => exact ⟨next, rfl⟩
      rw [isNext] at result ⊢
      rw [schedAddTimer_refused result]
      exact ⟨_, _, rfl, prepared.reset.setShutdown true, order.filter _⟩
  · cases adds

theorem Inv.step {clockFreq : Nat} {operation : Operation count}
    (inv : Inv s) (window : s.Window) (windowAfter : after.Window)
    (steps : s.step clockFreq operation = some after) : Inv after := by
  obtain ⟨status, queue, isStatus, listed, order⟩ := inv
  have near : Near queue := window.near.mono (fun entry => (order.mem_iff entry).mp)
  rw [System.step, isStatus, Option.bind_some] at steps
  cases operation with
  | elapse ticks =>
    cases steps
    exact ⟨status, queue, rfl, listed, order⟩
  | addTimer oid waketime => exact Inv.addTimer listed order windowAfter steps
  | delTimer oid =>
    obtain ⟨next, deletes, listedAfter, -⟩ := listed.del order near oid
    cases steps
    exact ⟨next, _, deletes, listedAfter, order.filter _⟩
  | timerDispatch callback =>
    simp only [System.dispatch] at steps
    split at steps
    · rename_i enabled
      cases steps
      obtain ⟨next, _, queue', dispatches, -, listedAfter, orderAfter⟩ :=
        listed.dispatch order near clockFreq enabled.2 windowAfter.near
      exact ⟨next, queue', by rw [dispatches]; rfl, listedAfter, orderAfter⟩
    · cases steps
  | timerReset =>
    cases steps
    exact ⟨_, _, rfl, listed.reset, order.filter _⟩
  | shutdown =>
    cases steps
    exact ⟨_, _, rfl, listed.reset.setShutdown true, order.filter _⟩
  | clearShutdown =>
    cases steps
    exact ⟨_, queue, rfl, listed.setShutdown false, order⟩

/-- **The timer list refines the live timers.** In every run whose times stay in
one window, every walk along the list ends, and the list read from `timer_list`
is, behind a possible dummy timer, the live timers and the sentinel. The live
timers stand by unwrapped waketime, those of one waketime in the order in which
they were scheduled. `last_insert` is one of them, and dispatch with it gives the
result of dispatch from the head. -/
theorem timerList_refines_live (clockFreq : Nat) {s : System count}
    (reached : ReachableWithin System.Initial (System.step clockFreq) System.Window s) :
    ∃ status queue, s.status = some status ∧
      ReadsFrom (nextOf status.timers) status.timerList (nodes status.timerList queue) ∧
      (nodes status.timerList queue).Nodup ∧
      (∀ entry, entry ∈ queue ↔ entry ∈ s.arrivals) ∧
      FifoOrder Entry.waketime s.arrivals queue ∧
      (∀ entry ∈ queue, entry.timer ≠ .deletedTimer ∧
        (status.timers entry.timer).waketime = u32 entry.waketime) ∧
      .periodicTimer ∈ queue.map Entry.timer ∧
      status.lastInsert ∈ queue.map Entry.timer ∧
      ∀ callback after, s.step clockFreq (.timerDispatch callback) = some after → after.Window →
        schedTimerDispatch clockFreq status callback =
          dispatchFromHead clockFreq status callback := by
  have inv : Inv s := by
    apply reached.induct_invariant
    · exact fun _ initial _ => inv_of_initial initial
    · exact fun _ _ _ window windowAfter steps inv => inv.step window windowAfter steps
  obtain ⟨status, queue, isStatus, listed, order⟩ := inv
  refine ⟨status, queue, isStatus, listed.spelled.reads, listed.spelled.nodup, order.mem_iff, order,
    ?_, ?_, listed.lastInsert, ?_⟩
  · exact fun entry member => ⟨listed.spelled.live entry member,
      listed.spelled.waketimes entry member⟩
  · obtain ⟨waketime, member⟩ := listed.periodic
    exact mem_map.mpr ⟨_, member, rfl⟩
  · intro callback after steps windowAfter
    have near : Near queue := reached.inside.near.mono (fun entry => (order.mem_iff entry).mp)
    rw [System.step, isStatus, Option.bind_some] at steps
    simp only [System.dispatch] at steps
    split at steps
    · rename_i enabled
      cases steps
      obtain ⟨_, _, _, cached, fromHead, -⟩ :=
        listed.dispatch order near clockFreq enabled.2 windowAfter.near
      rw [cached, fromHead]
    · cases steps

/-- Two timers of one waketime. The periodic timer and then both are dispatched;
both are scheduled again for one waketime, the second behind the cached first. -/
theorem timerList_refines_live_twoTimers :
    ∃ (s : System 2) (status : SchedStatus 2) (queue : List (Entry 2)),
      s.arrivals = [⟨.periodicTimer, 1600000⟩, ⟨.user 0, 300⟩, ⟨.user 1, 300⟩] ∧
      s.status = some status ∧ status.lastInsert ∈ queue.map Entry.timer ∧
      FifoOrder Entry.waketime s.arrivals queue := by
  let operations : List (Operation 2) :=
    [.addTimer 0 100, .addTimer 1 100, .timerDispatch ⟨[], 0, .done⟩, .elapse 100,
      .timerDispatch ⟨[], 300, .reschedule⟩, .timerDispatch ⟨[], 300, .reschedule⟩]
  have result : (run (System.step 16000000) System.Window
      ⟨some SchedStatus.init, 0, [⟨.periodicTimer, 0⟩]⟩ operations).map System.arrivals =
      some [⟨.periodicTimer, 1600000⟩, ⟨.user 0, 300⟩, ⟨.user 1, 300⟩] := by
    decide +kernel
  obtain ⟨s, executes, arrivals⟩ := Option.map_eq_some_iff.mp result
  obtain ⟨status, queue, isStatus, -, -, -, order, -, -, lastInsert, -⟩ :=
    timerList_refines_live 16000000 (.of_run (fun inside => .initial ⟨rfl, rfl⟩ inside) executes)
  exact ⟨s, status, queue, arrivals, isStatus, lastInsert, order⟩

end MagnetoX.Mcu.Sched
