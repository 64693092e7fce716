import Mathlib.Data.Fintype.Order
import Mathlib.Order.CompletePartialOrder
import MagnetoX.Library.MinHeap
import MagnetoX.Library.Run
import MagnetoX.Library.SlotSchedule
import MagnetoX.Message.Vlq

/-!
Owns `heap_replace` and `steppersync_flush` of
`klippy/chelper/stepcompress.c`: the order in which the messages of several
steppers go out, and the clocks at which the slots of the micro-controller's
move queue become free again.

What `stepcompress_flush` leaves in the message queues is an input of every
call. A system state remembers all messages sent so far.
-/

namespace MagnetoX.Host.StepCompress

open Library.MinHeap Library.SlotSchedule Library.Run List

abbrev Clock := Fin (2 ^ 64)

def MAX_CLOCK : Clock := 0x7fffffffffffffff

/-- The fields of `struct queue_message` on a stepper's message queue. On this
queue `minClock` is the time at which the micro-controller frees the move again,
and zero for a message that takes no move. -/
structure QueueMessage where
  msg : Message.Bytes
  reqClock : Clock
  minClock : Clock
deriving DecidableEq, Repr

/-- The clocks of `struct steppersync`. There is at least one move, as the code
reads and replaces `move_clocks[0]`. -/
structure Steppersync where
  moveClocks : List Clock
  nonempty : 0 < moveClocks.length

def steppersyncAlloc (moveNum : Nat) (positive : 0 < moveNum) : Steppersync where
  moveClocks := List.replicate moveNum 0
  nonempty := by rwa [List.length_replicate]

/-- `move_clocks[0]`. -/
def Steppersync.nextAvail (ss : Steppersync) : Clock := ss.moveClocks.get ⟨0, ss.nonempty⟩

/-- `heap_replace`. `UINT64_MAX` is the greatest clock, which the sift reads for
a missing child. -/
def heapReplace (ss : Steppersync) (reqClock : Clock) : Steppersync where
  moveClocks := replaceRoot ss.moveClocks reqClock
  nonempty := by
    rw [replaceRoot_length]
    exact ss.nonempty

def findLowest : Nat → List (List QueueMessage) → Option (Nat × QueueMessage) →
    Option (Nat × QueueMessage)
  | _, [], qm => qm
  | i, [] :: scList, qm => findLowest (i + 1) scList qm
  | i, (m :: _) :: scList, qm =>
      if m.reqClock < qm.elim MAX_CLOCK (fun found => found.2.reqClock) then
        findLowest (i + 1) scList (some (i, m))
      else findLowest (i + 1) scList qm

/-- A transmitted message, with the clock at which its move is freed and the
clocks recorded when it was batched. -/
structure Sent where
  message : QueueMessage
  freed : Clock
  recorded : List Clock
deriving DecidableEq, Repr

def flushLoop (moveClock : Clock) : Nat → Steppersync → List (List QueueMessage) → List Sent →
    Option (Steppersync × List (List QueueMessage) × List Sent)
  | 0, _, _, _ => none
  | fuel + 1, ss, scList, msgs =>
      match findLowest 0 scList none with
      | none => some (ss, scList, msgs)
      | some (i, qm) =>
          if qm.minClock ≠ 0 ∧ qm.reqClock > moveClock then some (ss, scList, msgs)
          else
            flushLoop moveClock fuel
              (if qm.minClock ≠ 0 then heapReplace ss qm.minClock else ss)
              (scList.modify i List.tail)
              (msgs ++ [⟨{ qm with minClock := ss.nextAvail }, qm.minClock, ss.moveClocks⟩])

/-- `steppersync_flush`. For each stepper, `flushed` holds what
`stepcompress_flush` returned and the stepper's message queue afterwards; the
first error ends the call. -/
def steppersyncFlush (ss : Steppersync) (flushed : List (Int × List QueueMessage))
    (moveClock : Clock) : Option (Int × Steppersync × List (List QueueMessage) × List Sent) :=
  match flushed.find? (fun result => result.1 ≠ 0) with
  | some (ret, _) => some (ret, ss, flushed.map Prod.snd, [])
  | none =>
      (flushLoop moveClock ((flushed.map (fun result => result.2.length)).sum + 1) ss
        (flushed.map Prod.snd) []).map (fun result => (0, result))

variable {scList remaining : List (List QueueMessage)} {ss after : Steppersync}
  {moveNum fuel i : Nat} {message : QueueMessage}

theorem findLowest_found {qm : Option (Nat × QueueMessage)} {number : Nat}
    (found : findLowest i scList qm = some (number, message)) :
    qm = some (number, message) ∨
      ∃ offset rest, number = i + offset ∧ scList[offset]? = some (message :: rest) := by
  induction scList generalizing i qm with
  | nil => exact .inl found
  | cons queue scList ih =>
    have later : ∀ best, findLowest (i + 1) scList best = some (number, message) →
        best = some (number, message) ∨ ∃ offset rest, number = i + offset ∧
          (queue :: scList)[offset]? = some (message :: rest) := by
      intro best foundLater
      rcases ih foundLater with same | ⟨offset, rest, rfl, first⟩
      · exact .inl same
      · exact .inr ⟨offset + 1, rest, by omega, first⟩
    cases queue with
    | nil => exact later qm found
    | cons m tail =>
      rw [findLowest] at found
      split at found
      · rcases later _ found with same | other
        · obtain ⟨rfl, rfl⟩ := Prod.mk.inj (Option.some.inj same)
          exact .inr ⟨0, tail, rfl, rfl⟩
        · exact .inr other
      · exact later qm found

def queued (scList : List (List QueueMessage)) : Nat := (scList.map List.length).sum

theorem queued_modify_tail {rest : List QueueMessage}
    (first : scList[i]? = some (message :: rest)) :
    queued (scList.modify i List.tail) + 1 = queued scList := by
  induction scList generalizing i with
  | nil => simp at first
  | cons queue scList ih =>
    cases i with
    | zero =>
      rw [getElem?_cons_zero, Option.some.injEq] at first
      subst first
      simp only [queued, modify_zero_cons, map_cons, sum_cons, tail_cons,
        length_cons]
      omega
    | succ i =>
      have smaller := ih first
      simp only [queued, modify_succ_cons, map_cons, sum_cons] at smaller ⊢
      omega

/-- Each round takes one message, so the loop ends. -/
theorem flushLoop_isSome (moveClock : Clock) {msgs : List Sent}
    (enough : queued scList < fuel) : (flushLoop moveClock fuel ss scList msgs).isSome := by
  induction fuel generalizing ss scList msgs with
  | zero => exact absurd enough (by omega)
  | succ fuel ih =>
    rw [flushLoop]
    cases lowest : findLowest 0 scList none with
    | none => rfl
    | some found =>
      simp only
      split
      · rfl
      · rcases findLowest_found lowest with impossible | ⟨offset, rest, number, first⟩
        · cases impossible
        · rw [Nat.zero_add] at number
          subst number
          have smaller := queued_modify_tail first
          exact ih (by omega)

theorem steppersyncFlush_isSome (ss : Steppersync) (flushed : List (Int × List QueueMessage))
    (moveClock : Clock) : (steppersyncFlush ss flushed moveClock).isSome := by
  unfold steppersyncFlush
  split
  · rfl
  · rw [Option.isSome_map]
    apply flushLoop_isSome
    rw [queued, map_map]
    exact Nat.lt_succ_self _

/-- The message as a grant of a move: allowed from the clock that the host
assigned, and holding a move unless its clock was zero. -/
def Sent.grant (sent : Sent) : Grant Clock where
  available := sent.message.minClock
  release := if sent.freed = 0 then none else some sent.freed

def Sent.TakesLeast (moveNum : Nat) (sent : Sent) : Prop :=
  sent.recorded.length = moveNum ∧ sent.message.minClock ∈ sent.recorded ∧
    ∀ clock ∈ sent.recorded, sent.message.minClock ≤ clock

/-- All calls of `steppersync_flush` so far: the clocks now, and what was sent. -/
structure History where
  ss : Steppersync
  sent : List Sent

def flush (history : History) (call : List (Int × List QueueMessage) × Clock) : Option History :=
  (steppersyncFlush history.ss call.1 call.2).map
    (fun (_, ss, _, msgs) => ⟨ss, history.sent ++ msgs⟩)

structure Consistent (moveNum : Nat) (ss : Steppersync) (sent : List Sent) : Prop where
  isHeap : IsHeap ss.moveClocks
  scheduled : Scheduled moveNum ss.moveClocks (sent.map Sent.grant)
  least : ∀ message ∈ sent, message.TakesLeast moveNum

theorem consistent_alloc (moveNum : Nat) (positive : 0 < moveNum) :
    Consistent moveNum (steppersyncAlloc moveNum positive) [] := by
  refine ⟨isHeap_replicate moveNum 0, ?_, by simp⟩
  have start := scheduled_nil (replicate moveNum (0 : Clock))
  rwa [length_replicate] at start

theorem Steppersync.moveClocks_eq (ss : Steppersync) :
    ss.moveClocks = ss.nextAvail :: ss.moveClocks.tail := by
  obtain ⟨moveClocks, nonempty⟩ := ss
  cases moveClocks with
  | nil => exact absurd nonempty (by decide)
  | cons head tail => rfl

theorem heapReplace_perm (isHeap : IsHeap ss.moveClocks) (reqClock : Clock) :
    (heapReplace ss reqClock).moveClocks.Perm (reqClock :: ss.moveClocks.tail) := by
  have replaced := (replaceRoot_spec isHeap ss.nonempty reqClock).2
  rw [ss.moveClocks_eq, set_cons_zero, ← ss.moveClocks_eq] at replaced
  exact replaced

theorem nextAvail_le (isHeap : IsHeap ss.moveClocks) :
    ∀ clock ∈ ss.moveClocks, ss.nextAvail ≤ clock := by
  intro clock member
  have root := isHeap.root_le_of_mem member
  rwa [entry_of_lt ss.nonempty] at root

/-- **One message.** Batching a message keeps the clocks consistent. -/
theorem Consistent.batch {sent : List Sent} (consistent : Consistent moveNum ss sent)
    (qm : QueueMessage) :
    Consistent moveNum (if qm.minClock ≠ 0 then heapReplace ss qm.minClock else ss)
      (sent ++ [⟨{ qm with minClock := ss.nextAvail }, qm.minClock, ss.moveClocks⟩]) := by
  have least : ∀ message ∈ sent ++
      [⟨{ qm with minClock := ss.nextAvail }, qm.minClock, ss.moveClocks⟩],
      message.TakesLeast moveNum := by
    intro message member
    rcases mem_append.mp member with old | new
    · exact consistent.least message old
    · rw [mem_singleton.mp new]
      refine ⟨consistent.scheduled.length, ?_, nextAvail_le consistent.isHeap⟩
      exact get_mem ..
  by_cases takes : qm.minClock = 0
  · rw [if_neg (not_not.mpr takes)]
    refine ⟨consistent.isHeap, ?_, least⟩
    rw [map_append]
    simpa [Sent.grant, takes] using consistent.scheduled.pass ss.nextAvail
  · rw [if_pos takes]
    refine ⟨(replaceRoot_spec consistent.isHeap ss.nonempty _).1, ?_, least⟩
    have scheduled := consistent.scheduled
    rw [ss.moveClocks_eq] at scheduled
    rw [map_append]
    simpa [Sent.grant, takes] using
      scheduled.take qm.minClock (heapReplace_perm consistent.isHeap qm.minClock)

theorem Consistent.flushLoop {moveClock : Clock}
    {sent msgs batch : List Sent} (consistent : Consistent moveNum ss (sent ++ msgs))
    (flushed : flushLoop moveClock fuel ss scList msgs = some (after, remaining, batch)) :
    Consistent moveNum after (sent ++ batch) := by
  induction fuel generalizing ss scList msgs with
  | zero => cases flushed
  | succ fuel ih =>
    rw [StepCompress.flushLoop] at flushed
    split at flushed
    · cases flushed
      exact consistent
    · split at flushed
      · cases flushed
        exact consistent
      · rename_i qm _ _
        refine ih ?_ flushed
        rw [← append_assoc]
        exact consistent.batch qm

theorem Consistent.flush {history after : History} {call : List (Int × List QueueMessage) × Clock}
    (consistent : Consistent moveNum history.ss history.sent)
    (called : StepCompress.flush history call = some after) :
    Consistent moveNum after.ss after.sent := by
  obtain ⟨⟨ret, ss, scList, msgs⟩, flushed, rfl⟩ := Option.map_eq_some_iff.mp called
  unfold steppersyncFlush at flushed
  split at flushed
  · cases flushed
    simpa using consistent
  · obtain ⟨⟨_, _, _⟩, looped, same⟩ := Option.map_eq_some_iff.mp flushed
    cases same
    exact Consistent.flushLoop (by simpa using consistent) looped

theorem consistent_of_reachable {positive : 0 < moveNum} {history : History}
    (reached : Reachable (fun start => start = ⟨steppersyncAlloc moveNum positive, []⟩)
      flush history) :
    Consistent moveNum history.ss history.sent := by
  induction reached with
  | initial begins =>
    rw [begins]
    exact consistent_alloc moveNum positive
  | next _ called _ ih => exact ih.flush called

/-- **The move queue never overflows.** After any sequence of flushes with any
messages, the clocks form a heap, every assigned clock is the least of the
`moveNum` recorded ones, and at no clock do more than `moveNum` messages hold a
move. So the micro-controller never holds more moves, if no message arrives
before it can go out and every move is freed by its recorded clock. Every
further call completes. -/
theorem moveQueue_never_overflows (moveNum : Nat) (positive : 0 < moveNum) {history : History}
    (reached : Reachable (fun start => start = ⟨steppersyncAlloc moveNum positive, []⟩)
      flush history) :
    IsHeap history.ss.moveClocks ∧ (∀ sent ∈ history.sent, sent.TakesLeast moveNum) ∧
      (∀ clock, inUse (history.sent.map Sent.grant) clock ≤ moveNum) ∧
      (∀ arrives gone, Timely (history.sent.map Sent.grant) arrives gone →
        ∀ clock, holding (history.sent.map Sent.grant) arrives gone clock ≤ moveNum) ∧
      ∀ call, (flush history call).isSome := by
  have consistent := consistent_of_reachable reached
  refine ⟨consistent.isHeap, consistent.least, consistent.scheduled.bounded, ?_, ?_⟩
  · intro arrives gone timely clock
    exact (timely.holding_le clock).trans (consistent.scheduled.bounded clock)
  · intro call
    rw [flush, Option.isSome_map]
    exact steppersyncFlush_isSome ..

/-- Two steppers share two moves. The third message is allowed only when the
first move is freed, and one that takes no move goes out between them. -/
theorem moveQueue_never_overflows_two : ∃ history : History, history.sent.map Sent.grant =
        [⟨0, some 100⟩, ⟨0, some 50⟩, ⟨50, none⟩, ⟨50, some 300⟩] ∧
      ∀ clock, inUse (history.sent.map Sent.grant) clock ≤ 2 := by
  let calls : List (List (Int × List QueueMessage) × Clock) :=
    [([(0, [⟨[], 90, 100⟩, ⟨[], 120, 0⟩]), (0, [⟨[], 95, 50⟩])], 110),
      ([(0, []), (0, [⟨[], 250, 300⟩])], 260)]
  have result : (run flush (fun _ => True) ⟨steppersyncAlloc 2 (by decide), []⟩ calls).map
      (fun history => history.sent.map Sent.grant) =
      some [⟨0, some 100⟩, ⟨0, some 50⟩, ⟨50, none⟩, ⟨50, some 300⟩] := by
    decide +kernel
  obtain ⟨history, executes, grants⟩ := Option.map_eq_some_iff.mp result
  exact ⟨history, grants, (moveQueue_never_overflows 2 (by decide)
    (.of_run (fun inside => .initial rfl inside) executes)).2.2.1⟩

end MagnetoX.Host.StepCompress
