import Mathlib.Data.List.FinRange
import MagnetoX.Library.FifoOrder
import MagnetoX.Library.LinkedList
import MagnetoX.Mcu.Sched.System

/-!
Owns the list of timers in memory: the walks along it, and the queue of live
timers that it spells. `Spelled` does not order the queue.

An insertion is right wherever the search for its place begins, as long as no
node up to there is later. This one fact covers the search from the head and the
one from `last_insert`.
-/

namespace MagnetoX.Mcu.Sched

open Library.LinkedList Library.Word List

variable {count : Nat} {ahead : List (TimerId count)} {timers : Memory count} {waketime : Int}

abbrev nextOf (timers : Memory count) : TimerId count → Option (TimerId count) :=
  fun t => (timers t).next

section

variable (timers : Memory count)

@[simp] theorem setNext_waketime (t : TimerId count) (next : Option (TimerId count))
    (other : TimerId count) : (setNext timers t next other).waketime = (timers other).waketime := by
  unfold setNext
  split
  · rename_i same
    rw [same]
  · rfl

@[simp] theorem setWaketime_next (t : TimerId count) (waketime : Int) (other : TimerId count) :
    (setWaketime timers t waketime other).next = (timers other).next := by
  unfold setWaketime
  split
  · rename_i same
    rw [same]
  · rfl

@[simp] theorem setNext_next_self (t : TimerId count) (next : Option (TimerId count)) :
    (setNext timers t next t).next = next := by
  simp [setNext]

theorem setNext_next_of_ne {t other : TimerId count} (next : Option (TimerId count))
    (ne : other ≠ t) : (setNext timers t next other).next = (timers other).next := by
  simp [setNext, ne]

@[simp] theorem setWaketime_waketime_self (t : TimerId count) (waketime : Int) :
    (setWaketime timers t waketime t).waketime = waketime := by
  simp [setWaketime]

theorem setWaketime_waketime_of_ne {t other : TimerId count} (waketime : Int) (ne : other ≠ t) :
    (setWaketime timers t waketime other).waketime = (timers other).waketime := by
  simp [setWaketime, ne]

end

theorem timerIsBefore_u32 {time1 time2 : Int} (lower : -2 ^ 31 ≤ time1 - time2)
    (upper : time1 - time2 < 2 ^ 31) :
    timerIsBefore (u32 time1) (u32 time2) = decide (time1 < time2) := by
  unfold timerIsBefore
  apply decide_eq_decide.mpr
  simp only [i32, signed, u32, unsigned]
  omega

/-- There are only `count + 3` timers. -/
theorem length_le_walkLimit {nodes : List (TimerId count)} (nodup : nodes.Nodup) :
    nodes.length ≤ walkLimit count := by
  have all : nodes ⊆ [.periodicTimer, .sentinelTimer, .deletedTimer] ++
      (finRange count).map .user := by
    intro node _
    cases node with
    | user oid => simp
    | _ => simp
  have bound := (subperm_of_subset nodup all).length_le
  simp only [length_append, length_map, length_finRange, length_cons,
    length_nil] at bound
  unfold walkLimit
  omega

/-- **Where the search begins does not matter.** From every node ahead of the
position the timer is linked in at the same place. -/
theorem insertTimer_between {back : List (TimerId count)} {start prev pos t : TimerId count}
    (follows : Follows (nextOf timers) (ahead ++ prev :: pos :: back))
    (nodup : (ahead ++ prev :: pos :: back).Nodup) (begins : start ∈ ahead ++ [prev])
    (notBefore : ∀ node ∈ ahead ++ [prev], timerIsBefore waketime (timers node).waketime = false)
    (before : timerIsBefore waketime (timers pos).waketime = true) :
    insertTimer (walkLimit count) timers start t waketime =
      some (setNext (setNext timers t (some pos)) prev (some t)) := by
  have bound := length_le_walkLimit nodup
  simp only [length_append, length_cons] at bound
  apply follows.walk (fun fuel node => insertTimer fuel timers node t waketime) begins (by omega)
  · intro fuel node second member step
    change (timers node).next = some second at step
    rw [insertTimer, step]
    apply if_neg
    rw [notBefore second member]
    exact Bool.false_ne_true
  · intro fuel
    have step : (timers prev).next = some pos := (isChain_cons_cons.mp follows.suffix).1
    rw [insertTimer, step]
    exact if_pos before

theorem removeTimer_pass {node second del : TimerId count}
    (step : (timers node).next = some second) (other : second ≠ del) (fuel : Nat) :
    removeTimer (fuel + 1) timers node del = removeTimer fuel timers second del := by
  rw [removeTimer, step]
  exact if_neg other

def dummyNodes (head : TimerId count) : List (TimerId count) :=
  if head = .deletedTimer then [.deletedTimer] else []

def liveNodes (queue : List (Entry count)) : List (TimerId count) :=
  queue.map Entry.timer ++ [.sentinelTimer]

def nodes (head : TimerId count) (queue : List (Entry count)) : List (TimerId count) :=
  dummyNodes head ++ liveNodes queue

/-- The memory from `head` on spells the queue: its timers, the sentinel behind
them, and maybe the dummy timer before them. -/
structure Spelled (timers : Memory count) (head : TimerId count) (queue : List (Entry count)) :
    Prop where
  reads : ReadsFrom (nextOf timers) head (nodes head queue)
  nodup : (nodes head queue).Nodup
  live : ∀ entry ∈ queue, entry.timer ≠ .deletedTimer
  waketimes : ∀ entry ∈ queue, (timers entry.timer).waketime = u32 entry.waketime

section Spelled

variable {head : TimerId count} {queue front back : List (Entry count)}

theorem dummyNodes_of_ne (ne : head ≠ .deletedTimer) : dummyNodes head = [] := if_neg ne

theorem nodes_of_ne (ne : head ≠ .deletedTimer) : nodes head queue = liveNodes queue := by
  rw [nodes, dummyNodes_of_ne ne, nil_append]

theorem sentinel_mem_liveNodes (queue : List (Entry count)) : .sentinelTimer ∈ liveNodes queue :=
  mem_append_right _ (.head _)

theorem nodes_getLast? (head : TimerId count) (queue : List (Entry count)) :
    (nodes head queue).getLast? = some .sentinelTimer := by
  rw [nodes, liveNodes, ← append_assoc]
  exact getLast?_concat

theorem Spelled.sentinel_next (spelled : Spelled timers head queue) :
    (timers .sentinelTimer).next = none :=
  spelled.reads.last _ (nodes_getLast? head queue)

theorem readsFrom_nodes (isHead : (nodes head queue).head? = some head)
    (follows : Follows (nextOf timers) (nodes head queue))
    (sentinel : (timers .sentinelTimer).next = none) :
    ReadsFrom (nextOf timers) head (nodes head queue) := by
  refine ⟨isHead, follows, ?_⟩
  intro node member
  rw [nodes_getLast?] at member
  cases member
  exact sentinel

theorem Spelled.live_nodup (spelled : Spelled timers head queue) : (liveNodes queue).Nodup :=
  (nodup_append.mp spelled.nodup).2.1

variable {entry first : Entry count} {oid : Fin count} {timers' : Memory count}

theorem Spelled.ne_sentinel (spelled : Spelled timers head queue) (member : entry ∈ queue) :
    entry.timer ≠ .sentinelTimer := by
  intro same
  exact (nodup_append.mp spelled.live_nodup).2.2 _ (mem_map_of_mem member) _
    (.head _) same

theorem Spelled.ne_others (spelled : Spelled timers head (front ++ entry :: back)) :
    ∀ other ∈ front ++ back, other.timer ≠ entry.timer := by
  have nodup := (nodup_append.mp spelled.live_nodup).1
  rw [map_append, map_cons, nodup_middle, ← map_append] at nodup
  intro other member same
  exact (nodup_cons.mp nodup).1 (mem_map.mpr ⟨other, member, same⟩)

theorem Spelled.ne_first (spelled : Spelled timers head (first :: queue)) :
    ∀ entry ∈ queue, entry.timer ≠ first.timer :=
  @Spelled.ne_others count timers head [] queue first spelled

theorem Spelled.live_follows (spelled : Spelled timers head queue) :
    Follows (nextOf timers) (liveNodes queue) :=
  Follows.suffix spelled.reads.follows

theorem Spelled.congr (spelled : Spelled timers head queue)
    (next : ∀ node ∈ nodes head queue, (timers' node).next = (timers node).next)
    (waketimes : ∀ entry ∈ queue, (timers' entry.timer).waketime = (timers entry.timer).waketime) :
    Spelled timers' head queue := by
  refine ⟨readsFrom_nodes spelled.reads.head ?_ ?_, spelled.nodup, spelled.live, ?_⟩
  · exact spelled.reads.follows.congr_all next
  · rw [next _ (mem_of_getLast? (nodes_getLast? head queue))]
    exact spelled.sentinel_next
  · intro entry member
    rw [waketimes entry member]
    exact spelled.waketimes entry member

theorem nodes_append (head : TimerId count) (front back : List (Entry count)) :
    nodes head (front ++ back) = dummyNodes head ++ front.map Entry.timer ++ liveNodes back := by
  simp [nodes, liveNodes]

theorem head?_append_cons (ahead rest : List (TimerId count)) (prev : TimerId count) :
    (ahead ++ prev :: rest).head? = (ahead ++ [prev]).head? := by
  cases ahead with
  | nil => rfl
  | cons first ahead => rfl

theorem forall_mem_insert {holds : Entry count → Prop}
    (others : ∀ other ∈ front ++ back, holds other) (own : holds entry) :
    ∀ other ∈ front ++ entry :: back, holds other := by
  obtain ⟨inFront, inBack⟩ := forall_mem_append.mp others
  exact forall_mem_append.mpr ⟨inFront, forall_mem_cons.mpr ⟨own, inBack⟩⟩

theorem Spelled.link (spelled : Spelled timers head (front ++ back)) (entry : Entry count)
    (fresh : entry.timer ∉ nodes head (front ++ back)) (live : entry.timer ≠ .deletedTimer)
    (stored : (timers entry.timer).waketime = u32 entry.waketime)
    {tail : List (TimerId count)} {prev pos : TimerId count}
    (upTo : dummyNodes head ++ front.map Entry.timer = ahead ++ [prev])
    (behind : liveNodes back = pos :: tail) :
    Spelled (setNext (setNext timers entry.timer (some pos)) prev (some entry.timer)) head
      (front ++ entry :: back) := by
  have sentinel := spelled.sentinel_next
  obtain ⟨⟨isHead, follows, -⟩, nodup, liveAll, waketimes⟩ := spelled
  have new : nodes head (front ++ entry :: back) = ahead ++ prev :: entry.timer :: pos :: tail := by
    rw [nodes_append, upTo, append_assoc, ← behind]
    rfl
  rw [nodes_append, upTo, behind, append_assoc] at isHead follows nodup fresh
  have isSentinel : .sentinelTimer ∈ pos :: tail := behind ▸ sentinel_mem_liveNodes back
  have apart := nodup_append.mp nodup
  have notSelf : entry.timer ≠ prev := by
    rintro same
    exact fresh (same ▸ mem_append_right _ (.head _))
  have links : Follows (nextOf (setNext (setNext timers entry.timer (some pos)) prev
      (some entry.timer))) (ahead ++ prev :: entry.timer :: pos :: tail) := by
    apply follows.link nodup fresh
    · intro other notPrev notEntry
      rw [nextOf, setNext_next_of_ne _ _ notPrev, setNext_next_of_ne _ _ notEntry]
    · exact setNext_next_self _ _ _
    · rw [nextOf, setNext_next_of_ne _ _ notSelf, setNext_next_self]
  refine ⟨readsFrom_nodes ?_ (new ▸ links) ?_, ?_, ?_, ?_⟩
  · rw [new, head?_append_cons]
    exact (head?_append_cons _ _ _).symm.trans isHead
  · have notPrev : TimerId.sentinelTimer ≠ prev := by
      rintro rfl
      exact (nodup_cons.mp apart.2.1).1 isSentinel
    have notEntry : TimerId.sentinelTimer ≠ entry.timer := by
      intro same
      exact fresh (same ▸ mem_append_right _ (.tail _ isSentinel))
    rw [setNext_next_of_ne _ _ notPrev, setNext_next_of_ne _ _ notEntry]
    exact sentinel
  · rw [new]
    have middle : ahead ++ prev :: entry.timer :: pos :: tail =
        (ahead ++ [prev]) ++ entry.timer :: pos :: tail := by simp
    rw [middle, nodup_middle]
    apply nodup_cons.mpr
    rw [append_assoc]
    exact ⟨fresh, nodup⟩
  · exact forall_mem_insert liveAll live
  · simp only [setNext_waketime]
    exact forall_mem_insert waketimes stored

theorem ne_dummy_of_mem_liveNodes (live : ∀ entry ∈ queue, entry.timer ≠ .deletedTimer)
    {node : TimerId count} (member : node ∈ liveNodes queue) : node ≠ .deletedTimer := by
  rcases mem_append.mp member with inQueue | isSentinel
  · obtain ⟨entry, inside, rfl⟩ := mem_map.mp inQueue
    exact live entry inside
  · rw [mem_singleton.mp isSentinel]
    exact nofun

theorem spelled_of_liveNodes (isHead : (liveNodes queue).head? = some head)
    (follows : Follows (nextOf timers) (liveNodes queue)) (nodup : (liveNodes queue).Nodup)
    (sentinel : (timers .sentinelTimer).next = none)
    (live : ∀ entry ∈ queue, entry.timer ≠ .deletedTimer)
    (waketimes : ∀ entry ∈ queue, (timers entry.timer).waketime = u32 entry.waketime) :
    head ≠ .deletedTimer ∧ Spelled timers head queue := by
  have notDummy := ne_dummy_of_mem_liveNodes live (mem_of_head? isHead)
  have same : nodes head queue = liveNodes queue := nodes_of_ne notDummy
  refine ⟨notDummy, readsFrom_nodes ?_ ?_ sentinel, ?_, live, waketimes⟩
  · rw [same]
    exact isHead
  · rw [same]
    exact follows
  · rw [same]
    exact nodup

/-- The list without the dummy timer that may stand at its head. -/
theorem Spelled.popDummy (spelled : Spelled timers head queue) :
    ∃ first, (if head = .deletedTimer then (timers .deletedTimer).next else some head) =
      some first ∧ first ≠ .deletedTimer ∧ Spelled timers first queue := by
  by_cases isDummy : head = .deletedTimer
  · have follows := spelled.reads.follows
    rw [nodes, dummyNodes, if_pos isDummy] at follows
    obtain ⟨first, isFirst, step⟩ := Follows.second follows
    exact ⟨first, (if_pos isDummy).trans step, spelled_of_liveNodes isFirst spelled.live_follows
      spelled.live_nodup spelled.sentinel_next spelled.live spelled.waketimes⟩
  · exact ⟨head, if_neg isDummy, isDummy, spelled⟩

theorem Spelled.pop (spelled : Spelled timers head (⟨head, waketime⟩ :: queue)) :
    ∃ next, (timers head).next = some next ∧ (liveNodes queue).head? = some next ∧
      next ≠ .deletedTimer ∧ Spelled timers next queue := by
  have follows : Follows (nextOf timers) (head :: liveNodes queue) := spelled.live_follows
  obtain ⟨first, isFirst, step⟩ := Follows.second follows
  refine ⟨first, step, isFirst, ?_⟩
  exact spelled_of_liveNodes isFirst (IsChain.tail follows)
    (nodup_cons.mp spelled.live_nodup).2 spelled.sentinel_next
    (forall_mem_cons.mp spelled.live).2 (forall_mem_cons.mp spelled.waketimes).2

section

variable (spelled : Spelled timers head queue)
include spelled

theorem Spelled.putDummy (notDummy : head ≠ .deletedTimer) (waketime : Int) :
    Spelled (setNext (setWaketime timers .deletedTimer waketime) .deletedTimer (some head))
      .deletedTimer queue := by
  have isHead := spelled.reads.head
  rw [nodes_of_ne notDummy] at isHead
  have old : ∀ node ∈ liveNodes queue,
      (setNext (setWaketime timers .deletedTimer waketime) .deletedTimer (some head) node).next =
        (timers node).next := by
    intro node member
    rw [setNext_next_of_ne _ _ (ne_dummy_of_mem_liveNodes spelled.live member), setWaketime_next]
  have tail : Follows (nextOf _) (liveNodes queue) := spelled.live_follows.congr_all old
  refine ⟨readsFrom_nodes rfl (tail.cons isHead (setNext_next_self _ _ _)) ?_, ?_, spelled.live, ?_⟩
  · rw [old _ (sentinel_mem_liveNodes queue)]
    exact spelled.sentinel_next
  · apply nodup_cons.mpr
    exact ⟨fun member => ne_dummy_of_mem_liveNodes spelled.live member rfl, spelled.live_nodup⟩
  · intro entry member
    rw [setNext_waketime, setWaketime_waketime_of_ne _ _ (spelled.live entry member)]
    exact spelled.waketimes entry member

theorem Spelled.cons (notDummy : head ≠ .deletedTimer)
    (entry : Entry count) (fresh : entry.timer ∉ liveNodes queue)
    (live : entry.timer ≠ .deletedTimer)
    (stored : (timers entry.timer).waketime = u32 entry.waketime) :
    Spelled (setNext timers entry.timer (some head)) entry.timer (entry :: queue) := by
  have isHead := spelled.reads.head
  rw [nodes_of_ne notDummy] at isHead
  have old : ∀ node ∈ liveNodes queue,
      (setNext timers entry.timer (some head) node).next = (timers node).next := by
    intro node member
    apply setNext_next_of_ne
    rintro rfl
    exact fresh member
  have tail : Follows (nextOf _) (liveNodes queue) := spelled.live_follows.congr_all old
  have nodup : (liveNodes (entry :: queue)).Nodup := nodup_cons.mpr ⟨fresh, spelled.live_nodup⟩
  refine (spelled_of_liveNodes rfl (tail.cons isHead (setNext_next_self _ _ _)) nodup ?_ ?_ ?_).2
  · rw [old _ (sentinel_mem_liveNodes queue)]
    exact spelled.sentinel_next
  · exact forall_mem_cons.mpr ⟨live, spelled.live⟩
  · simp only [setNext_waketime]
    exact forall_mem_cons.mpr ⟨stored, spelled.waketimes⟩

theorem Spelled.push (entry : Entry count)
    (fresh : entry.timer ∉ liveNodes queue) (live : entry.timer ≠ .deletedTimer)
    (stored : (timers entry.timer).waketime = u32 entry.waketime) (waketime : Int) :
    let next := if head = .deletedTimer then (timers .deletedTimer).next else some head
    Spelled (setNext (setWaketime (setNext timers entry.timer next) .deletedTimer waketime)
      .deletedTimer (some entry.timer)) .deletedTimer (entry :: queue) := by
  intro next
  obtain ⟨first, isNext, notDummy, popped⟩ := spelled.popDummy
  have same : next = some first := isNext
  rw [same]
  exact (popped.cons notDummy entry fresh live stored).putDummy live waketime

end

theorem Spelled.setFirst {t : TimerId count} {old : Int}
    (spelled : Spelled timers head (⟨t, old⟩ :: queue))
    (next : ∀ node, (timers' node).next = (timers node).next)
    (own : (timers' t).waketime = u32 waketime) (others : ∀ entry ∈ queue,
      (timers' entry.timer).waketime = (timers entry.timer).waketime) :
    Spelled timers' head (⟨t, waketime⟩ :: queue) := by
  obtain ⟨liveFirst, live⟩ := forall_mem_cons.mp spelled.live
  refine ⟨readsFrom_nodes spelled.reads.head ?_ ?_, spelled.nodup, ?_, ?_⟩
  · exact spelled.reads.follows.congr_all (fun node _ => next node)
  · rw [next]
    exact spelled.sentinel_next
  · exact forall_mem_cons.mpr ⟨liveFirst, live⟩
  · refine forall_mem_cons.mpr ⟨own, ?_⟩
    intro entry member
    rw [others entry member]
    exact spelled.waketimes entry (.tail _ member)

theorem Spelled.unlinkBehind (spelled : Spelled timers head (front ++ entry :: back))
    {prev : TimerId count} (upTo : dummyNodes head ++ front.map Entry.timer = ahead ++ [prev]) :
    removeTimer (walkLimit count) timers head entry.timer =
        some (setNext timers prev (timers entry.timer).next) ∧
      Spelled (setNext timers prev (timers entry.timer).next) head (front ++ back) := by
  have bound := length_le_walkLimit spelled.nodup
  have isHead := spelled.reads.head
  have nodup := spelled.nodup
  have follows := spelled.reads.follows
  have old := nodes_append head front (entry :: back)
  have new := nodes_append head front back
  rw [upTo, append_assoc] at old new
  change _ = ahead ++ prev :: entry.timer :: liveNodes back at old
  change _ = ahead ++ prev :: liveNodes back at new
  rw [old] at nodup follows isHead bound
  have apart := nodup_append.mp nodup
  have notPrev := (nodup_cons.mp apart.2.1).1
  have fewer : (front ++ back).Sublist (front ++ entry :: back) :=
    (sublist_cons_self _ _).append_left _
  constructor
  · rw [head?_append_cons] at isHead
    rw [length_append, length_cons] at bound
    apply follows.walk (fun fuel node => removeTimer fuel timers node entry.timer)
      (mem_of_head? isHead) (by omega)
    · intro fuel node second member step
      apply removeTimer_pass step
      rintro rfl
      rcases mem_append.mp member with inAhead | isPrev
      · exact apart.2.2 _ inAhead _ (.tail _ (.head _)) rfl
      · exact notPrev (mem_singleton.mp isPrev ▸ .head _)
    · intro fuel
      have step : (timers prev).next = some entry.timer :=
        (isChain_cons_cons.mp follows.suffix).1
      rw [removeTimer, step]
      exact if_pos rfl
  · refine ⟨readsFrom_nodes ?_ ?_ ?_, ?_, ?_, ?_⟩
    · rw [new, head?_append_cons]
      exact (head?_append_cons _ _ _).symm.trans isHead
    · rw [new]
      apply follows.unlink nodup
      · intro other ne
        exact setNext_next_of_ne _ _ ne
      · exact setNext_next_self _ _ _
    · rw [setNext_next_of_ne]
      · exact spelled.sentinel_next
      · rintro rfl
        exact notPrev (.tail _ (sentinel_mem_liveNodes back))
    · rw [new]
      exact Nodup.sublist (((sublist_cons_self _ _).cons_cons _).append_left _) nodup
    · intro other inside
      exact spelled.live other (fewer.subset inside)
    · intro other inside
      rw [setNext_waketime]
      exact spelled.waketimes other (fewer.subset inside)

/-- A user timer that is not in the queue is not on the list. -/
theorem not_mem_nodes (head : TimerId count) (fresh : ∀ entry ∈ queue, entry.timer ≠ .user oid) :
    TimerId.user oid ∉ nodes head queue := by
  intro member
  rcases mem_append.mp member with isDummy | isLive
  · rw [dummyNodes] at isDummy
    split at isDummy
    · cases mem_singleton.mp isDummy
    · cases isDummy
  · rcases mem_append.mp isLive with inQueue | isSentinel
    · obtain ⟨entry, inside, same⟩ := mem_map.mp inQueue
      exact fresh entry inside same
    · cases mem_singleton.mp isSentinel

/-- The search for a timer that is not on the list reaches the end. -/
theorem Spelled.removeTimer_absent (spelled : Spelled timers head queue)
    (absent : ∀ entry ∈ queue, entry.timer ≠ .user oid) :
    removeTimer (walkLimit count) timers head (.user oid) = some timers := by
  have bound := length_le_walkLimit spelled.nodup
  have isHead := spelled.reads.head
  have follows := spelled.reads.follows
  have notListed := not_mem_nodes head absent
  have whole : nodes head queue =
      dummyNodes head ++ queue.map Entry.timer ++ [.sentinelTimer] := by
    rw [nodes, liveNodes, append_assoc]
  rw [whole] at isHead follows bound notListed
  rw [length_append] at bound
  apply follows.walk (fun fuel node => removeTimer fuel timers node (.user oid))
    (mem_of_head? isHead) bound
  · intro fuel node second member step
    apply removeTimer_pass step
    rintro rfl
    exact notListed member
  · intro fuel
    rw [removeTimer, spelled.sentinel_next]

theorem Spelled.unlink (spelled : Spelled timers head queue) (notHead : head ≠ .user oid) :
    ∃ timers', removeTimer (walkLimit count) timers head (.user oid) = some timers' ∧
      Spelled timers' head (liveAfterDel oid queue) ∧
      ∀ node, (timers' node).waketime = (timers node).waketime := by
  by_cases present : ∃ entry ∈ queue, entry.timer = .user oid
  · obtain ⟨entry, member, isUser⟩ := present
    obtain ⟨front, back, rfl⟩ := append_of_mem member
    have others := spelled.ne_others
    rw [isUser] at others
    have left : liveAfterDel oid (front ++ entry :: back) = front ++ back := by
      rw [liveAfterDel, filter_append, filter_cons_of_neg (by simpa using isUser),
        ← filter_append]
      exact filter_eq_self.mpr (by simpa using others)
    rcases eq_nil_or_concat (dummyNodes head ++ front.map Entry.timer) with none | upTo
    · have isHead := spelled.reads.head
      rw [nodes_append, none] at isHead
      exact absurd ((Option.some.inj isHead).symm.trans isUser) notHead
    · obtain ⟨ahead, prev, upTo⟩ := upTo
      rw [concat_eq_append] at upTo
      obtain ⟨removes, unlinked⟩ := spelled.unlinkBehind upTo
      rw [isUser] at removes unlinked
      rw [left]
      exact ⟨_, removes, unlinked, fun _ => setNext_waketime _ _ _ _⟩
  · have absent : ∀ entry ∈ queue, entry.timer ≠ .user oid :=
      fun entry member same => present ⟨entry, member, same⟩
    refine ⟨timers, spelled.removeTimer_absent absent, ?_, fun _ => rfl⟩
    rw [liveAfterDel, filter_eq_self.mpr (by simpa using absent)]
    exact spelled

end Spelled

end MagnetoX.Mcu.Sched
