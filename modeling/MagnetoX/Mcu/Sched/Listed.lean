import MagnetoX.Mcu.Sched.TimerList

/-!
Owns how the scheduler lists a queue of live timers, and that adding, deleting
and resetting keep this.

Every comparison in `sched.c` is between a waketime and another one of the same
window, with two exceptions. The dummy timer at the head may be older than the
window, but the periodic timer cannot have moved since it was put there. The
sentinel is `2^31` ticks after the periodic timer, so that it compares as later
only with timers that are not before the periodic timer.
-/

namespace MagnetoX.Mcu.Sched

open Library Library.LinkedList Library.Word List

variable {count : Nat}

def Near (queue : List (Entry count)) : Prop :=
  ∀ first ∈ queue, ∀ second ∈ queue, first.waketime - second.waketime < 2 ^ 30

structure Listed (s : SchedStatus count) (queue : List (Entry count)) : Prop where
  spelled : Spelled s.timers s.timerList queue
  periodic : ∃ waketime, ⟨.periodicTimer, waketime⟩ ∈ queue
  sentinel : ∀ waketime, ⟨.periodicTimer, waketime⟩ ∈ queue →
    (s.timers .sentinelTimer).waketime = u32 (waketime + 2 ^ 31)
  dummy : s.timerList = .deletedTimer → ∃ waketime,
    (s.timers .deletedTimer).waketime = u32 waketime ∧
    (∀ entry ∈ queue, waketime ≤ entry.waketime) ∧
    ∀ periodic, ⟨.periodicTimer, periodic⟩ ∈ queue → periodic < waketime + 2 ^ 30
  lastInsert : s.lastInsert ∈ queue.map Entry.timer

section Listed

variable {s : SchedStatus count} {queue arrivals few : List (Entry count)} {entry : Entry count}

theorem Near.mono (near : Near queue) (fewer : few ⊆ queue) : Near few :=
  fun first inFirst second inSecond => near first (fewer inFirst) second (fewer inSecond)

/-- In one window wrapped times compare as the times do. -/
theorem Near.timerIsBefore (near : Near queue) {first second : Entry count} (inFirst : first ∈ queue)
    (inSecond : second ∈ queue) :
    timerIsBefore (u32 first.waketime) (u32 second.waketime) =
      decide (first.waketime < second.waketime) := by
  have close := near first inFirst second inSecond
  have close' := near second inSecond first inFirst
  exact timerIsBefore_u32 (by omega) (by omega)

open Entry

/-- An entry that arrives is near those that are listed. -/
theorem Near.of_arrivals (near : Near (arrivals ++ [entry]))
    (order : FifoOrder waketime arrivals queue) : Near (entry :: queue) := by
  apply near.mono
  intro other member
  rcases mem_cons.mp member with rfl | later
  · exact mem_append_right _ (.head _)
  · exact mem_append_left _ ((order.mem_iff other).mp later)

variable {oid : Fin count} {waketime periodic : Int}

/-- The periodic timer is not a user timer. -/
theorem periodic_mem_insert {front back : List (Entry count)} :
    ⟨.periodicTimer, periodic⟩ ∈ front ++ ⟨.user oid, waketime⟩ :: back ↔
      ⟨.periodicTimer, periodic⟩ ∈ front ++ back := by
  simp

theorem periodic_mem_cons :
    ⟨.periodicTimer, periodic⟩ ∈ (⟨.user oid, waketime⟩ :: queue : List (Entry count)) ↔
      ⟨.periodicTimer, periodic⟩ ∈ queue := by
  simp

theorem Listed.head_entry (listed : Listed s queue) (notDummy : s.timerList ≠ .deletedTimer) :
    ∃ waketime rest, queue = ⟨s.timerList, waketime⟩ :: rest := by
  have isHead := listed.spelled.reads.head
  rw [nodes_of_ne notDummy] at isHead
  obtain ⟨waketime, member⟩ := listed.periodic
  cases queue with
  | nil => cases member
  | cons entry rest =>
    have same : entry.timer = s.timerList := Option.some.inj isHead
    exact ⟨entry.waketime, rest, by rw [← same]⟩

/-- The waketime at the head is not after any other, and not far before the
periodic timer's. -/
theorem Listed.headTime (listed : Listed s queue)
    (order : FifoOrder Entry.waketime arrivals queue) (near : Near queue) :
    ∃ waketime, (s.timers s.timerList).waketime = u32 waketime ∧
      (∀ entry ∈ queue, waketime ≤ entry.waketime) ∧
      (∀ periodic, ⟨.periodicTimer, periodic⟩ ∈ queue → periodic < waketime + 2 ^ 30) ∧
      (s.timerList ≠ .deletedTimer → ⟨s.timerList, waketime⟩ ∈ queue) := by
  by_cases isDummy : s.timerList = .deletedTimer
  · obtain ⟨waketime, stored, least, recent⟩ := listed.dummy isDummy
    exact ⟨waketime, by rw [isDummy]; exact stored, least, recent, fun notDummy =>
      absurd isDummy notDummy⟩
  · obtain ⟨waketime, rest, rfl⟩ := listed.head_entry isDummy
    refine ⟨waketime, listed.spelled.waketimes _ (.head _), ?_, ?_, ?_⟩
    · intro entry member
      rcases mem_cons.mp member with rfl | later
      · exact Int.le_rfl
      · exact (pairwise_cons.mp order.sorted).1 entry later
    · intro periodic member
      have close := near _ member _ (.head _)
      simp only at close
      omega
    · exact fun _ => (.head _)

theorem filter_ne_first {t : TimerId count} (others : ∀ entry ∈ queue, entry.timer ≠ t) :
    (⟨t, waketime⟩ :: queue : List (Entry count)).filter (fun entry => entry.timer ≠ t) =
      queue := by
  rw [filter_cons_of_neg (by simp)]
  apply filter_eq_self.mpr
  intro entry member
  exact decide_eq_true (others entry member)

theorem mem_liveAfterDel :
    entry ∈ liveAfterDel oid queue ↔ entry ∈ queue ∧ entry.timer ≠ .user oid := by
  rw [liveAfterDel, mem_filter, decide_eq_true_eq]

theorem Listed.del (listed : Listed s queue) (order : FifoOrder Entry.waketime arrivals queue)
    (near : Near queue) (oid : Fin count) :
    ∃ after, schedDelTimer s (.user oid) = some after ∧ Listed after (liveAfterDel oid queue) ∧
      (s.timerList ≠ .user oid → after.timerList = s.timerList) := by
  have lastInsert : (if s.lastInsert = .user oid then .periodicTimer else s.lastInsert) ∈
      (liveAfterDel oid queue).map timer := by
    split
    · obtain ⟨waketime, member⟩ := listed.periodic
      exact mem_map.mpr ⟨_, mem_liveAfterDel.mpr ⟨member, by rintro ⟨⟩⟩, rfl⟩
    · rename_i notLast
      obtain ⟨entry, member, same⟩ := mem_map.mp listed.lastInsert
      exact mem_map.mpr ⟨entry, mem_liveAfterDel.mpr ⟨member, same ▸ notLast⟩, same⟩
  have periodic : ∃ waketime, ⟨.periodicTimer, waketime⟩ ∈ liveAfterDel oid queue := by
    obtain ⟨waketime, member⟩ := listed.periodic
    exact ⟨waketime, mem_liveAfterDel.mpr ⟨member, by rintro ⟨⟩⟩⟩
  unfold schedDelTimer
  by_cases atHead : s.timerList = .user oid
  · rw [if_pos atHead]
    refine ⟨_, rfl, ?_, fun notHead => absurd atHead notHead⟩
    obtain ⟨waketime, rest, rfl⟩ := listed.head_entry (by rw [atHead]; rintro ⟨⟩)
    have spelled := listed.spelled
    rw [atHead] at spelled periodic lastInsert ⊢
    obtain ⟨next, step, -, notDummy, popped⟩ := spelled.pop
    rw [liveAfterDel, filter_ne_first spelled.ne_first] at periodic lastInsert ⊢
    have stored := spelled.waketimes _ (.head _)
    refine ⟨?_, periodic, ?_, ?_, lastInsert⟩
    · simp only [step]
      exact popped.putDummy notDummy _
    · intro moment member
      rw [setNext_waketime, setWaketime_waketime_of_ne]
      · exact listed.sentinel moment (.tail _ member)
      · rintro ⟨⟩
    · intro _
      refine ⟨waketime, ?_, ?_, ?_⟩
      · simp only [setNext_waketime, setWaketime_waketime_self]
        exact stored
      · exact (pairwise_cons.mp order.sorted).1
      · intro moment member
        have close := near _ (.tail _ member) _ (.head _)
        simp only at close
        omega
  · rw [if_neg atHead]
    obtain ⟨timers, removes, spelled, waketimes⟩ := listed.spelled.unlink atHead
    refine ⟨{ s with timers, lastInsert := _ }, by rw [removes]; rfl, ?_, fun _ => rfl⟩
    refine ⟨spelled, periodic, ?_, ?_, lastInsert⟩
    · intro moment member
      change (timers .sentinelTimer).waketime = _
      rw [waketimes]
      exact listed.sentinel moment (mem_liveAfterDel.mp member).1
    · intro isDummy
      obtain ⟨waketime, stored, least, recent⟩ := listed.dummy isDummy
      refine ⟨waketime, ?_, ?_, ?_⟩
      · change (timers .deletedTimer).waketime = _
        rw [waketimes]
        exact stored
      · intro entry member
        exact least entry (mem_liveAfterDel.mp member).1
      · intro moment member
        exact recent moment (mem_liveAfterDel.mp member).1

theorem Listed.liveAfterReset_eq (listed : Listed s queue) :
    ∃ waketime, ⟨.periodicTimer, waketime⟩ ∈ queue ∧
      liveAfterReset queue = [⟨.periodicTimer, waketime⟩] := by
  obtain ⟨waketime, member⟩ := listed.periodic
  refine ⟨waketime, member, ?_⟩
  obtain ⟨front, back, rfl⟩ := append_of_mem member
  obtain ⟨inFront, inBack⟩ := forall_mem_append.mp listed.spelled.ne_others
  rw [liveAfterReset, filter_append, filter_cons_of_pos (by simp),
    filter_eq_nil_iff.mpr (by simpa using inFront),
    filter_eq_nil_iff.mpr (by simpa using inBack)]
  rfl

theorem Listed.reset (listed : Listed s queue) :
    Listed (schedTimerReset s) (liveAfterReset queue) := by
  obtain ⟨waketime, member, single⟩ := listed.liveAfterReset_eq
  have stored := listed.spelled.waketimes _ member
  have atEnd := listed.spelled.sentinel_next
  rw [single]
  refine ⟨⟨readsFrom_nodes rfl ?_ ?_, ?_, ?_, ?_⟩, ⟨waketime, .head _⟩, ?_, ?_, ?_⟩
  · refine isChain_cons_cons.mpr ⟨?_, isChain_cons_cons.mpr ⟨?_, .singleton _⟩⟩
    · simp [nextOf, schedTimerReset, setNext, setWaketime]
    · simp [nextOf, schedTimerReset, setNext]
  · simpa [schedTimerReset, setNext, setWaketime] using atEnd
  · simp [nodes, dummyNodes, liveNodes, schedTimerReset]
  · simp
  · intro entry inside
    rw [mem_singleton.mp inside]
    simpa [schedTimerReset, setNext, setWaketime] using stored
  · intro moment inside
    cases mem_singleton.mp inside
    simpa [schedTimerReset, setNext, setWaketime] using listed.sentinel waketime member
  · intro _
    refine ⟨waketime, ?_, ?_, ?_⟩
    · simpa [schedTimerReset, setNext, setWaketime] using stored
    · intro entry inside
      rw [mem_singleton.mp inside]
    · intro moment inside
      cases mem_singleton.mp inside
      omega
  · exact .head _

theorem liveNodes_eq_cons (queue : List (Entry count)) :
    ∃ first rest, liveNodes queue = first :: rest := by
  cases queue with
  | nil => exact ⟨_, _, rfl⟩
  | cons entry queue => exact ⟨_, _, rfl⟩

theorem exists_concat_of_mem {node : TimerId count} {list : List (TimerId count)}
    (member : node ∈ list) : ∃ ahead prev, list = ahead ++ [prev] := by
  rcases eq_nil_or_concat list with rfl | ⟨ahead, prev, rfl⟩
  · cases member
  · exact ⟨ahead, prev, concat_eq_append⟩

/-- The search finds the position behind the timers that are not later, from any
of them or of the nodes before them. -/
theorem insertTimer_position {timers : Memory count} {front back : List (Entry count)}
    {lead ahead tail : List (TimerId count)} {t start prev pos : TimerId count}
    (follows : Follows (nextOf timers) (lead ++ front.map timer ++ liveNodes back))
    (nodup : (lead ++ front.map timer ++ liveNodes back).Nodup)
    (waketimes : ∀ entry ∈ front ++ back, (timers entry.timer).waketime = u32 entry.waketime)
    (near : Near (⟨t, waketime⟩ :: (front ++ back)))
    (isPeriodic : ⟨.periodicTimer, periodic⟩ ∈
      (⟨t, waketime⟩ :: (front ++ back) : List (Entry count)))
    (sentinel : (timers .sentinelTimer).waketime = u32 (periodic + 2 ^ 31))
    (leads : ∀ node ∈ lead, timerIsBefore (u32 waketime) (timers node).waketime = false)
    (before : ∀ entry ∈ front, entry.waketime ≤ waketime)
    (after : ∀ entry ∈ back, waketime < entry.waketime)
    (upTo : lead ++ front.map timer = ahead ++ [prev]) (behind : liveNodes back = pos :: tail)
    (begins : start ∈ lead ++ front.map timer) :
    insertTimer (walkLimit count) timers start t (u32 waketime) =
      some (setNext (setNext timers t (some pos)) prev (some t)) := by
  have compare : ∀ entry ∈ front ++ back,
      timerIsBefore (u32 waketime) (timers entry.timer).waketime =
        decide (waketime < entry.waketime) := by
    intro entry member
    have compares := near.timerIsBefore (.head _) (.tail _ member)
    rw [waketimes entry member]
    exact compares
  have notBefore : ∀ node ∈ lead ++ front.map timer,
      timerIsBefore (u32 waketime) (timers node).waketime = false := by
    intro node member
    rcases mem_append.mp member with inLead | inFront
    · exact leads node inLead
    · obtain ⟨entry, inside, rfl⟩ := mem_map.mp inFront
      rw [compare entry (mem_append_left _ inside)]
      exact decide_eq_false (not_lt.mpr (before entry inside))
  -- The node at the position compares as later, even if it is the sentinel.
  have isBefore : timerIsBefore (u32 waketime) (timers pos).waketime = true := by
    cases back with
    | nil =>
      cases behind
      have close := near _ (.head _) _ isPeriodic
      have notEarly : periodic ≤ waketime := by
        rcases mem_cons.mp isPeriodic with same | inFront
        · cases same
          exact Int.le_rfl
        · rw [append_nil] at inFront
          exact before _ inFront
      simp only at close
      rw [sentinel, timerIsBefore_u32 (by omega) (by omega)]
      exact decide_eq_true (by omega)
    | cons entry back =>
      cases behind
      rw [compare entry (mem_append_right _ (.head _))]
      exact decide_eq_true (after entry (.head _))
  rw [upTo] at begins notBefore
  rw [upTo, behind, append_assoc] at follows nodup
  exact insertTimer_between follows nodup begins notBefore isBefore

theorem Listed.addFirst (listed : Listed s queue) (fresh : ∀ entry ∈ queue, entry.timer ≠ .user oid)
    (stored : (s.timers (.user oid)).waketime = u32 waketime)
    (near : Near (⟨.user oid, waketime⟩ :: queue))
    (before : ∀ entry ∈ queue, waketime < entry.waketime) :
    let next := if s.timerList = .deletedTimer then (s.timers .deletedTimer).next
      else some s.timerList
    Listed { s with
      timers := setNext (setWaketime (setNext s.timers (.user oid) next) .deletedTimer
        (u32 waketime)) .deletedTimer (some (.user oid))
      timerList := .deletedTimer } (⟨.user oid, waketime⟩ :: queue) := by
  intro next
  have notListed : TimerId.user oid ∉ liveNodes queue :=
    fun member => not_mem_nodes s.timerList fresh (mem_append_right _ member)
  refine ⟨?_, ?_, ?_, ?_, ?_⟩
  · exact listed.spelled.push ⟨.user oid, waketime⟩ notListed nofun
      stored (u32 waketime)
  · obtain ⟨moment, member⟩ := listed.periodic
    exact ⟨moment, .tail _ member⟩
  · intro moment member
    rw [setNext_waketime, setWaketime_waketime_of_ne, setNext_waketime]
    · exact listed.sentinel moment (periodic_mem_cons.mp member)
    · exact nofun
  · intro _
    refine ⟨waketime, ?_, ?_, ?_⟩
    · rw [setNext_waketime, setWaketime_waketime_self]
    · refine forall_mem_cons.mpr ⟨Int.le_rfl, ?_⟩
      exact fun entry member => (before entry member).le
    · intro moment member
      have close := near _ member _ (.head _)
      simp only at close
      omega
  · exact .tail _ listed.lastInsert

theorem Listed.linkBehind {front back : List (Entry count)} (listed : Listed s (front ++ back))
    {first : Int} (fresh : ∀ entry ∈ front ++ back, entry.timer ≠ .user oid)
    (stored : (s.timers (.user oid)).waketime = u32 waketime)
    (isFirst : (s.timers s.timerList).waketime = u32 first) (notEarly : first ≤ waketime)
    (least : ∀ entry ∈ front ++ back, first ≤ entry.waketime)
    (recent : ∀ periodic, ⟨.periodicTimer, periodic⟩ ∈ front ++ back → periodic < first + 2 ^ 30)
    {ahead tail : List (TimerId count)} {prev pos : TimerId count}
    (upTo : dummyNodes s.timerList ++ front.map timer = ahead ++ [prev])
    (behind : liveNodes back = pos :: tail) :
    Listed { s with
      timers := setNext (setNext s.timers (.user oid) (some pos)) prev (some (.user oid)) }
      (front ++ ⟨.user oid, waketime⟩ :: back) := by
  have grown : (front ++ back).Sublist (front ++ ⟨.user oid, waketime⟩ :: back) :=
    (sublist_cons_self _ _).append_left _
  refine ⟨?_, ?_, ?_, ?_, ?_⟩
  · exact listed.spelled.link ⟨.user oid, waketime⟩ (not_mem_nodes s.timerList fresh)
      nofun stored upTo behind
  · obtain ⟨moment, member⟩ := listed.periodic
    exact ⟨moment, grown.subset member⟩
  · intro moment member
    rw [setNext_waketime, setNext_waketime]
    exact listed.sentinel moment (periodic_mem_insert.mp member)
  · intro isDummy
    refine ⟨first, ?_, forall_mem_insert least notEarly, ?_⟩
    · rw [setNext_waketime, setNext_waketime, ← isDummy]
      exact isFirst
    · exact fun moment member => recent moment (periodic_mem_insert.mp member)
  · exact (grown.map timer).subset listed.lastInsert

theorem Listed.add (listed : Listed s queue) (order : FifoOrder Entry.waketime arrivals queue)
    (fresh : ∀ entry ∈ queue, entry.timer ≠ .user oid)
    (stored : (s.timers (.user oid)).waketime = u32 waketime)
    (near : Near (⟨.user oid, waketime⟩ :: queue)) (now : Int) :
    schedAddTimer s now (.user oid) = some (runShutdown s, false) ∨
      ∃ after queue', schedAddTimer s now (.user oid) = some (after, true) ∧
        Listed after queue' ∧
        FifoOrder Entry.waketime (arrivals ++ [⟨.user oid, waketime⟩]) queue' := by
  have nearQueue : Near queue := near.mono (subset_cons_self _ _)
  obtain ⟨first, isFirst, least, recent, atHead⟩ := listed.headTime order nearQueue
  obtain ⟨periodic, isPeriodic⟩ := listed.periodic
  have close := near _ (.head _) _ (.tail _ isPeriodic)
  have close' := near _ (.tail _ isPeriodic) _ (.head _)
  have notLate := least _ isPeriodic
  have notFar := recent _ isPeriodic
  simp only at close close' notLate
  have compare : timerIsBefore (u32 waketime) (s.timers s.timerList).waketime =
      decide (waketime < first) := by
    rw [isFirst, timerIsBefore_u32 (by omega) (by omega)]
  unfold schedAddTimer
  simp only [stored, compare, decide_eq_true_eq]
  by_cases early : waketime < first
  · rw [if_pos early]
    split
    · left
      rfl
    · right
      have before : ∀ entry ∈ queue, waketime < entry.waketime :=
        fun entry member => early.trans_le (least entry member)
      exact ⟨_, _, rfl, listed.addFirst fresh stored near before,
        FifoOrder.insert [] order (by simp) before⟩
  · right
    rw [if_neg early]
    obtain ⟨front, back, rfl, before, after⟩ := order.split waketime
    -- The head is not later than the timer, so the position is behind it.
    have headAhead : s.timerList ∈ dummyNodes s.timerList ++ front.map timer := by
      by_cases isDummy : s.timerList = .deletedTimer
      · rw [dummyNodes, if_pos isDummy, isDummy]
        exact mem_append_left _ (.head _)
      · apply mem_append_right
        rcases mem_append.mp (atHead isDummy) with inFront | inBack
        · exact mem_map.mpr ⟨_, inFront, rfl⟩
        · exact absurd (after _ inBack) early
    have leads : ∀ node ∈ dummyNodes s.timerList,
        timerIsBefore (u32 waketime) (s.timers node).waketime = false := by
      intro node isDummy
      rw [dummyNodes] at isDummy
      split at isDummy
      · rename_i same
        rw [mem_singleton.mp isDummy, ← same, compare]
        exact decide_eq_false early
      · cases isDummy
    obtain ⟨pos, tail, behind⟩ := liveNodes_eq_cons back
    obtain ⟨ahead, prev, upTo⟩ := exists_concat_of_mem headAhead
    have spelled := listed.spelled
    rw [insertTimer_position (nodes_append _ _ _ ▸ spelled.reads.follows)
      (nodes_append _ _ _ ▸ spelled.nodup) spelled.waketimes near
      (.tail _ isPeriodic) (listed.sentinel periodic isPeriodic) leads before after
      upTo behind headAhead]
    exact ⟨_, _, rfl, listed.linkBehind fresh stored isFirst (not_lt.mp early) least recent upTo
      behind, FifoOrder.insert front order before after⟩

end Listed

end MagnetoX.Mcu.Sched
