import MagnetoX.Mcu.Sched.Listed

/-!
Owns `sched_timer_dispatch`: the callbacks, the update of the list behind them,
and that the cached insertion point makes no difference.
-/

namespace MagnetoX.Mcu.Sched

open Library Library.Word List

variable {count : Nat}

section Dispatch

variable {s : SchedStatus count} {queue arrivals : List (Entry count)}

theorem updateTimerList_done {t next : TimerId count} (step : (s.timers t).next = some next)
    (start : SchedStatus count → Int → TimerId count) :
    updateTimerList start t s .done =
      some ({ s with
        timerList := next
        lastInsert := if s.lastInsert = t then next else s.lastInsert },
        (s.timers next).waketime) := by
  rw [updateTimerList, step]

theorem updateTimerList_stay {t next : TimerId count} (step : (s.timers t).next = some next)
    (before : timerIsBefore (s.timers t).waketime (s.timers next).waketime = true)
    (start : SchedStatus count → Int → TimerId count) :
    updateTimerList start t s .reschedule = some (s, (s.timers t).waketime) := by
  rw [updateTimerList, step]
  simp only [before]
  rfl

theorem updateTimerList_insert {t next : TimerId count} (step : (s.timers t).next = some next)
    (notBefore : timerIsBefore (s.timers t).waketime (s.timers next).waketime = false)
    (start : SchedStatus count → Int → TimerId count) {timers : Memory count}
    (inserts : insertTimer (walkLimit count) s.timers
      (start { s with timerList := next } (s.timers t).waketime) t (s.timers t).waketime =
        some timers) :
    updateTimerList start t s .reschedule =
      some ({ s with timers, timerList := next, lastInsert := t }, (s.timers next).waketime) := by
  rw [updateTimerList, step]
  simp only [notBefore, inserts]
  rfl

variable {waketime old : Int} {oid : Fin count}

open Entry

theorem Listed.done (listed : Listed s (⟨.user oid, waketime⟩ :: queue))
    (atHead : s.timerList = .user oid) :
    ∃ after next, (∀ start, updateTimerList start (.user oid) s .done = some (after, next)) ∧
      Listed after queue := by
  have spelled := listed.spelled
  rw [atHead] at spelled
  obtain ⟨next, step, isFirst, notDummy, popped⟩ := spelled.pop
  obtain ⟨periodic, isPeriodic⟩ := listed.periodic
  have stays := periodic_mem_cons.mp isPeriodic
  refine ⟨_, _, updateTimerList_done step, popped, ⟨periodic, stays⟩, ?_, ?_, ?_⟩
  · exact fun moment member => listed.sentinel moment (.tail _ member)
  · exact fun isDummy => absurd isDummy notDummy
  · -- The periodic timer is behind, so the next node is not the sentinel.
    have inQueue : next ∈ queue.map timer := by
      cases queue with
      | nil => cases stays
      | cons entry queue =>
        cases isFirst
        exact .head _
    split
    · exact inQueue
    · rename_i notLast
      rcases mem_cons.mp listed.lastInsert with same | later
      · exact absurd same notLast
      · exact later

theorem Listed.doneDummy (listed : Listed s queue) (isDummy : s.timerList = .deletedTimer) :
    ∃ after next, (∀ start, updateTimerList start .deletedTimer s .done = some (after, next)) ∧
      Listed after queue := by
  have spelled := listed.spelled
  rw [isDummy] at spelled
  obtain ⟨next, step, notDummy, popped⟩ := spelled.popDummy
  have notLast : s.lastInsert ≠ .deletedTimer := by
    obtain ⟨entry, member, same⟩ := mem_map.mp listed.lastInsert
    rw [← same]
    exact listed.spelled.live entry member
  refine ⟨_, _, updateTimerList_done step, popped, listed.periodic, listed.sentinel, ?_, ?_⟩
  · exact fun same => absurd same notDummy
  · dsimp only
    rw [if_neg notLast]
    exact listed.lastInsert

/-- The timer behind the dispatched one is later than its new waketime exactly
if all are. -/
theorem Listed.compare_next {t next : TimerId count} (listed : Listed s (⟨t, waketime⟩ :: queue))
    (order : FifoOrder Entry.waketime arrivals queue) (near : Near (⟨t, waketime⟩ :: queue))
    (isFirst : (liveNodes queue).head? = some next) :
    (timerIsBefore (u32 waketime) (s.timers next).waketime = true ∧
        ∀ entry ∈ queue, waketime < entry.waketime) ∨
      (timerIsBefore (u32 waketime) (s.timers next).waketime = false ∧
        ∃ entry ∈ queue, entry.timer = next ∧ entry.waketime ≤ waketime) := by
  cases queue with
  | nil =>
    left
    obtain ⟨periodic, isPeriodic⟩ := listed.periodic
    have sentinel := listed.sentinel periodic isPeriodic
    cases isFirst
    cases mem_singleton.mp isPeriodic
    refine ⟨?_, by simp⟩
    rw [sentinel, timerIsBefore_u32 (by omega) (by omega)]
    exact decide_eq_true (by omega)
  | cons entry queue =>
    cases isFirst
    have compare := near.timerIsBefore (.head _)
      (.tail _ (.head _))
    rw [listed.spelled.waketimes entry (.tail _ (.head _)), compare]
    by_cases early : waketime < entry.waketime
    · left
      refine ⟨decide_eq_true early, forall_mem_cons.mpr ⟨early, ?_⟩⟩
      exact fun other member =>
        early.trans_le ((pairwise_cons.mp order.sorted).1 other member)
    · right
      exact ⟨decide_eq_false early, entry, .head _, rfl, not_lt.mp early⟩

/-- The cached insertion point is the dispatched timer, or a listed one that is
not later than its new waketime. -/
theorem Listed.insertionPoint_mem {t next : TimerId count} {front back : List (Entry count)}
    (listed : Listed s (⟨t, waketime⟩ :: (front ++ back)))
    (near : Near (⟨t, waketime⟩ :: (front ++ back)))
    (after : ∀ entry ∈ back, waketime < entry.waketime) (isNext : next ∈ front.map timer) :
    insertionPoint { s with timerList := next } (u32 waketime) ∈
      [t] ++ front.map timer := by
  unfold insertionPoint
  split
  · exact mem_append_right _ isNext
  · rename_i notBefore
    change s.lastInsert ∈ [t] ++ front.map timer
    obtain ⟨entry, member, same⟩ := mem_map.mp listed.lastInsert
    rw [← same] at notBefore ⊢
    rcases mem_cons.mp member with rfl | inQueue
    · exact .head _
    · apply mem_append_right
      rcases mem_append.mp inQueue with inFront | inBack
      · exact mem_map_of_mem inFront
      · rw [listed.spelled.waketimes entry member, near.timerIsBefore (.head _) member,
          decide_eq_true_eq] at notBefore
        exact absurd (after entry inBack) notBefore

/-- The dispatched timer is linked in again, behind the one that comes next. -/
theorem Listed.relink {t next : TimerId count} {front back : List (Entry count)}
    (listed : Listed s (⟨t, waketime⟩ :: (front ++ back))) (atHead : s.timerList = t)
    (popped : Spelled s.timers next (front ++ back)) (notDummy : next ≠ .deletedTimer)
    {ahead tail : List (TimerId count)} {prev pos : TimerId count}
    (upTo : front.map timer = ahead ++ [prev]) (behind : liveNodes back = pos :: tail) :
    Listed { s with
      timers := setNext (setNext s.timers t (some pos)) prev (some t)
      timerList := next
      lastInsert := t } (front ++ ⟨t, waketime⟩ :: back) := by
  have spelled := listed.spelled
  rw [atHead] at spelled
  have live : t ≠ .deletedTimer := spelled.live _ (.head _)
  have same : ∀ entry, entry ∈ front ++ ⟨t, waketime⟩ :: back ↔
      entry ∈ (⟨t, waketime⟩ :: (front ++ back) : List (Entry count)) := by
    intro entry
    simp only [mem_append, mem_cons]
    tauto
  refine ⟨?_, ?_, ?_, fun isDummy => absurd isDummy notDummy, ?_⟩
  · have upToPrev : dummyNodes next ++ front.map timer = ahead ++ [prev] := by
      rw [dummyNodes_of_ne notDummy]
      exact upTo
    apply popped.link ⟨t, waketime⟩ ?_ live (spelled.waketimes _ (.head _)) upToPrev behind
    rw [nodes_of_ne notDummy]
    exact (nodup_cons.mp spelled.live_nodup).1
  · obtain ⟨periodic, isPeriodic⟩ := listed.periodic
    exact ⟨periodic, (same _).mpr isPeriodic⟩
  · intro periodic isPeriodic
    rw [setNext_waketime, setNext_waketime]
    exact listed.sentinel periodic ((same _).mp isPeriodic)
  · exact mem_map.mpr ⟨⟨t, waketime⟩, (same _).mpr (.head _), rfl⟩

/-- **Rescheduling.** The dispatched timer goes behind those that are not later,
and the search from `last_insert` ends where the search from the head does. -/
theorem Listed.reschedule {t : TimerId count} (listed : Listed s (⟨t, waketime⟩ :: queue))
    (atHead : s.timerList = t) (order : FifoOrder Entry.waketime arrivals queue)
    (near : Near (⟨t, waketime⟩ :: queue)) :
    ∃ after next queue', Listed after queue' ∧
      FifoOrder Entry.waketime (arrivals ++ [⟨t, waketime⟩]) queue' ∧
      updateTimerList insertionPoint t s .reschedule = some (after, next) ∧
      updateTimerList (fun s _ => s.timerList) t s .reschedule = some (after, next) := by
  have spelled := listed.spelled
  rw [atHead] at spelled
  obtain ⟨next, step, isFirst, notDummy, popped⟩ := spelled.pop
  have stored : (s.timers t).waketime = u32 waketime := spelled.waketimes _ (.head _)
  rcases listed.compare_next order near isFirst with ⟨before, early⟩ | ⟨notBefore, first⟩
  · rw [← stored] at before
    exact ⟨s, _, _, listed, FifoOrder.insert [] order (by simp) early,
      updateTimerList_stay step before _, updateTimerList_stay step before _⟩
  · obtain ⟨front, back, rfl, before, after⟩ := order.split waketime
    have isNext : next ∈ front.map timer := by
      obtain ⟨entry, member, rfl, notLate⟩ := first
      rcases mem_append.mp member with inFront | inBack
      · exact mem_map_of_mem inFront
      · exact absurd (after entry inBack) (not_lt.mpr notLate)
    obtain ⟨periodic, isPeriodic⟩ := listed.periodic
    obtain ⟨pos, tail, behind⟩ := liveNodes_eq_cons back
    obtain ⟨ahead, prev, upTo⟩ := exists_concat_of_mem isNext
    have leads : ∀ node ∈ [t], timerIsBefore (u32 waketime) (s.timers node).waketime = false := by
      intro node member
      rw [mem_singleton.mp member, stored, timerIsBefore_u32 (by omega) (by omega)]
      exact decide_eq_false (lt_irrefl _)
    have whole : nodes t (⟨t, waketime⟩ :: (front ++ back)) =
        [t] ++ front.map timer ++ liveNodes back := by
      have live : t ≠ .deletedTimer := spelled.live _ (.head _)
      rw [← cons_append, nodes_append, dummyNodes_of_ne live]
      rfl
    have follows := spelled.reads.follows
    have nodup := spelled.nodup
    rw [whole] at follows nodup
    have inserts : ∀ start ∈ [t] ++ front.map timer,
        insertTimer (walkLimit count) s.timers start t (u32 waketime) =
          some (setNext (setNext s.timers t (some pos)) prev (some t)) := by
      intro start begins
      have upTo' : [t] ++ front.map timer = (t :: ahead) ++ [prev] := by
        rw [upTo]
        rfl
      exact insertTimer_position follows nodup
        (forall_mem_cons.mp spelled.waketimes).2 near isPeriodic
        (listed.sentinel periodic isPeriodic) leads before after upTo' behind begins
    rw [← stored] at notBefore
    have cached := inserts _ (listed.insertionPoint_mem near after isNext)
    have fromHead := inserts next (mem_append_right _ isNext)
    rw [← stored] at cached fromHead
    exact ⟨_, _, _, listed.relink atHead popped notDummy upTo behind,
      FifoOrder.insert front order before after,
      updateTimerList_insert step notBefore _ cached,
      updateTimerList_insert step notBefore _ fromHead⟩

theorem Listed.delAll (listed : Listed s queue) (order : FifoOrder Entry.waketime arrivals queue)
    (near : Near queue) {deletes : List (Fin count)}
    (others : ∀ del ∈ deletes, s.timerList ≠ .user del) :
    ∃ after, deletes.foldlM (fun s del => schedDelTimer s (.user del)) s = some after ∧
      after.timerList = s.timerList ∧
      Listed after (deletes.foldl (fun live del => liveAfterDel del live) queue) ∧
      FifoOrder Entry.waketime (deletes.foldl (fun live del => liveAfterDel del live) arrivals)
        (deletes.foldl (fun live del => liveAfterDel del live) queue) := by
  induction deletes generalizing s queue arrivals with
  | nil => exact ⟨s, rfl, rfl, listed, order⟩
  | cons del deletes ih =>
    obtain ⟨middle, deleted, listedMiddle, sameHead⟩ := listed.del order near del
    have head := sameHead (others del (.head _))
    have rest : ∀ other ∈ deletes, middle.timerList ≠ .user other := by
      rw [head]
      exact fun other member => others other (.tail _ member)
    obtain ⟨after, runs, headAfter, result⟩ := ih listedMiddle (order.filter _)
      (near.mono (filter_sublist.subset)) rest
    refine ⟨after, ?_, headAfter.trans head, result⟩
    rw [foldlM_cons, deleted]
    exact runs

theorem Listed.setHead
    (listed : Listed s (⟨.user oid, old⟩ :: queue)) (atHead : s.timerList = .user oid)
    (waketime : Int) :
    Listed { s with timers := setWaketime s.timers (.user oid) (u32 waketime) }
      (⟨.user oid, waketime⟩ :: queue) := by
  have others := listed.spelled.ne_first
  refine ⟨?_, ?_, ?_, ?_, listed.lastInsert⟩
  · apply listed.spelled.setFirst (setWaketime_next _ _ _) (setWaketime_waketime_self _ _ _)
    exact fun entry member => setWaketime_waketime_of_ne _ _ (others entry member)
  · obtain ⟨periodic, isPeriodic⟩ := listed.periodic
    exact ⟨periodic, periodic_mem_cons.mpr (periodic_mem_cons.mp isPeriodic)⟩
  · intro periodic isPeriodic
    rw [setWaketime_waketime_of_ne]
    · exact listed.sentinel periodic (periodic_mem_cons.mpr (periodic_mem_cons.mp isPeriodic))
    · exact nofun
  · intro isDummy
    rw [atHead] at isDummy
    cases isDummy

/-- The periodic timer moves, and the sentinel with it. -/
theorem Listed.periodicEvent (listed : Listed s (⟨.periodicTimer, old⟩ :: queue))
    (atHead : s.timerList = .periodicTimer) (clockFreq : Nat) :
    Listed (periodicEvent clockFreq s)
      (⟨.periodicTimer, old + timerFromUs clockFreq 100000⟩ :: queue) := by
  have spelled := listed.spelled
  have others := spelled.ne_first
  have stored : (s.timers .periodicTimer).waketime = u32 old :=
    spelled.waketimes _ (.head _)
  have own : u32 (u32 old + timerFromUs clockFreq 100000) =
      u32 (old + timerFromUs clockFreq 100000) := by
    simp only [u32, unsigned]
    omega
  refine ⟨spelled.setFirst ?_ ?_ ?_, ⟨_, .head _⟩, ?_, ?_, listed.lastInsert⟩
  · intro node
    simp only [Sched.periodicEvent, setWaketime_next]
  · simp only [Sched.periodicEvent]
    rw [setWaketime_waketime_of_ne, setWaketime_waketime_self, stored, own]
    rintro ⟨⟩
  · intro entry member
    simp only [Sched.periodicEvent]
    rw [setWaketime_waketime_of_ne _ _ (spelled.ne_sentinel (.tail _ member)),
      setWaketime_waketime_of_ne _ _ (others entry member)]
  · intro periodic isPeriodic
    rcases mem_cons.mp isPeriodic with same | later
    · cases same
      simp only [Sched.periodicEvent, setWaketime_waketime_self, stored]
      simp only [u32, unsigned]
      omega
    · exact absurd rfl (others ⟨.periodicTimer, periodic⟩ later)
  · intro isDummy
    change s.timerList = _ at isDummy
    rw [atHead] at isDummy
    cases isDummy

theorem Listed.dispatch (listed : Listed s queue) (order : FifoOrder Entry.waketime arrivals queue)
    (near : Near queue) (clockFreq : Nat) {callback : Callback count}
    (others : ∀ del ∈ callback.deletes, s.timerList ≠ .user del)
    (nearAfter : Near (liveAfterDispatch clockFreq s.timerList callback arrivals)) :
    ∃ after next queue', schedTimerDispatch clockFreq s callback = some (after, next) ∧
      dispatchFromHead clockFreq s callback = some (after, next) ∧ Listed after queue' ∧
      FifoOrder Entry.waketime (liveAfterDispatch clockFreq s.timerList callback arrivals)
        queue' := by
  unfold schedTimerDispatch dispatchFromHead invoke
  cases head : s.timerList with
  | periodicTimer =>
    obtain ⟨old, rest, rfl⟩ := listed.head_entry (by rw [head]; rintro ⟨⟩)
    rw [head] at listed order near nearAfter
    have others := listed.spelled.ne_first
    -- The only live entry of the periodic timer is the one at the head.
    have single : liveAfterReset arrivals = [⟨.periodicTimer, old⟩] := by
      obtain ⟨waketime, member, alone⟩ := listed.liveAfterReset_eq
      rcases mem_cons.mp member with same | later
      · cases same
        have ordered : FifoOrder waketime (liveAfterReset arrivals) _ := order.filter _
        rw [← liveAfterReset, alone] at ordered
        exact ordered.arrivals_eq_singleton
      · exact absurd rfl (others ⟨.periodicTimer, waketime⟩ later)
    have orderRest := order.filter (fun entry => entry.timer ≠ .periodicTimer)
    rw [filter_ne_first others] at orderRest
    rw [liveAfterDispatch, single] at nearAfter ⊢
    obtain ⟨after, next, queue', listedAfter, orderAfter, cached, fromHead⟩ :=
      (listed.periodicEvent head clockFreq).reschedule head orderRest
        (nearAfter.of_arrivals orderRest)
    exact ⟨after, next, queue', cached, fromHead, listedAfter, orderAfter⟩
  | sentinelTimer =>
    obtain ⟨waketime, rest, rfl⟩ := listed.head_entry (by rw [head]; rintro ⟨⟩)
    exact absurd head (listed.spelled.ne_sentinel (.head _))
  | deletedTimer =>
    obtain ⟨after, next, updates, listedAfter⟩ := listed.doneDummy head
    exact ⟨after, next, queue, updates insertionPoint, updates (fun s _ => s.timerList),
      listedAfter, order⟩
  | user oid =>
    obtain ⟨middle, deletes, sameHead, listedMiddle, orderMiddle⟩ := listed.delAll order near others
    rw [head] at sameHead
    obtain ⟨old, rest, isRest⟩ :=
      listedMiddle.head_entry (by rw [sameHead]; rintro ⟨⟩)
    rw [sameHead] at isRest
    rw [isRest] at listedMiddle orderMiddle
    have orderRest := orderMiddle.filter (fun entry => entry.timer ≠ .user oid)
    rw [filter_ne_first listedMiddle.spelled.ne_first] at orderRest
    have called := listedMiddle.setHead sameHead callback.waketime
    rw [deletes]
    rw [head, liveAfterDispatch] at nearAfter
    rw [liveAfterDispatch]
    cases result : callback.result with
    | done =>
      obtain ⟨after, next, updates, listedAfter⟩ := called.done sameHead
      exact ⟨after, next, rest, updates insertionPoint, updates (fun s _ => s.timerList),
        listedAfter, orderRest⟩
    | reschedule =>
      rw [result] at nearAfter
      obtain ⟨after, next, queue', listedAfter, orderAfter, cached, fromHead⟩ :=
        called.reschedule sameHead orderRest (nearAfter.of_arrivals orderRest)
      exact ⟨after, next, queue', cached, fromHead, listedAfter, orderAfter⟩

end Dispatch

end MagnetoX.Mcu.Sched
