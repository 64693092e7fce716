import MagnetoX.Host.Trdispatch.Model

/-!
Owns the timeouts of a homing move. The new expiry of a micro-controller comes from
the slowest of the others, through clock estimates that change between reports, and
may lie before the one it has. The guard is then a comparison of a difference that
wrapped around.
-/

namespace MagnetoX.Homing

open Library Message List

section Guard

variable (tdm : TrdispatchMcu) (expire : UInt64)

/-- The cast to `int64_t` has no effect. -/
theorem isExtended_iff : tdm.isExtended expire = true ↔ tdm.minExtendTicks ≤ expire - tdm.expireClock := by
  rw [TrdispatchMcu.isExtended, decide_eq_true_iff, UInt64.toUInt64_toInt64]

/-- The new expiry lies before the old one, by so much that it passes for an
extension: not by nearly `2^64`. -/
def TrdispatchMcu.FallsBack : Prop :=
  expire.toNat < tdm.expireClock.toNat ∧
    tdm.minExtendTicks.toNat + (tdm.expireClock.toNat - expire.toNat) ≤ 2 ^ 64

theorem fallsBack_iff : tdm.FallsBack expire ↔ expire < tdm.expireClock ∧ tdm.isExtended expire = true := by
  rw [TrdispatchMcu.FallsBack, isExtended_iff, UInt64.lt_iff_toNat_lt, UInt64.le_iff_toNat_le, UInt64.toNat_sub]
  have bound := tdm.expireClock.toNat_lt
  refine and_congr_right (fun before => ?_)
  omega

end Guard

structure Limits where
  expireClock : UInt64
  minExtendTicks : UInt64
deriving DecidableEq, Repr

def TrdispatchMcu.limits (tdm : TrdispatchMcu) : Limits := ⟨tdm.expireClock, tdm.minExtendTicks⟩

def Trdispatch.limits (td : Trdispatch) : List Limits := td.tdmList.map TrdispatchMcu.limits

def Limits.ExtendedTo (before after : Limits) : Prop :=
  before.expireClock.toNat + before.minExtendTicks.toNat ≤ after.expireClock.toNat

variable {found : Minima ℚ} {tdm : TrdispatchMcu} {place : Nat}

theorem setTimeout_back (fallsBack : tdm.FallsBack (tdm.expire found place)) :
    (setTimeout found place tdm).1.expireClock < tdm.expireClock := by
  obtain ⟨back, isExtended⟩ := (fallsBack_iff _ _).mp fallsBack
  rw [setTimeout, if_pos isExtended]
  exact back

theorem setTimeout_forward (notBack : ¬ tdm.FallsBack (tdm.expire found place)) :
    tdm.expireClock ≤ (setTimeout found place tdm).1.expireClock ∧
      ((setTimeout found place tdm).2 ≠ [] → tdm.limits.ExtendedTo (setTimeout found place tdm).1.limits) := by
  unfold setTimeout
  split
  case isFalse notExtended => exact ⟨UInt64.le_rfl, fun sent => absurd rfl sent⟩
  case isTrue isExtended =>
    have later : tdm.expireClock ≤ tdm.expire found place :=
      UInt64.not_lt.mp (fun back => notBack ((fallsBack_iff _ _).mpr ⟨back, isExtended⟩))
    refine ⟨later, fun _ => ?_⟩
    have enough := UInt64.le_iff_toNat_le.mp ((isExtended_iff _ _).mp isExtended)
    rw [UInt64.toNat_sub_of_le _ _ later] at enough
    have order := UInt64.le_iff_toNat_le.mp later
    change tdm.expireClock.toNat + tdm.minExtendTicks.toNat ≤ (tdm.expire found place).toNat
    omega

/-- No expiry is moved back, and only a micro-controller with a long enough extension
is sent its timeout. -/
structure Forward (before after : List Limits) (sent : List Sent) : Prop where
  clocks : ∀ (place : Nat) (first : Limits), before[place]? = some first → ∃ last : Limits,
    after[place]? = some last ∧ first.expireClock ≤ last.expireClock
  timeouts : ∀ message ∈ sent, message.kind = .setTimeout → ∃ first last : Limits,
    before[message.place]? = some first ∧ after[message.place]? = some last ∧ first.ExtendedTo last

theorem Forward.same {before : List Limits} {sent : List Sent}
    (quiet : ∀ message ∈ sent, message.kind ≠ .setTimeout) : Forward before before sent :=
  ⟨fun _ first isFirst => ⟨first, isFirst, UInt64.le_rfl⟩,
    fun message isSent isTimeout => absurd isTimeout (quiet message isSent)⟩

theorem setTimeouts_limits (found : Minima ℚ) (tdmList : List TrdispatchMcu) (place : Nat) :
    ((setTimeouts found tdmList).1.map TrdispatchMcu.limits)[place]? =
      (tdmList[place]?).map (fun tdm => (setTimeout found place tdm).1.limits) := by
  rw [setTimeouts, getElem?_map, getElem?_mapIdx, Option.map_map]
  rfl

theorem mem_setTimeouts {tdmList : List TrdispatchMcu} {message : Sent} :
    message ∈ (setTimeouts found tdmList).2 ↔
      ∃ tdm, tdmList[message.place]? = some tdm ∧ message ∈ (setTimeout found message.place tdm).2 := by
  rw [setTimeouts, mem_flatten]
  constructor
  · rintro ⟨messages, isEntry, isMessage⟩
    obtain ⟨place, inside, rfl⟩ := mem_mapIdx.mp isEntry
    have isPlace : message.place = place := by
      unfold setTimeout at isMessage
      split at isMessage
      · rw [mem_singleton.mp isMessage]
        rfl
      · cases isMessage
    rw [isPlace]
    exact ⟨_, getElem?_eq_getElem inside, isMessage⟩
  · rintro ⟨tdm, isPlace, isMessage⟩
    obtain ⟨inside, rfl⟩ := List.getElem?_eq_some_iff.mp isPlace
    exact ⟨_, mem_mapIdx.mpr ⟨message.place, inside, rfl⟩, isMessage⟩

theorem setTimeouts_forward_iff (found : Minima ℚ) (tdmList : List TrdispatchMcu) :
    Forward (tdmList.map TrdispatchMcu.limits) ((setTimeouts found tdmList).1.map TrdispatchMcu.limits)
        (setTimeouts found tdmList).2 ↔
      ∀ (place : Nat) (tdm : TrdispatchMcu), tdmList[place]? = some tdm →
        ¬ tdm.FallsBack (tdm.expire found place) := by
  have isBefore : ∀ {place : Nat} {tdm : TrdispatchMcu}, tdmList[place]? = some tdm →
      (tdmList.map TrdispatchMcu.limits)[place]? = some tdm.limits := by
    intro place tdm isPlace
    rw [getElem?_map, isPlace, Option.map_some]
  have isAfter : ∀ {place : Nat} {tdm : TrdispatchMcu}, tdmList[place]? = some tdm →
      ((setTimeouts found tdmList).1.map TrdispatchMcu.limits)[place]? =
        some (setTimeout found place tdm).1.limits := by
    intro place tdm isPlace
    rw [setTimeouts_limits, isPlace, Option.map_some]
  constructor
  · intro forward place tdm isPlace fallsBack
    obtain ⟨last, isLast, later⟩ := forward.clocks place _ (isBefore isPlace)
    rw [isAfter isPlace] at isLast
    cases isLast
    exact absurd later (UInt64.not_le.mpr (setTimeout_back fallsBack))
  · intro onTime
    constructor
    · intro place first isFirst
      rw [getElem?_map] at isFirst
      obtain ⟨tdm, isPlace, rfl⟩ := Option.map_eq_some_iff.mp isFirst
      exact ⟨_, isAfter isPlace, (setTimeout_forward (onTime place tdm isPlace)).1⟩
    · intro message isMessage isTimeout
      obtain ⟨tdm, isPlace, isSent⟩ := mem_setTimeouts.mp isMessage
      exact ⟨_, _, isBefore isPlace, isAfter isPlace,
        (setTimeout_forward (onTime _ tdm isPlace)).2 (ne_nil_of_mem isSent)⟩

section Report

variable (td : Trdispatch) (place : Nat) (clock : UInt32)

/-- When each micro-controller has been heard of, if the one at `place` reports
`clock`: for that one by the latest estimate of its serial queue. -/
def Trdispatch.heard : List ℚ :=
  td.tdmList.mapIdx (fun i tdm =>
    if i = place then tdm.sqCe.clockToTime (tdm.sqCe.clockFromClock32 clock)
    else tdm.ce.clockToTime tdm.lastStatusClock)

/-- The least of the times at the other places, or the own one if none of them is
before never. -/
def slowestOther (times : List ℚ) (place : Nat) : ℚ :=
  let slowest := (times.eraseIdx place).foldr min PR_NEVER
  if slowest = PR_NEVER then min PR_NEVER (times.getD place PR_NEVER) else slowest

/-- The clock `expire_ticks` after this time, by the estimate in force at `other`
when the one at `place` reports. -/
def TrdispatchMcu.expiryFrom (tdm : TrdispatchMcu) (place other : Nat) (time : ℚ) : UInt64 :=
  (if other = place then tdm.sqCe else tdm.ce).clockFromTime time + tdm.expireTicks

/-- The pass over all micro-controllers finds the least time of the others. -/
theorem minimumTimes_leastOther {tdmList : List TrdispatchMcu} {place : Nat} (inside : place < tdmList.length) :
    (minimumTimes tdmList).leastOther place = slowestOther (tdmList.map TrdispatchMcu.statusTime) place := by
  have finds := (Minima.finds_start PR_NEVER).scan (tdmList.map TrdispatchMcu.statusTime)
  rw [nil_append, length_nil] at finds
  rw [← length_map TrdispatchMcu.statusTime] at inside
  have isOwn := getElem?_eq_getElem inside
  rw [minimumTimes, slowestOther, ← finds.leastOther_eq place, List.getD_eq_getElem?_getD, isOwn, Option.getD_some]
  generalize Minima.scan 0 (tdmList.map TrdispatchMcu.statusTime) (.start PR_NEVER) = found at finds
  by_cases isLeast : found.place = some place
  · have others : found.leastOther place = found.next := if_pos isLeast
    have least : found.least = (tdmList.map TrdispatchMcu.statusTime)[place] := by
      rcases finds.least with ⟨-, none⟩ | ⟨i, isPlace, read⟩
      · rw [none] at isLeast
        cases isLeast
      · rw [isPlace] at isLeast
        cases isLeast
        exact Option.some.inj (read.symm.trans isOwn)
    rw [others, ← least, min_eq_right (finds.ordered.trans finds.early)]
    split
    · exact if_pos isLeast
    · exact others
  · have others : found.leastOther place = found.least := if_neg isLeast
    have same : (if found.next = PR_NEVER then { found with next := found.least } else found).leastOther place =
        found.least := by
      split
      · exact if_neg isLeast
      · exact others
    rw [same, others]
    split
    · rename_i never
      rw [never, min_eq_left (never ▸ finds.bounded place _ isOwn)]
    · rfl

def Trdispatch.noted : List TrdispatchMcu :=
  td.tdmList.mapIdx (fun i tdm => if i = place then tdm.noteStatus clock else tdm)

variable {td place clock}

theorem Trdispatch.set_noteStatus {tdm : TrdispatchMcu} (isPlace : td.tdmList[place]? = some tdm) :
    td.tdmList.set place (tdm.noteStatus clock) = td.noted place clock := by
  refine ext_getElem? (fun i => ?_)
  rw [noted, getElem?_mapIdx, getElem?_set]
  by_cases same : place = i
  · obtain rfl := same
    rw [isPlace, if_pos rfl, if_pos (List.getElem?_eq_some_iff.mp isPlace).1, Option.map_some, if_pos rfl]
  · rw [if_neg same]
    cases td.tdmList[i]? with
    | none => rfl
    | some entry => rw [Option.map_some, if_neg (Ne.symm same)]

theorem Trdispatch.getElem?_noted {other : Nat} :
    (td.noted place clock)[other]? =
      (td.tdmList[other]?).map (fun tdm => if other = place then tdm.noteStatus clock else tdm) :=
  getElem?_mapIdx

theorem Trdispatch.noted_statusTime :
    (td.noted place clock).map TrdispatchMcu.statusTime = td.heard place clock := by
  refine ext_getElem? (fun i => ?_)
  rw [getElem?_map, getElem?_noted, heard, getElem?_mapIdx, Option.map_map]
  refine Option.map_congr (fun tdm _ => ?_)
  rw [Function.comp_apply]
  split <;> rfl

/-- The expiry that a report leads to. -/
theorem Trdispatch.expire_noted {other : Nat} (inside : other < td.tdmList.length) (tdm : TrdispatchMcu) :
    (if other = place then tdm.noteStatus clock else tdm).expire (minimumTimes (td.noted place clock)) other =
      tdm.expiryFrom place other (slowestOther (td.heard place clock) other) := by
  rw [TrdispatchMcu.expire, minimumTimes_leastOther (by rw [noted, length_mapIdx]; exact inside),
    noted_statusTime, TrdispatchMcu.expiryFrom]
  split <;> rfl

end Report

/-- Setting up a test sets the expiry. -/
def Event.IsSetup : Event → Prop
  | .setup .. => True
  | _ => False

/-- No micro-controller has an expiry behind which it falls, counted from the time at
which the slowest of the others has been heard of. -/
def OnTime (td : Trdispatch) : Event → Prop
  | .trsyncState place data =>
      ∀ reporting canTrigger clock, td.report place data = some (reporting, canTrigger, clock) →
        td.canTrigger = true → canTrigger ≠ 0 → ∀ (other : Nat) (tdm : TrdispatchMcu),
          td.tdmList[other]? = some tdm →
            ¬ tdm.FallsBack (tdm.expiryFrom place other (slowestOther (td.heard place clock) other))
  | _ => True

theorem onTime_noted_iff (td : Trdispatch) (place : Nat) (clock : UInt32) :
    (∀ (other : Nat) (entry : TrdispatchMcu), (td.noted place clock)[other]? = some entry →
        ¬ entry.FallsBack (entry.expire (minimumTimes (td.noted place clock)) other)) ↔
      ∀ (other : Nat) (tdm : TrdispatchMcu), td.tdmList[other]? = some tdm →
        ¬ tdm.FallsBack (tdm.expiryFrom place other (slowestOther (td.heard place clock) other)) := by
  have same : ∀ (other : Nat) (tdm : TrdispatchMcu), td.tdmList[other]? = some tdm →
      ((if other = place then tdm.noteStatus clock else tdm).FallsBack
          ((if other = place then tdm.noteStatus clock else tdm).expire
            (minimumTimes (td.noted place clock)) other) ↔
        tdm.FallsBack (tdm.expiryFrom place other (slowestOther (td.heard place clock) other))) := by
    intro other tdm isOther
    rw [Trdispatch.expire_noted (List.getElem?_eq_some_iff.mp isOther).1]
    split <;> rfl
  constructor
  · intro onTime other tdm isOther
    rw [← same other tdm isOther]
    apply onTime
    rw [Trdispatch.getElem?_noted, isOther, Option.map_some]
  · intro onTime other entry isEntry
    rw [Trdispatch.getElem?_noted] at isEntry
    obtain ⟨tdm, isOther, rfl⟩ := Option.map_eq_some_iff.mp isEntry
    rw [same other tdm isOther]
    exact onTime other tdm isOther

theorem handleTrsyncState_forward_iff (td : Trdispatch) (place : Nat) (data : Bytes) :
    Forward td.limits (handleTrsyncState td place data).1.limits (handleTrsyncState td place data).2 ↔
      OnTime td (.trsyncState place data) := by
  rw [handleTrsyncState_eq, OnTime]
  cases isReport : td.report place data with
  | none => exact iff_of_true (.same nofun) nofun
  | some report =>
    obtain ⟨tdm, canTrigger, clock⟩ := report
    have isPlace := Trdispatch.place_of_report isReport
    have same : (td.tdmList.set place (tdm.noteStatus clock)).map TrdispatchMcu.limits =
        td.tdmList.map TrdispatchMcu.limits := map_set_of_same isPlace rfl
    cases active : td.canTrigger with
    | false => exact iff_of_true (.same nofun) nofun
    | true =>
      dsimp only [Trdispatch.limits]
      rw [if_neg (by decide)]
      split
      case isTrue triggers =>
        refine iff_of_true (.same ?_) ?_
        · intro message isMessage
          obtain ⟨_, _, rfl⟩ := mem_mapIdx.mp isMessage
          exact nofun
        · rintro _ _ _ ⟨⟩ - notTriggers
          exact absurd triggers notTriggers
      case isFalse works =>
        rw [← same, setTimeouts_forward_iff, Trdispatch.set_noteStatus isPlace, onTime_noted_iff]
        constructor
        · rintro onTime _ _ _ ⟨⟩ - -
          exact onTime
        · intro onTime
          exact onTime tdm canTrigger clock rfl rfl works

theorem step_forward_iff (td : Trdispatch) {event : Event} (notSetup : ¬ event.IsSetup) :
    Forward td.limits (step td event).1.limits (step td event).2 ↔ OnTime td event := by
  cases event with
  | setup place _ _ _ _ => exact absurd trivial notSetup
  | start reason =>
    refine iff_of_true ?_ trivial
    simp only [step, Trdispatch.limits, trdispatchStart_tdmList]
    exact .same nofun
  | stop =>
    refine iff_of_true ?_ trivial
    simp only [step, Trdispatch.limits, trdispatchStop_tdmList]
    exact .same nofun
  | estimate place ce =>
    refine iff_of_true ?_ trivial
    have same : (td.tdmList.modify place (fun tdm => { tdm with sqCe := ce })).map TrdispatchMcu.limits =
        td.limits := map_modify_of_same (fun _ => by rfl) _ _
    rw [step]
    dsimp only [Trdispatch.limits]
    rw [same]
    exact .same nofun
  | trsyncState place data => exact handleTrsyncState_forward_iff td place data

def AllOnTime : Trdispatch → List Event → Prop
  | _, [] => True
  | td, event :: events => OnTime td event ∧ AllOnTime (step td event).1 events

theorem run_forward {td : Trdispatch} {events : List Event} (notSetup : ∀ event ∈ events, ¬ event.IsSetup)
    (onTime : AllOnTime td events) (place : Nat) {first : Limits} (isFirst : td.limits[place]? = some first) :
    ∃ last, (run td events).1.limits[place]? = some last ∧ first.expireClock ≤ last.expireClock := by
  induction events generalizing td first with
  | nil => exact ⟨first, isFirst, UInt64.le_rfl⟩
  | cons event events ih =>
    obtain ⟨now, later⟩ := onTime
    have forward := (step_forward_iff td (notSetup event (.head _))).mpr now
    obtain ⟨middle, isMiddle, early⟩ := forward.clocks place first isFirst
    obtain ⟨last, isLast, late⟩ :=
      ih (fun other isLater => notSetup other (.tail _ isLater)) later isMiddle
    exact ⟨last, isLast, UInt64.le_trans early late⟩

/-- **Timeouts move forward.** Once the micro-controllers are set up, an event moves
no expiry back and tells a micro-controller only of an extension by at least
`min_extend_ticks`, if and only if for none of them `expire_ticks` after the slowest
of the others has been heard of lies before the stored expiry, or else by more than
`2^64` less `min_extend_ticks`; and so in a run of such events the expiry of each
micro-controller never decreases. -/
theorem expire_clock_forward_iff (td : Trdispatch) :
    (∀ event, ¬ event.IsSetup →
      (Forward td.limits (step td event).1.limits (step td event).2 ↔ OnTime td event)) ∧
      ∀ events, (∀ event ∈ events, ¬ event.IsSetup) → AllOnTime td events →
        ∀ (place : Nat) (first : Limits), td.limits[place]? = some first → ∃ last : Limits,
          (run td events).1.limits[place]? = some last ∧ first.expireClock ≤ last.expireClock :=
  ⟨fun _ notSetup => step_forward_iff td notSetup,
    fun _ notSetup onTime place _ isFirst => run_forward notSetup onTime place isFirst⟩

/-- Two micro-controllers with 1000000 ticks a second, set up for the same time. The
estimate for the second one is `behind` ticks off. -/
def homing (behind : ℚ) : Trdispatch where
  isActive := true
  canTrigger := true
  dispatchReason := 2
  tdmList :=
    let first := ClockEstimate.linear 1000000 0 0 1000000
    let second := ClockEstimate.linear 1000000 0 (-behind / 1000000) 1000000
    [⟨3, 11, 12, 1000000, 1025000, 25000, 8000, first, first⟩,
      ⟨4, 11, 12, 1000000, 1025000, 25000, 8000, second, second⟩]

def worksAt (clock : UInt32) : Bytes :=
  addFrame 0x11 (encodeInt 7 ++ encodeInt 3 ++ encodeInt 1 ++ encodeInt 0 ++ encodeInt clock)

def stillWorking (clock : UInt32) : Event := .trsyncState 0 (worksAt clock)

/-- With equal estimates the report extends the timeout of the second one. -/
theorem expire_clock_forward_extended :
    OnTime (homing 0) (stillWorking 1010000) ∧
      Forward (homing 0).limits (step (homing 0) (stillWorking 1010000)).1.limits
        (step (homing 0) (stillWorking 1010000)).2 ∧
      (step (homing 0) (stillWorking 1010000)).2 = [⟨1, .setTimeout, [11, 4, 1035000], 1035000⟩] := by
  have onTime : OnTime (homing 0) (stillWorking 1010000) := by
    intro reporting canTrigger clock isReport _ _ other tdm isOther
    have parsed : (parseTrsyncState 3 (worksAt 1010000)).map Prod.snd = some 1010000 := by decide +kernel
    obtain ⟨entry, isEntry, isParsed⟩ := Option.bind_eq_some_iff.mp isReport
    cases isEntry
    obtain ⟨report, isParsed, same⟩ := Option.map_eq_some_iff.mp isParsed
    cases same
    rw [isParsed] at parsed
    cases parsed
    unfold TrdispatchMcu.FallsBack
    match other with
    | 0 =>
      cases isOther
      decide +kernel
    | 1 =>
      cases isOther
      decide +kernel
    | other + 2 => cases isOther
  exact ⟨onTime, ((expire_clock_forward_iff (homing 0)).1 (stillWorking 1010000) id).mpr onTime,
    by decide +kernel⟩

/-- One tick is enough: a new expiry one tick before the old one is taken and sent. -/
theorem expire_clock_moves_back :
    (step (homing 1) (stillWorking 1000000)).1.limits = [⟨1024999, 8000⟩, ⟨1025000, 8000⟩] ∧
      (step (homing 1) (stillWorking 1000000)).2 = [⟨0, .setTimeout, [11, 3, 1024999], 1024999⟩] ∧
      ¬ Forward (homing 1).limits (step (homing 1) (stillWorking 1000000)).1.limits
        (step (homing 1) (stillWorking 1000000)).2 := by
  have after : (step (homing 1) (stillWorking 1000000)).1.limits = [⟨1024999, 8000⟩, ⟨1025000, 8000⟩] := by
    decide +kernel
  refine ⟨after, by decide +kernel, ?_⟩
  intro forward
  rw [after] at forward
  obtain ⟨last, isLast, later⟩ := forward.clocks 0 ⟨1025000, 8000⟩ rfl
  cases isLast
  exact absurd later (by decide)

end MagnetoX.Homing
