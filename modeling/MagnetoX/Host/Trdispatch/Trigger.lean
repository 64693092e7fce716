import MagnetoX.Host.Trdispatch.Timeouts

/-!
Owns what a homing move over several micro-controllers rests on: each of them expires
unless the slowest of the others is heard of, and the first of them that reports a
trigger stops them all, once.
-/

namespace MagnetoX.Homing

open Library Message List Option

open TrdispatchMcu

variable {tdmList : List TrdispatchMcu} {place : Nat} {data : Bytes}

/-- Among times before never, this is the least of the others. -/
theorem slowestOther_isLeast {times : List ℚ} (several : 2 ≤ times.length)
    (finite : ∀ time ∈ times, time < PR_NEVER) (place : Nat) :
    IsLeast {time | ∃ i : Nat, i ≠ place ∧ times[i]? = some time} (slowestOther times place) := by
  obtain ⟨isEntry, isLower⟩ := Minima.isLeast_foldr_min PR_NEVER (times.eraseIdx place)
  have another : ∃ i : Nat, i ≠ place ∧ i < times.length := by
    by_cases first : place = 0
    · exact ⟨1, by omega, several⟩
    · exact ⟨0, Ne.symm first, by omega⟩
  obtain ⟨i, apart, inside⟩ := another
  have early := (isLower (.inr (mem_eraseIdx_iff_getElem?.mpr ⟨i, apart, getElem?_eq_getElem inside⟩))).trans_lt
    (finite _ (getElem_mem inside))
  rw [slowestOther, if_neg (ne_of_lt early)]
  constructor
  · exact mem_eraseIdx_iff_getElem?.mp (isEntry.resolve_left (ne_of_lt early))
  · exact fun time isOther => isLower (.inr (mem_eraseIdx_iff_getElem?.mpr isOther))

/-- After an event this micro-controller expires at `expire` and has been told so, if
that is an extension; else it expires as before and has not been told. -/
structure Extends (tdm : TrdispatchMcu) (other : Nat) (expire : UInt64) (after : Trdispatch × List Sent) :
    Prop where
  stored : (after.1.tdmList[other]?).map TrdispatchMcu.expireClock =
    some (if tdm.minExtendTicks ≤ expire - tdm.expireClock then expire else tdm.expireClock)
  sent : ∀ message : Sent, message.place = other → (message ∈ after.2 ↔
    tdm.minExtendTicks ≤ expire - tdm.expireClock ∧
      message = ⟨other, .setTimeout, [tdm.setTimeoutMsgtag, tdm.trsyncOid, expire.toUInt32], expire⟩)

theorem setTimeouts_extends (found : Minima ℚ) (td : Trdispatch) {tdm : TrdispatchMcu}
    (isPlace : tdmList[place]? = some tdm) :
    Extends tdm place (tdm.expire found place)
      ({ td with tdmList := (setTimeouts found tdmList).1 }, (setTimeouts found tdmList).2) := by
  have guard := isExtended_iff tdm (tdm.expire found place)
  constructor
  · rw [setTimeouts, getElem?_mapIdx, isPlace, map_some, map_some, setTimeout]
    simp only [guard]
    split <;> rfl
  · rintro message rfl
    rw [mem_setTimeouts, isPlace]
    simp only [some.injEq, exists_eq_left', setTimeout, guard]
    split
    · rename_i isExtended
      rw [mem_singleton, iff_true_intro isExtended, true_and]
      rfl
    · rename_i notExtended
      exact iff_of_false not_mem_nil (fun extended => notExtended extended.1)

section OneShot

variable {td : Trdispatch} {event : Event} {events : List Event}

def Event.IsStart : Event → Prop
  | .start _ => True
  | _ => False

structure Address where
  trsyncOid : UInt32
  setTimeoutMsgtag : UInt32
  triggerMsgtag : UInt32
deriving DecidableEq, Repr

def TrdispatchMcu.address (tdm : TrdispatchMcu) : Address :=
  ⟨tdm.trsyncOid, tdm.setTimeoutMsgtag, tdm.triggerMsgtag⟩

def Trdispatch.addresses (td : Trdispatch) : List Address := td.tdmList.map TrdispatchMcu.address

def ReportsTrigger (addresses : List Address) : Event → Prop
  | .trsyncState place data => ∃ address clock, addresses[place]? = some address ∧
      parseTrsyncState address.trsyncOid data = some (0, clock)
  | _ => False

open Trdispatch

theorem reportsTrigger_iff :
    ReportsTrigger td.addresses (.trsyncState place data) ↔
      ∃ tdm clock, td.report place data = some (tdm, 0, clock) := by
  constructor
  · rintro ⟨address, clock, isAddress, parsed⟩
    rw [addresses, getElem?_map] at isAddress
    obtain ⟨tdm, isPlace, rfl⟩ := map_eq_some_iff.mp isAddress
    refine ⟨tdm, clock, ?_⟩
    rw [report, isPlace, bind_some]
    exact map_eq_some_iff.mpr ⟨_, parsed, rfl⟩
  · rintro ⟨tdm, clock, isReport⟩
    refine ⟨tdm.address, clock, ?_, ?_⟩
    · rw [addresses, getElem?_map, place_of_report isReport, map_some]
    · rw [report, place_of_report isReport, bind_some] at isReport
      obtain ⟨_, parsed, same⟩ := map_eq_some_iff.mp isReport
      cases same
      exact parsed

theorem setTimeout_address (found : Minima ℚ) (place : Nat) (tdm : TrdispatchMcu) :
    (setTimeout found place tdm).1.address = tdm.address := by
  unfold setTimeout
  split <;> rfl

theorem setTimeouts_address (found : Minima ℚ) (tdmList : List TrdispatchMcu) :
    (setTimeouts found tdmList).1.map address = tdmList.map address := by
  refine ext_getElem? (fun i => ?_)
  rw [setTimeouts, getElem?_map, getElem?_mapIdx, getElem?_map, Option.map_map]
  refine map_congr (fun tdm _ => ?_)
  exact setTimeout_address found i tdm

theorem step_address (td : Trdispatch) (event : Event) :
    (step td event).1.addresses = td.addresses := by
  unfold addresses
  cases event with
  | setup place _ _ _ _ => exact map_modify_of_same (fun _ => by rfl) _ _
  | start reason => rw [step, trdispatchStart_tdmList]
  | stop => rw [step, trdispatchStop_tdmList]
  | estimate place ce => exact map_modify_of_same (fun _ => by rfl) _ _
  | trsyncState place data =>
    rw [step, handleTrsyncState_eq]
    cases isReport : td.report place data with
    | none => rfl
    | some report =>
      dsimp only
      split
      · rfl
      · split
        · rfl
        · exact (setTimeouts_address _ _).trans (map_set_of_same (place_of_report isReport) rfl)

theorem step_silent (triggered : td.canTrigger = false) (notStart : ¬ event.IsStart) :
    (step td event).2 = [] ∧ (step td event).1.canTrigger = false := by
  cases event with
  | setup place _ _ _ _ => exact ⟨rfl, triggered⟩
  | start reason => exact absurd trivial notStart
  | stop =>
    rw [step, trdispatchStop]
    split <;> exact ⟨rfl, triggered⟩
  | estimate place ce => exact ⟨rfl, triggered⟩
  | trsyncState place data =>
    rw [step, handleTrsyncState_eq, triggered]
    split
    · exact ⟨rfl, triggered⟩
    · exact ⟨rfl, triggered⟩

theorem run_silent (triggered : td.canTrigger = false)
    (notStart : ∀ event ∈ events, ¬ event.IsStart) : (run td events).2 = [] := by
  induction events generalizing td with
  | nil => rfl
  | cons event events ih =>
    obtain ⟨nothing, still⟩ := step_silent triggered (notStart event (.head _))
    rw [run]
    dsimp only
    rw [nothing, ih still (fun other isLater => notStart other (.tail _ isLater))]
    rfl

/-- What holds from the start on, until a trigger is reported. -/
structure Armed (addresses : List Address) (reason : UInt32) (td : Trdispatch) : Prop where
  canTrigger : td.canTrigger = true
  dispatchReason : td.dispatchReason = reason
  addresses : td.addresses = addresses

variable {addresses : List Address} {reason : UInt32}

theorem setTimeouts_kind {found : Minima ℚ} {message : Sent}
    (isMessage : message ∈ (setTimeouts found tdmList).2) : message.kind = .setTimeout := by
  obtain ⟨messages, isEntry, isMessage⟩ := mem_flatten.mp isMessage
  obtain ⟨place, inside, rfl⟩ := mem_mapIdx.mp isEntry
  unfold setTimeout at isMessage
  split at isMessage
  · rw [mem_singleton.mp isMessage]
    rfl
  · cases isMessage

theorem Armed.step (armed : Armed addresses reason td) (notStart : ¬ event.IsStart)
    (notTrigger : ¬ ReportsTrigger addresses event) :
    Armed addresses reason (step td event).1 ∧ ∀ message ∈ (step td event).2, message.kind ≠ .trigger := by
  have kept := (step_address td event).trans armed.addresses
  cases event with
  | setup place _ _ _ _ => exact ⟨⟨armed.canTrigger, armed.dispatchReason, kept⟩, by rintro _ ⟨⟩⟩
  | start reason => exact absurd trivial notStart
  | stop =>
    refine ⟨⟨?_, ?_, kept⟩, by rintro _ ⟨⟩⟩
    · rw [Homing.step, trdispatchStop]
      split <;> exact armed.canTrigger
    · rw [Homing.step, trdispatchStop]
      split <;> exact armed.dispatchReason
  | estimate place ce => exact ⟨⟨armed.canTrigger, armed.dispatchReason, kept⟩, by rintro _ ⟨⟩⟩
  | trsyncState place data =>
    rw [Homing.step] at kept ⊢
    rw [handleTrsyncState_eq] at kept ⊢
    cases isReport : td.report place data with
    | none => exact ⟨armed, by rintro _ ⟨⟩⟩
    | some report =>
      obtain ⟨tdm, canTrigger, clock⟩ := report
      have works : canTrigger ≠ 0 := by
        rintro rfl
        rw [← armed.addresses] at notTrigger
        exact notTrigger (reportsTrigger_iff.mpr ⟨tdm, clock, isReport⟩)
      rw [isReport] at kept
      simp only [armed.canTrigger, if_neg works, Bool.not_true, Bool.false_eq_true, if_false] at kept ⊢
      refine ⟨⟨rfl, armed.dispatchReason, kept⟩, ?_⟩
      intro message isMessage
      rw [setTimeouts_kind isMessage]
      rintro ⟨⟩

theorem Armed.run (armed : Armed addresses reason td)
    (notStart : ∀ event ∈ events, ¬ event.IsStart) (notTrigger : ∀ event ∈ events, ¬ ReportsTrigger addresses event) :
    Armed addresses reason (run td events).1 ∧ ∀ message ∈ (run td events).2, message.kind ≠ .trigger := by
  induction events generalizing td with
  | nil => exact ⟨armed, nofun⟩
  | cons event events ih =>
    obtain ⟨still, quiet⟩ := armed.step (notStart event (.head _)) (notTrigger event (.head _))
    obtain ⟨last, quietLater⟩ := ih still
      (fun other isLater => notStart other (.tail _ isLater))
      (fun other isLater => notTrigger other (.tail _ isLater))
    refine ⟨last, ?_⟩
    intro message isMessage
    rcases mem_append.mp isMessage with now | later
    · exact quiet message now
    · exact quietLater message later

def triggerTo (reason : UInt32) (place : Nat) (address : Address) : Sent :=
  ⟨place, .trigger, [address.triggerMsgtag, address.trsyncOid, reason], 0⟩

/-- A report of a trigger is passed on to all. -/
theorem Armed.trigger (armed : Armed addresses reason td) (triggers : ReportsTrigger addresses event) :
    (Homing.step td event).2 = addresses.mapIdx (triggerTo reason) ∧
      (Homing.step td event).1.canTrigger = false := by
  cases event with
  | setup place _ _ _ _ => exact triggers.elim
  | start reason => exact triggers.elim
  | stop => exact triggers.elim
  | estimate place ce => exact triggers.elim
  | trsyncState place data =>
    rw [← armed.addresses] at triggers
    obtain ⟨tdm, clock, isReport⟩ := reportsTrigger_iff.mp triggers
    rw [Homing.step, handleTrsyncState_eq, isReport]
    simp only [armed.canTrigger, Bool.not_true, Bool.false_eq_true, if_false, if_true]
    refine ⟨?_, trivial⟩
    rw [← armed.addresses, ← armed.dispatchReason, Trdispatch.addresses]
    refine ext_getElem? (fun i => ?_)
    rw [getElem?_mapIdx, getElem?_mapIdx, getElem?_map, Option.map_map]
    rfl

end OneShot

/-- A report that a micro-controller still works. -/
theorem step_extends {td : Trdispatch} {reporting tdm : TrdispatchMcu} {canTrigger clock : UInt32} {other : Nat}
    (isReport : td.report place data = some (reporting, canTrigger, clock)) (armed : td.canTrigger = true)
    (works : canTrigger ≠ 0) (isOther : td.tdmList[other]? = some tdm) :
    Extends tdm other (tdm.expiryFrom place other (slowestOther (td.heard place clock) other))
      (step td (.trsyncState place data)) := by
  have isNoted : (td.noted place clock)[other]? =
      some (if other = place then tdm.noteStatus clock else tdm) := by
    rw [Trdispatch.getElem?_noted, isOther, map_some]
  have extended := setTimeouts_extends (minimumTimes (td.noted place clock)) td isNoted
  rw [Trdispatch.expire_noted (List.getElem?_eq_some_iff.mp isOther).1] at extended
  rw [step, handleTrsyncState_eq, isReport]
  simp only [armed, if_neg works, Bool.not_true, Bool.false_eq_true, if_false,
    Trdispatch.set_noteStatus (Trdispatch.place_of_report isReport)]
  split at extended <;> exact ⟨extended.stored, extended.sent⟩

/-- **Liveness source and trigger fan-out.** When a micro-controller reports that it
still works, each micro-controller expires `expire_ticks` after the least of the
times at which the others have been heard of, and is told so, unless that is no
extension by `min_extend_ticks`. And after `trdispatch_start`, until it is called
again, whatever else happens: before the first report with `can_trigger=0` no trigger
is sent; that report sends one to every micro-controller in the list; and nothing is
sent from then on. -/
theorem slowest_other_and_one_trigger (td : Trdispatch) (several : 2 ≤ td.tdmList.length) :
    (∀ place data reporting canTrigger clock, td.report place data = some (reporting, canTrigger, clock) →
      td.canTrigger = true → canTrigger ≠ 0 → (∀ time ∈ td.heard place clock, time < PR_NEVER) →
        ∀ (other : Nat) (tdm : TrdispatchMcu), td.tdmList[other]? = some tdm → ∃ time,
          IsLeast {time | ∃ i : Nat, i ≠ other ∧ (td.heard place clock)[i]? = some time} time ∧
            Extends tdm other (tdm.expiryFrom place other time) (step td (.trsyncState place data))) ∧
      (td.isActive = false → ∀ reason before event after,
        (∀ other ∈ before ++ event :: after, ¬ Event.IsStart other) →
        (∀ other ∈ before, ¬ ReportsTrigger td.addresses other) → ReportsTrigger td.addresses event →
          (∀ message ∈ (run (trdispatchStart td reason) before).2, message.kind ≠ .trigger) ∧
            (step (run (trdispatchStart td reason) before).1 event).2 = td.addresses.mapIdx (triggerTo reason) ∧
            (run (step (run (trdispatchStart td reason) before).1 event).1 after).2 = []) := by
  constructor
  · intro place data reporting canTrigger clock isReport armed works finite other tdm isOther
    have length : (td.heard place clock).length = td.tdmList.length := length_mapIdx
    exact ⟨_, slowestOther_isLeast (length ▸ several) finite other, step_extends isReport armed works isOther⟩
  · intro idle reason before event after notStart notTrigger triggers
    have armed : Armed td.addresses reason (trdispatchStart td reason) := by
      have nonempty : td.tdmList.isEmpty = false := by
        rw [isEmpty_eq_false_iff]
        rintro empty
        rw [empty] at several
        exact absurd several (by decide)
      rw [trdispatchStart, idle, nonempty]
      exact ⟨rfl, rfl, rfl⟩
    obtain ⟨still, quiet⟩ := armed.run (fun other isBefore => notStart other (mem_append_left _ isBefore))
      notTrigger
    obtain ⟨sent, triggered⟩ := still.trigger triggers
    refine ⟨quiet, sent, run_silent triggered ?_⟩
    exact fun other isAfter => notStart other (mem_append_right _ (.tail _ isAfter))

def hasTriggered : Event :=
  .trsyncState 1 (addFrame 0x11 (encodeInt 7 ++ encodeInt 4 ++ encodeInt 0 ++ encodeInt 1 ++ encodeInt 1020000))

theorem stillWorking_not_trigger {clock : UInt32} (parsed : parseTrsyncState 3 (worksAt clock) = some (1, clock)) :
    ¬ ReportsTrigger (homing 0).addresses (stillWorking clock) := by
  rintro ⟨address, other, isAddress, isParsed⟩
  cases isAddress
  exact absurd (Prod.mk.inj (some.inj (parsed.symm.trans isParsed))).1 (by decide)

/-- The first micro-controller reports twice that it works, by which the second one
is given more time; then the second one triggers, and reports it again. -/
theorem slowest_other_and_one_trigger_pair :
    (∀ tdm, (homing 0).tdmList[1]? = some tdm → ∃ time,
      IsLeast {time | ∃ i : Nat, i ≠ 1 ∧ ((homing 0).heard 0 1010000)[i]? = some time} time ∧
        Extends tdm 1 (tdm.expiryFrom 0 1 time) (step (homing 0) (stillWorking 1010000))) ∧
    let td := trdispatchStart { homing 0 with isActive := false, canTrigger := false } 2
    let events := [stillWorking 1010000, stillWorking 1020000]
    (run td events).2 =
        [⟨1, .setTimeout, [11, 4, 1035000], 1035000⟩, ⟨1, .setTimeout, [11, 4, 1045000], 1045000⟩] ∧
      (step (run td events).1 hasTriggered).2 =
        [⟨0, .trigger, [12, 3, 2], 0⟩, ⟨1, .trigger, [12, 4, 2], 0⟩] ∧
      (run (step (run td events).1 hasTriggered).1 [hasTriggered, stillWorking 1030000]).2 = [] := by
  have parsed : parseTrsyncState 3 (worksAt 1010000) = some (1, 1010000) := by decide +kernel
  constructor
  · intro tdm isOther
    have isFirst : ∃ first, (homing 0).tdmList[0]? = some first ∧ first.trsyncOid = 3 := ⟨_, rfl, rfl⟩
    obtain ⟨first, isFirst, oid⟩ := isFirst
    have isReport : (homing 0).report 0 (worksAt 1010000) = some (first, 1, 1010000) := by
      rw [Trdispatch.report, isFirst, bind_some, oid, parsed, map_some]
    exact (slowest_other_and_one_trigger (homing 0) (by decide)).1 0 (worksAt 1010000) first 1 1010000
      isReport rfl (by decide) (by decide +kernel) 1 tdm isOther
  · have pair := (slowest_other_and_one_trigger { homing 0 with isActive := false, canTrigger := false }
      (by decide)).2 rfl 2 [stillWorking 1010000, stillWorking 1020000] hasTriggered
      [hasTriggered, stillWorking 1030000]
    refine ⟨by decide +kernel, (pair ?_ ?_ ?_).2⟩
    · intro other isOther
      simp only [cons_append, nil_append, mem_cons, not_mem_nil, or_false] at isOther
      rcases isOther with rfl | rfl | rfl | rfl | rfl <;> exact id
    · intro other isOther
      simp only [mem_cons, not_mem_nil, or_false] at isOther
      rcases isOther with rfl | rfl
      · exact stillWorking_not_trigger parsed
      · exact stillWorking_not_trigger (by decide +kernel)
    · exact ⟨⟨4, 11, 12⟩, 1020000, rfl, by decide +kernel⟩

end MagnetoX.Homing
