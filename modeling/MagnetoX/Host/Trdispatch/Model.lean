import Mathlib.Data.Rat.Floor
import MagnetoX.Library.Minima
import MagnetoX.Message.Block

/-!
Owns the host's end of a homing move over several micro-controllers,
`klippy/chelper/trdispatch.c`: reports of `trsync_state` extend the timeouts of the
others, and the first report of a trigger is passed on to all of them.

Clocks are 64 bit words. Times are rational numbers, and a clock estimate is any
triple of maps between clocks and times; `ClockEstimate.linear` is the one of
`klippy/chelper/msgblock.c`. A handler runs under the lock of its `trdispatch`, so
that an event is one step. Fast readers pass on reports while they are registered:
here a report may come at any time, also before and after.
-/

namespace MagnetoX.Homing

open Library Message List

def PR_NEVER : ℚ := 9999999999999999

/-- `clock_from_clock32`, `clock_to_time` and `clock_from_time` of an estimate. -/
structure ClockEstimate where
  clockFromClock32 : UInt32 → UInt64
  clockToTime : UInt64 → ℚ
  clockFromTime : ℚ → UInt64

/-- The conversion to `int64_t` drops the fraction. -/
def truncate (value : ℚ) : Int64 := Int64.ofInt (if 0 ≤ value then ⌊value⌋ else ⌈value⌉)

/-- The maps of a `struct clock_estimate`. -/
def ClockEstimate.linear (lastClock convClock : UInt64) (convTime estFreq : ℚ) : ClockEstimate where
  clockFromClock32 clock32 := lastClock + (clock32 - lastClock.toUInt32).toInt32.toInt64.toUInt64
  clockToTime clock := convTime + (clock - convClock).toInt64.toInt / estFreq
  clockFromTime time := (truncate ((time - convTime) * estFreq + 1 / 2)).toUInt64 + convClock

/-- `struct trdispatch_mcu`, with the latest estimate of its serial queue. -/
structure TrdispatchMcu where
  trsyncOid : UInt32
  setTimeoutMsgtag : UInt32
  triggerMsgtag : UInt32
  lastStatusClock : UInt64
  expireClock : UInt64
  expireTicks : UInt64
  minExtendTicks : UInt64
  ce : ClockEstimate
  sqCe : ClockEstimate

structure Trdispatch where
  isActive : Bool
  canTrigger : Bool
  dispatchReason : UInt32
  tdmList : List TrdispatchMcu

inductive Kind where
  | trigger
  | setTimeout
deriving DecidableEq, Repr

/-- A message to the micro-controller at this place of the list. -/
structure Sent where
  place : Nat
  kind : Kind
  msg : List UInt32
  reqClock : UInt64
deriving DecidableEq, Repr

def sendTrsyncTrigger (td : Trdispatch) (place : Nat) (tdm : TrdispatchMcu) : Sent :=
  ⟨place, .trigger, [tdm.triggerMsgtag, tdm.trsyncOid, td.dispatchReason], 0⟩

def sendTrsyncSetTimeout (place : Nat) (tdm : TrdispatchMcu) : Sent :=
  ⟨place, .setTimeout, [tdm.setTimeoutMsgtag, tdm.trsyncOid, tdm.expireClock.toUInt32], tdm.expireClock⟩

/-- The loop of `msgblock_decode`. -/
def decodeFields (msg : Bytes) (stop : Nat) : Nat → Nat → Option (List UInt32 × Nat)
  | 0, p => some ([], p)
  | dataLen + 1, p =>
      if p ≥ stop then none
      else (parseInt msg p).bind (fun (value, p) =>
        (decodeFields msg stop dataLen p).map (fun (values, p) => (value :: values, p)))

def msgblockDecode (dataLen : Nat) (msg : Bytes) : Option (List UInt32) :=
  let stop := msg.length - MESSAGE_TRAILER_SIZE
  (decodeFields msg stop dataLen MESSAGE_HEADER_SIZE).bind (fun (values, p) =>
    if p ≠ stop then none else some values)

/-- Parse: `trsync_state oid=%c can_trigger=%c trigger_reason=%c clock=%u`. The
result is `can_trigger` and `clock`. -/
def parseTrsyncState (oid : UInt32) (data : Bytes) : Option (UInt32 × UInt32) :=
  match msgblockDecode 5 data with
  | some [_, trsyncOid, canTrigger, _, clock] =>
      if trsyncOid ≠ oid then none else some (canTrigger, clock)
  | _ => none

def TrdispatchMcu.statusTime (tdm : TrdispatchMcu) : ℚ := tdm.ce.clockToTime tdm.lastStatusClock

/-- Determine minimum acknowledged time among all mcus. -/
def minimumTimes (tdmList : List TrdispatchMcu) : Minima ℚ :=
  let found := Minima.scan 0 (tdmList.map TrdispatchMcu.statusTime) (.start PR_NEVER)
  if found.next = PR_NEVER then { found with next := found.least } else found

/-- The time at which the micro-controller is to expire. -/
def TrdispatchMcu.expire (found : Minima ℚ) (place : Nat) (tdm : TrdispatchMcu) : UInt64 :=
  tdm.ce.clockFromTime (found.leastOther place) + tdm.expireTicks

/-- `(int64_t)(expire - m->expire_clock) >= m->min_extend_ticks`, which compares
unsigned numbers. -/
def TrdispatchMcu.isExtended (tdm : TrdispatchMcu) (expire : UInt64) : Bool :=
  decide ((expire - tdm.expireClock).toInt64.toUInt64 ≥ tdm.minExtendTicks)

def setTimeout (found : Minima ℚ) (place : Nat) (tdm : TrdispatchMcu) : TrdispatchMcu × List Sent :=
  if tdm.isExtended (tdm.expire found place) then
    let tdm := { tdm with expireClock := tdm.expire found place }
    (tdm, [sendTrsyncSetTimeout place tdm])
  else (tdm, [])

def setTimeouts (found : Minima ℚ) (tdmList : List TrdispatchMcu) : List TrdispatchMcu × List Sent :=
  (tdmList.mapIdx (fun place tdm => (setTimeout found place tdm).1),
    (tdmList.mapIdx (fun place tdm => (setTimeout found place tdm).2)).flatten)

/-- mcu is still working okay - update last_status_clock. -/
def TrdispatchMcu.noteStatus (tdm : TrdispatchMcu) (clock : UInt32) : TrdispatchMcu :=
  { tdm with ce := tdm.sqCe, lastStatusClock := tdm.sqCe.clockFromClock32 clock }

def handleTrsyncState (td : Trdispatch) (place : Nat) (data : Bytes) : Trdispatch × List Sent :=
  match td.tdmList[place]? with
  | none => (td, [])
  | some tdm =>
      match parseTrsyncState tdm.trsyncOid data with
      | none => (td, [])
      | some (canTrigger, clock) =>
          if !td.canTrigger then (td, [])
          else if canTrigger = 0 then
            -- mcu reports trigger or timeout - propagate to all mcus
            ({ td with canTrigger := false }, td.tdmList.mapIdx (sendTrsyncTrigger td))
          else
            let tdmList := td.tdmList.set place (tdm.noteStatus clock)
            let (tdmList, sent) := setTimeouts (minimumTimes tdmList) tdmList
            ({ td with tdmList }, sent)

/-- A report that `handle_trsync_state` takes: whose it is, `can_trigger` and
`clock`. -/
def Trdispatch.report (td : Trdispatch) (place : Nat) (data : Bytes) : Option (TrdispatchMcu × UInt32 × UInt32) :=
  (td.tdmList[place]?).bind (fun tdm => (parseTrsyncState tdm.trsyncOid data).map (Prod.mk tdm))

theorem handleTrsyncState_eq (td : Trdispatch) (place : Nat) (data : Bytes) :
    handleTrsyncState td place data = match td.report place data with
      | none => (td, [])
      | some (tdm, canTrigger, clock) =>
        if !td.canTrigger then (td, [])
        else if canTrigger = 0 then
          ({ td with canTrigger := false }, td.tdmList.mapIdx (sendTrsyncTrigger td))
        else
          let tdmList := td.tdmList.set place (tdm.noteStatus clock)
          let (tdmList, sent) := setTimeouts (minimumTimes tdmList) tdmList
          ({ td with tdmList }, sent) := by
  unfold handleTrsyncState Trdispatch.report
  cases td.tdmList[place]? with
  | none => rfl
  | some tdm =>
    simp only [Option.bind_some]
    cases parseTrsyncState tdm.trsyncOid data with
    | none => rfl
    | some report => rfl

theorem Trdispatch.place_of_report {td : Trdispatch} {place : Nat} {data : Bytes} {tdm : TrdispatchMcu}
    {canTrigger clock : UInt32} (isReport : td.report place data = some (tdm, canTrigger, clock)) :
    td.tdmList[place]? = some tdm := by
  obtain ⟨other, isPlace, parsed⟩ := Option.bind_eq_some_iff.mp isReport
  obtain ⟨_, -, same⟩ := Option.map_eq_some_iff.mp parsed
  cases same
  exact isPlace

def trdispatchStart (td : Trdispatch) (dispatchReason : UInt32) : Trdispatch :=
  if td.isActive || td.tdmList.isEmpty then td
  else { td with dispatchReason, isActive := true, canTrigger := true }

def trdispatchStop (td : Trdispatch) : Trdispatch :=
  if !td.isActive then td else { td with isActive := false }

theorem trdispatchStart_tdmList (td : Trdispatch) (dispatchReason : UInt32) :
    (trdispatchStart td dispatchReason).tdmList = td.tdmList := by
  unfold trdispatchStart
  split <;> rfl

theorem trdispatchStop_tdmList (td : Trdispatch) : (trdispatchStop td).tdmList = td.tdmList := by
  unfold trdispatchStop
  split <;> rfl

def trdispatchMcuSetup (lastStatusClock expireClock expireTicks minExtendTicks : UInt64) (tdm : TrdispatchMcu) :
    TrdispatchMcu :=
  { tdm with lastStatusClock, expireClock, expireTicks, minExtendTicks, ce := tdm.sqCe }

inductive Event where
  | setup (place : Nat) (lastStatusClock expireClock expireTicks minExtendTicks : UInt64)
  | start (dispatchReason : UInt32)
  | stop
  | estimate (place : Nat) (ce : ClockEstimate)
  | trsyncState (place : Nat) (data : Bytes)

def step (td : Trdispatch) : Event → Trdispatch × List Sent
  | .setup place lastStatusClock expireClock expireTicks minExtendTicks =>
      let setup := trdispatchMcuSetup lastStatusClock expireClock expireTicks minExtendTicks
      ({ td with tdmList := td.tdmList.modify place setup }, [])
  | .start dispatchReason => (trdispatchStart td dispatchReason, [])
  | .stop => (trdispatchStop td, [])
  | .estimate place ce =>
      ({ td with tdmList := td.tdmList.modify place (fun tdm => { tdm with sqCe := ce }) }, [])
  | .trsyncState place data => handleTrsyncState td place data

def run (td : Trdispatch) : List Event → Trdispatch × List Sent
  | [] => (td, [])
  | event :: events =>
      let (middle, first) := step td event
      let (last, rest) := run middle events
      (last, first ++ rest)

section Kept

variable {α β : Type} {read : α → β}

theorem map_modify_of_same {change : α → α} (same : ∀ entry, read (change entry) = read entry) (list : List α)
    (place : Nat) : (list.modify place change).map read = list.map read := by
  refine ext_getElem? (fun i => ?_)
  rw [getElem?_map, getElem?_modify, getElem?_map]
  cases list[i]? with
  | none => rfl
  | some entry =>
    split
    · exact congrArg some (same entry)
    · rfl

theorem map_set_of_same {list : List α} {place : Nat} {entry new : α} (isPlace : list[place]? = some entry)
    (same : read new = read entry) : (list.set place new).map read = list.map read := by
  refine ext_getElem? (fun i => ?_)
  rw [getElem?_map, getElem?_set, getElem?_map]
  split
  · rename_i isSame
    rw [← isSame, isPlace, if_pos (List.getElem?_eq_some_iff.mp isPlace).1]
    exact congrArg some same
  · rfl

end Kept

end MagnetoX.Homing
