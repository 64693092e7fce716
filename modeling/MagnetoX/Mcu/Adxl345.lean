import MagnetoX.Library.Run

/-!
Owns the way of accelerometer samples from the ADXL345 to the host: `adxl_query` and `adxl_report` of
`src/sensor_adxl345.c` pack each into a record of five bytes, and `_extract_samples` of
`klippy/extras/adxl345.py` unpacks them. The timers of the MCU, and the scales and times that the
host attaches to a sample, are left out.
-/

namespace MagnetoX.Mcu.Accel

open List

abbrev Bytes := List UInt8

/-- The bytes `msg[1]` to `msg[8]` that the chip sends. -/
structure Reply where
  x0 : UInt8
  x1 : UInt8
  y0 : UInt8
  y1 : UInt8
  z0 : UInt8
  z1 : UInt8
  fifoCtl : UInt8
  fifoStatus : UInt8
deriving DecidableEq, Repr

def SET_FIFO_CTL : UInt8 := 0x90

/-- The high byte of a measurement is not a sign extension. -/
def glitch (high : UInt8) : Bool := (high &&& 0xf0) != 0 && (high &&& 0xf0) != 0xf0

/-- Data error - may be a CS, MISO, MOSI, or SCLK glitch. -/
def Reply.isError (msg : Reply) : Bool :=
  glitch msg.x1 || glitch msg.y1 || glitch msg.z1 || msg.fifoCtl != SET_FIFO_CTL || (msg.fifoStatus &&& 0x7f > 32)

/-- x high bits and z high bits -/
def xzHigh (x1 z1 : UInt8) : UInt8 := (x1 &&& (0x1f : UInt8)) ||| (z1 <<< 5)

/-- y high and z high -/
def yzHigh (y1 z1 : UInt8) : UInt8 := (y1 &&& (0x1f : UInt8)) ||| ((z1 <<< 2) &&& 0x60)

def Reply.record (msg : Reply) : Bytes :=
  if msg.isError then [0xff, 0xff, 0xff, 0xff, 0xff]
  else [msg.x0, msg.y0, msg.z0, xzHigh msg.x1 msg.z1, yzHigh msg.y1 msg.z1]

structure Message where
  sequence : UInt16
  data : Bytes
deriving DecidableEq, Repr

structure Adxl345 where
  sequence : UInt16
  limitCount : UInt16
  data : Bytes
deriving DecidableEq, Repr

def adxlReport (ax : Adxl345) : Adxl345 × List Message :=
  ({ ax with data := [], sequence := ax.sequence + 1 }, [⟨ax.sequence, ax.data⟩])

def adxlQuery (ax : Adxl345) (msg : Reply) : Adxl345 × List Message :=
  let ax := { ax with data := ax.data ++ msg.record }
  let (ax, sent) := if ax.data.length + 5 > 50 then adxlReport ax else (ax, [])
  -- Check fifo status
  let full := ¬ msg.isError ∧ msg.fifoStatus &&& 0x7f ≥ 31
  ({ ax with limitCount := if full then ax.limitCount + 1 else ax.limitCount }, sent)

/-- The queries of a measurement, and the final report of `adxl_stop`. -/
def measure (ax : Adxl345) : List Reply → List Message
  | [] => if ax.data.length ≠ 0 then (adxlReport ax).2 else []
  | msg :: rest => (adxlQuery ax msg).2 ++ measure (adxlQuery ax msg).1 rest

/-- One record of `_extract_samples`; none is a counted error. -/
def decodeRecord (xlow ylow zlow xzhigh yzhigh : UInt8) : Option (Int × Int × Int) :=
  if yzhigh &&& 0x80 ≠ 0 then none
  else
    let rx : Int := (xlow.toNat ||| (xzhigh &&& 0x1f).toNat <<< 8 : Nat) - ((xzhigh &&& 0x10).toNat <<< 9 : Nat)
    let ry : Int := (ylow.toNat ||| (yzhigh &&& 0x1f).toNat <<< 8 : Nat) - ((yzhigh &&& 0x10).toNat <<< 9 : Nat)
    let rz : Int := (zlow.toNat ||| (xzhigh &&& 0xe0).toNat <<< 3 ||| (yzhigh &&& 0xe0).toNat <<< 6 : Nat) -
      ((yzhigh &&& 0x40).toNat <<< 7 : Nat)
    some (rx, ry, rz)

def records : Bytes → List (Option (Int × Int × Int))
  | xlow :: ylow :: zlow :: xzhigh :: yzhigh :: d => decodeRecord xlow ylow zlow xzhigh yzhigh :: records d
  | _ => []

def extractSamples (rawSamples : List Message) : List (Option (Int × Int × Int)) :=
  rawSamples.flatMap (fun params => records params.data)

abbrev Reading := { x : Int // -4096 ≤ x ∧ x < 4096 }

/-- The bytes of a reading, sign extended to 16 bits. -/
def Reading.low (x : Reading) : UInt8 := UInt8.ofInt x
def Reading.high (x : Reading) : UInt8 := UInt8.ofInt (x / 256)

def deliver (x y z : Reading) (fifoStatus : UInt8) : Reply :=
  ⟨x.low, x.high, y.low, y.high, z.low, z.high, SET_FIFO_CTL, fifoStatus⟩

theorem Reading.high_range (x : Reading) : ∃ h : Fin 32, x.high = UInt8.ofInt ((h : Nat) - 16) ∧ x.val / 256 = (h : Nat) - 16 := by
  obtain ⟨x, lower, upper⟩ := x
  have range : x / 256 = ((⟨(x / 256 + 16).toNat, by omega⟩ : Fin 32) : Nat) - 16 := by
    simp only
    omega
  exact ⟨_, congrArg UInt8.ofInt range, range⟩

theorem not_isError_deliver (x y z : Reading) {fifoStatus : UInt8} (valid : fifoStatus &&& 0x7f ≤ 32) :
    (deliver x y z fifoStatus).isError = false := by
  have fine (x : Reading) : glitch x.high = false := by
    obtain ⟨h, isHigh, -⟩ := x.high_range
    rw [isHigh]
    clear isHigh
    revert h
    decide
  simp [Reply.isError, deliver, fine, UInt8.not_lt.mpr valid]

theorem xzHigh_high (x z : Reading) :
    xzHigh x.high z.high &&& 0x1f = x.high &&& 0x1f ∧ xzHigh x.high z.high &&& 0x10 = x.high &&& 0x10 ∧
      xzHigh x.high z.high &&& (0xe0 : UInt8) = z.high <<< 5 := by
  obtain ⟨a, isX, -⟩ := x.high_range
  obtain ⟨c, isZ, -⟩ := z.high_range
  rw [isX, isZ]
  clear isX isZ
  revert a c
  decide +kernel

theorem yzHigh_high (y z : Reading) :
    yzHigh y.high z.high &&& 0x1f = y.high &&& 0x1f ∧ yzHigh y.high z.high &&& 0x10 = y.high &&& 0x10 ∧
      yzHigh y.high z.high &&& (0xe0 : UInt8) = (z.high <<< 2) &&& (0x60 : UInt8) ∧
      yzHigh y.high z.high &&& (0x40 : UInt8) = (z.high <<< 2) &&& (0x40 : UInt8) ∧ yzHigh y.high z.high &&& 0x80 = 0 := by
  obtain ⟨b, isY, -⟩ := y.high_range
  obtain ⟨c, isZ, -⟩ := z.high_range
  rw [isY, isZ]
  clear isY isZ
  revert b c
  decide +kernel

theorem zHigh_joined (z : Reading) :
    (z.high <<< 5).toNat <<< 3 ||| (z.high <<< 2 &&& (0x60 : UInt8)).toNat <<< 6 = (z.high &&& 0x1f).toNat <<< 8 ∧
      (z.high <<< 2 &&& (0x40 : UInt8)).toNat <<< 7 = (z.high &&& 0x10).toNat <<< 9 := by
  obtain ⟨c, isZ, -⟩ := z.high_range
  rw [isZ]
  clear isZ
  revert c
  decide

theorem Reading.value (x : Reading) :
    ((x.low.toNat ||| (x.high &&& 0x1f).toNat <<< 8 : Nat) - ((x.high &&& 0x10).toNat <<< 9 : Nat) : Int) = x := by
  obtain ⟨h, isHigh, isValue⟩ := x.high_range
  have high : ∀ h : Fin 32, ((UInt8.ofInt ((h : Nat) - 16) &&& 0x1f).toNat <<< 8 : Nat) -
      ((UInt8.ofInt ((h : Nat) - 16) &&& 0x10).toNat <<< 9 : Nat) = (((h : Nat) - 16) * 256 : Int) := by
    decide
  have low : (x.low.toNat : Int) = x.val % 256 := by
    rw [Reading.low, UInt8.ofInt, UInt8.toNat_ofNat']
    omega
  rw [isHigh, Nat.or_comm, ← Nat.shiftLeft_add_eq_or_of_lt x.low.toNat_lt, Int.natCast_add, low]
  have := high h
  omega

theorem decodeRecord_readings (x y z : Reading) :
    decodeRecord x.low y.low z.low (xzHigh x.high z.high) (yzHigh y.high z.high) = some (x.val, y.val, z.val) := by
  obtain ⟨xLow, xSign, zLow⟩ := xzHigh_high x z
  obtain ⟨yLow, ySign, zMiddle, zSign, noError⟩ := yzHigh_high y z
  rw [decodeRecord, if_neg (not_not.mpr noError), xLow, xSign, yLow, ySign, zLow, zMiddle, zSign, Nat.or_assoc,
    (zHigh_joined z).1, (zHigh_joined z).2, x.value, y.value, z.value]

theorem records_append {d : Bytes} (whole : 5 ∣ d.length) (more : Bytes) : records (d ++ more) = records d ++ records more := by
  fun_induction records d with
  | case1 xlow ylow zlow xzhigh yzhigh d ih =>
    simp only [length_cons] at whole
    simp only [cons_append, records]
    rw [ih (by omega)]
  | case2 d short =>
    have none : d = [] := by
      rcases d with _ | ⟨a, _ | ⟨b, _ | ⟨c, _ | ⟨e, _ | ⟨f, d⟩⟩⟩⟩⟩
      · rfl
      · simp at whole
      · simp at whole
      · simp at whole
      · simp at whole
      · exact absurd rfl (short a b c e f d)
    rw [none]
    rfl

def Reply.decoded (msg : Reply) : Option (Int × Int × Int) :=
  if msg.isError then none
  else decodeRecord msg.x0 msg.y0 msg.z0 (xzHigh msg.x1 msg.z1) (yzHigh msg.y1 msg.z1)

theorem records_record (msg : Reply) : records msg.record = [msg.decoded] := by
  unfold Reply.record Reply.decoded
  split <;> rfl

theorem extractSamples_measure (replies : List Reply) {ax : Adxl345} (whole : 5 ∣ ax.data.length) :
    extractSamples (measure ax replies) = records ax.data ++ replies.map Reply.decoded := by
  induction replies generalizing ax with
  | nil =>
    rw [measure]
    split
    · simp [extractSamples, adxlReport]
    · rename_i empty
      rw [eq_nil_of_length_eq_zero (not_not.mp empty)]
      rfl
  | cons msg replies ih =>
    have grown : records (ax.data ++ msg.record) = records ax.data ++ [msg.decoded] := by
      rw [records_append whole, records_record]
    have length : (ax.data ++ msg.record).length = ax.data.length + 5 := by
      rw [length_append, Reply.record]
      split <;> rfl
    rw [measure, extractSamples, flatMap_append, ← extractSamples, ← extractSamples, map_cons,
      ← singleton_append, ← append_assoc, ← grown]
    simp only [adxlQuery]
    split
    · rw [ih (by exact Nat.dvd_zero 5)]
      simp [extractSamples, adxlReport, records]
    · rw [ih (by simp only [length]; omega)]
      rfl

/-- What a query can find: readings with valid FIFO bytes, or a data error. -/
inductive Sample where
  | readings (x y z : Reading) (fifoStatus : { status : UInt8 // status &&& 0x7f ≤ 32 })
  | error (msg : { msg : Reply // msg.isError = true })

def Sample.reply : Sample → Reply
  | .readings x y z fifoStatus => deliver x y z fifoStatus
  | .error msg => msg

def Sample.value : Sample → Option (Int × Int × Int)
  | .readings x y z _ => some (x.val, y.val, z.val)
  | .error _ => none

/-- **Samples survive packing.** Readings pass the test of the MCU, and the host finds the readings and the errors of a
measurement in their order. -/
theorem samples_survive (sequence limitCount : UInt16) (samples : List Sample) :
    (∀ (x y z : Reading) (fifoStatus : UInt8), fifoStatus &&& 0x7f ≤ 32 → (deliver x y z fifoStatus).isError = false) ∧
      extractSamples (measure ⟨sequence, limitCount, []⟩ (samples.map Sample.reply)) = samples.map Sample.value := by
  refine ⟨fun x y z _ valid => not_isError_deliver x y z valid, ?_⟩
  rw [extractSamples_measure _ (by exact Nat.dvd_zero 5), map_map]
  refine map_congr_left (fun sample _ => ?_)
  cases sample with
  | readings x y z fifoStatus =>
    simp only [Function.comp, Sample.reply, Reply.decoded, not_isError_deliver x y z fifoStatus.2, Bool.false_eq_true, if_false]
    exact decodeRecord_readings x y z
  | error msg => simp [Sample.reply, Reply.decoded, msg.2, Sample.value]

end MagnetoX.Mcu.Accel
