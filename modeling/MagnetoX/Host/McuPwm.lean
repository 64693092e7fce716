import MagnetoX.Mcu.Gpio.PwmOut
import Mathlib.Data.Rat.Floor

/-!
Owns the values that `MCU_pwm` of `klippy/mcu.py` configures and sends for a hardware PWM pin, on exact
rationals.

`_build_config` truncates the scaled values of `config_pwm_out`, and rounds those of `queue_pwm_out`.
-/

namespace MagnetoX.Host.Pwm

open Mcu.Pwm

/-- `int` of a number, and `%d` of it. -/
def pyInt (x : ℚ) : Int := if 0 ≤ x then x.floor else x.ceil

structure McuPwm where
  invert : Bool
  cycleTime : ℚ
  maxDuration : ℚ
  startValue : ℚ
  shutdownValue : ℚ
  isStatic : Bool
deriving DecidableEq, Repr

/-- What the pin reads of its MCU; `lastClock` is the clock soon after the configuration. -/
structure Mcu where
  freq : ℚ
  pwmMax : Nat
  lastClock : Int

def Mcu.secondsToClock (mcu : Mcu) (time : ℚ) : Int := pyInt (time * mcu.freq)

/-- The commands that `_build_config` adds; the second one is sent after a restart too. -/
inductive ConfigCmd where
  | setPwmOut (cycleTicks value : Int)
  | configPwmOut (cycleTicks value defaultValue maxDuration : Int)
  | queuePwmOut (clock value : Int)
deriving DecidableEq, Repr

def level (invert : Bool) (value : ℚ) : ℚ := if invert then 1 - value else value

def McuPwm.setupStartValue (pin : McuPwm) (startValue shutdownValue : ℚ) (isStatic : Bool) : Except String McuPwm :=
  if isStatic ∧ startValue ≠ shutdownValue then .error "Static pin can not have shutdown value"
  else .ok { pin with
    startValue := max 0 (min 1 (level pin.invert startValue))
    shutdownValue := max 0 (min 1 (level pin.invert shutdownValue))
    isStatic }

def McuPwm.buildConfig (pin : McuPwm) (mcu : Mcu) : Except String (List ConfigCmd) :=
  if pin.maxDuration ≠ 0 ∧ pin.startValue ≠ pin.shutdownValue then
    .error "Pin with max duration must have start value equal to shutdown value"
  else
    let cycleTicks := mcu.secondsToClock pin.cycleTime
    let mdurTicks := mcu.secondsToClock pin.maxDuration
    if mdurTicks ≥ 2 ^ 31 then .error "PWM pin max duration too large"
    else if pin.isStatic then .ok [.setPwmOut cycleTicks (pyInt (pin.startValue * mcu.pwmMax))]
    else .ok [.configPwmOut cycleTicks (pyInt (pin.startValue * mcu.pwmMax)) (pyInt (pin.shutdownValue * mcu.pwmMax))
        mdurTicks,
      .queuePwmOut mcu.lastClock (pyInt (pin.startValue * mcu.pwmMax + 1 / 2))]

def McuPwm.setPwm (pin : McuPwm) (mcu : Mcu) (value : ℚ) : Int :=
  pyInt (max 0 (min 1 (level pin.invert value)) * mcu.pwmMax + 1 / 2)

theorem pyInt_of_nonneg {x : ℚ} (nonneg : 0 ≤ x) : pyInt x = ⌊x⌋ := if_pos nonneg

/-- A number is rounded to what truncation makes of it if its fractional part is less than a half. -/
theorem floor_add_half {x : ℚ} : ⌊x + 1 / 2⌋ = ⌊x⌋ ↔ Int.fract x < 1 / 2 := by
  rw [Int.floor_eq_iff, Int.fract]
  have lower := Int.floor_le x
  constructor
  · rintro ⟨-, upper⟩
    linarith
  · intro less
    constructor <;> linarith

/-- The truncated and the rounded value of a level. -/
theorem rounds_iff {invert : Bool} {value : ℚ} (range : 0 ≤ value ∧ value ≤ 1) (pwmMax : Nat) :
    pyInt (max 0 (min 1 (level invert value)) * pwmMax + 1 / 2) =
        pyInt (max 0 (min 1 (level invert value)) * pwmMax) ↔
      Int.fract (level invert value * pwmMax) < 1 / 2 := by
  have inside : 0 ≤ level invert value ∧ level invert value ≤ 1 := by
    unfold level
    split
    · constructor <;> linarith
    · exact range
  have nonneg : 0 ≤ level invert value * pwmMax := mul_nonneg inside.1 (Nat.cast_nonneg _)
  rw [min_eq_right inside.2, max_eq_right inside.1, pyInt_of_nonneg nonneg, pyInt_of_nonneg (by linarith),
    floor_add_half]

/-- **Safe values.** `set_pwm` with the shutdown value sends the configured default, which does not start
the safety timeout, and the queued start value is the configured one, exactly if the fractional parts of the
two scaled values are less than a half. -/
theorem safe_value_iff {pin configured : McuPwm} {mcu : Mcu} {startValue shutdownValue : ℚ}
    {cycleTicks value defaultValue maxDuration clock svalue : Int}
    (start : 0 ≤ startValue ∧ startValue ≤ 1) (shut : 0 ≤ shutdownValue ∧ shutdownValue ≤ 1)
    (sets : pin.setupStartValue startValue shutdownValue false = .ok configured)
    (builds : configured.buildConfig mcu =
      .ok [.configPwmOut cycleTicks value defaultValue maxDuration, .queuePwmOut clock svalue]) :
    (configured.setPwm mcu shutdownValue = defaultValue ∧ svalue = value ∧
      ∀ p : PwmOut, p.defaultValue = defaultValue.toNat % 2 ^ 16 →
        p.mq = [pwmMove clock (configured.setPwm mcu shutdownValue).toNat] →
          (pwmEvent p).map (·.scheduled) = .ok false) ↔
      Int.fract (level pin.invert shutdownValue * mcu.pwmMax) < 1 / 2 ∧
        Int.fract (level pin.invert startValue * mcu.pwmMax) < 1 / 2 := by
  cases sets
  simp only [McuPwm.buildConfig, ge_iff_le, Bool.false_eq_true, if_false] at builds
  split_ifs at builds
  cases builds
  rw [← rounds_iff shut, ← rounds_iff start]
  constructor
  · exact fun ⟨sent, queued, _⟩ => ⟨sent, queued⟩
  · intro ⟨sent, queued⟩
    refine ⟨sent, queued, fun p isDefault moves => ?_⟩
    rw [← sent] at isDefault
    simp [pwmEvent, moves, isDefault, pwmMove, McuPwm.setPwm, Except.map]

def fan : McuPwm := ⟨false, 1 / 100, 2, 0, 0, false⟩

/-- On an inverted pin a quarter is 191.25 of 255, which is rounded to what is configured. -/
theorem safe_value_quarter :
    let quarter : McuPwm := { fan with invert := true, startValue := 3 / 4, shutdownValue := 3 / 4 }
    quarter.setPwm ⟨1000000, 255, 0⟩ (1 / 4) = 191 := by
  intro quarter
  have sets : ({ fan with invert := true } : McuPwm).setupStartValue (1 / 4) (1 / 4) false = .ok quarter := by
    decide +kernel
  have builds : quarter.buildConfig ⟨1000000, 255, 0⟩ =
      .ok [.configPwmOut 10000 191 191 2000000, .queuePwmOut 0 191] := by
    decide +kernel
  exact ((safe_value_iff (by decide +kernel) (by decide +kernel) sets builds).mpr (by decide +kernel)).1

/-- Half of 255 is configured as 127 and sent as 128: the safe value starts the safety timeout. -/
theorem half_starts_timeout :
    let half : McuPwm := { fan with startValue := 1 / 2, shutdownValue := 1 / 2 }
    fan.setupStartValue (1 / 2) (1 / 2) false = .ok half ∧
      half.buildConfig ⟨1000000, 255, 0⟩ = .ok [.configPwmOut 10000 127 127 2000000, .queuePwmOut 0 128] ∧
      half.setPwm ⟨1000000, 255, 0⟩ (1 / 2) = 128 ∧
      (pwmEvent { commandConfigPwmOut 127 127 2000000 with mq := [pwmMove 0 128] }).map (·.func) =
        .ok .pwmEndEvent := by
  refine ⟨?_, ?_, ?_, rfl⟩ <;> decide +kernel

end MagnetoX.Host.Pwm
