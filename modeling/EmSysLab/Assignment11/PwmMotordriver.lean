import EmSysLab.Clocked.Period
import Mathlib.Data.Nat.Log

/-!
# The PWM driver of assignment_11

`PWM_motordriver.v` with its two parameters. The counter and the duty register are as
wide as the period needs; mixed expressions are computed in 32 unsigned bits and
truncated on assignment. The assignments to the input `speed` and to the undeclared
`speed_percentage` drive no output and are left out.
-/
namespace EmSysLab.Assignment11

open Clocked

structure PwmParams where
  clkFrequency : BitVec 32 := 12000000
  pwmFrequency : BitVec 32 := 20000

namespace PwmParams

def pwmPeriodCount (p : PwmParams) : BitVec 32 := p.clkFrequency.sdiv p.pwmFrequency

def pwmCntWidth (p : PwmParams) : ℕ :=
  if 0 < Nat.clog 2 (p.pwmPeriodCount + 1).toNat then Nat.clog 2 (p.pwmPeriodCount + 1).toNat
  else 1

/-- The duty threshold for a speed in percent. -/
def dutyCycleCalc (p : PwmParams) (speed : BitVec 6) : BitVec p.pwmCntWidth :=
  (speed.setWidth 32 * p.pwmPeriodCount / 100).setWidth p.pwmCntWidth

end PwmParams

/-- The control inputs of the driver. -/
structure PwmInput where
  enable : Bool
  dir : Bool
  brake : Bool
  speed : BitVec 6

/-- The registers of the driver. -/
structure PwmMotordriver (p : PwmParams) where
  loopCount : BitVec p.pwmCntWidth
  dutyCycleLoop : BitVec p.pwmCntWidth
  dirA : Bool
  dirB : Bool
  pwmOut : Bool
  deriving DecidableEq

namespace PwmMotordriver

variable {p : PwmParams}

/-- The reset branch. -/
def reset (p : PwmParams) : PwmMotordriver p := ⟨0, 0, false, false, false⟩

/-- The comparator on the registered duty. -/
def pwmOutCalc (d : PwmMotordriver p) : Bool :=
  if d.dutyCycleLoop = 0 then false else decide (d.loopCount < d.dutyCycleLoop)

/-- One rising edge of clk. -/
def posedgeClk (d : PwmMotordriver p) (rstN : Bool) (i : PwmInput) : PwmMotordriver p :=
  if !rstN then reset p
  else
    let next : PwmMotordriver p :=
      { d with
        loopCount :=
          if p.pwmPeriodCount - 1 ≤ d.loopCount.setWidth 32 then 0
          else (d.loopCount.setWidth 32 + 1).setWidth p.pwmCntWidth
        dutyCycleLoop := p.dutyCycleCalc i.speed }
    if !i.enable then { next with dirA := false, dirB := false, pwmOut := false }
    else if i.brake then { next with dirA := false, dirB := false, pwmOut := d.pwmOutCalc }
    else if i.dir then { next with dirA := true, dirB := false, pwmOut := d.pwmOutCalc }
    else { next with dirA := false, dirB := true, pwmOut := d.pwmOutCalc }

/-! ## One edge out of reset -/

variable (d : PwmMotordriver p) (i : PwmInput)

/-- What every register holds after the edge. -/
theorem posedgeClk_true : d.posedgeClk true i =
    { loopCount :=
        if p.pwmPeriodCount - 1 ≤ d.loopCount.setWidth 32 then 0
        else (d.loopCount.setWidth 32 + 1).setWidth p.pwmCntWidth
      dutyCycleLoop := p.dutyCycleCalc i.speed
      dirA := i.enable && !i.brake && i.dir
      dirB := i.enable && !i.brake && !i.dir
      pwmOut := i.enable && d.pwmOutCalc } := by
  unfold posedgeClk
  rw [if_neg (by decide)]
  cases i.enable with
  | false => rfl
  | true => cases i.brake <;> cases i.dir <;> rfl

@[simp] theorem posedgeClk_dutyCycleLoop :
    (d.posedgeClk true i).dutyCycleLoop = p.dutyCycleCalc i.speed := by
  rw [posedgeClk_true]

@[simp] theorem posedgeClk_loopCount : (d.posedgeClk true i).loopCount =
    if p.pwmPeriodCount - 1 ≤ d.loopCount.setWidth 32 then 0
    else (d.loopCount.setWidth 32 + 1).setWidth p.pwmCntWidth := by
  rw [posedgeClk_true]

@[simp] theorem posedgeClk_dirA :
    (d.posedgeClk true i).dirA = (i.enable && !i.brake && i.dir) := by
  rw [posedgeClk_true]

@[simp] theorem posedgeClk_dirB :
    (d.posedgeClk true i).dirB = (i.enable && !i.brake && !i.dir) := by
  rw [posedgeClk_true]

@[simp] theorem posedgeClk_pwmOut :
    (d.posedgeClk true i).pwmOut = (i.enable && d.pwmOutCalc) := by
  rw [posedgeClk_true]

theorem pwmOutCalc_eq : d.pwmOutCalc = decide (d.loopCount.toNat < d.dutyCycleLoop.toNat) :=
  comparator_eq _ _

/-! ## The period -/

end PwmMotordriver

namespace PwmParams

/-- The period has at least one cycle. -/
def Positive (p : PwmParams) : Prop := 0 < p.pwmPeriodCount.toInt

instance (p : PwmParams) : Decidable p.Positive := inferInstanceAs (Decidable (_ < _))

/-- The period is not empty and small enough for the 32-bit duty product. -/
def Sized (p : PwmParams) : Prop := 0 < p.pwmPeriodCount.toNat ∧ p.pwmPeriodCount.toNat < 2 ^ 26

/-- 12 MHz over 20 kHz. -/
theorem pwmPeriodCount_default : ({} : PwmParams).pwmPeriodCount = 600 := by decide

theorem sized_default : ({} : PwmParams).Sized := by
  unfold Sized
  rw [pwmPeriodCount_default]
  decide

variable {p : PwmParams}

theorem Positive.toNat (h : p.Positive) :
    0 < p.pwmPeriodCount.toNat ∧ p.pwmPeriodCount.toNat < 2 ^ 31 := by
  obtain ⟨hpos, hlt⟩ := toNat_of_toInt_pos h
  exact ⟨hpos, by omega⟩

theorem Sized.positive (h : p.Sized) : p.Positive := by
  obtain ⟨hpos, hP⟩ := h
  unfold Positive
  rw [BitVec.toInt_eq_toNat_of_lt (by omega)]
  exact_mod_cast hpos

/-- The counter has room for the period. -/
theorem Positive.lt_pow (h : p.Positive) : p.pwmPeriodCount.toNat < 2 ^ p.pwmCntWidth := by
  obtain ⟨-, hP⟩ := h.toNat
  have hsucc : (p.pwmPeriodCount + 1).toNat = p.pwmPeriodCount.toNat + 1 := by
    rw [BitVec.toNat_add_of_lt (by simp; omega)]
    rfl
  have hle : p.pwmPeriodCount.toNat + 1 ≤ 2 ^ Nat.clog 2 (p.pwmPeriodCount.toNat + 1) :=
    Nat.le_pow_clog (by decide) _
  unfold pwmCntWidth
  rw [hsucc]
  split
  · omega
  · rename_i hw
    rw [Nat.eq_zero_of_not_pos hw] at hle
    omega

/-- The threshold is the percentage of the period, rounded down. -/
theorem Sized.toNat_dutyCycleCalc (h : p.Sized) (speed : BitVec 6) :
    (p.dutyCycleCalc speed).toNat = speed.toNat * p.pwmPeriodCount.toNat / 100 := by
  have hspeed : speed.toNat < 64 := speed.isLt
  have hP := h.2
  have hmul : speed.toNat * p.pwmPeriodCount.toNat ≤ 63 * p.pwmPeriodCount.toNat :=
    Nat.mul_le_mul_right _ (by omega)
  have hw := h.positive.lt_pow
  have hext : (speed.setWidth 32).toNat = speed.toNat := BitVec.toNat_setWidth_of_le (by decide)
  unfold dutyCycleCalc
  rw [BitVec.toNat_setWidth, BitVec.toNat_udiv, BitVec.toNat_mul, hext,
    Nat.mod_eq_of_lt (a := speed.toNat * _) (by omega)]
  exact Nat.mod_eq_of_lt (by
    change speed.toNat * p.pwmPeriodCount.toNat / 100 < _
    omega)

end PwmParams

namespace PwmMotordriver

variable {p : PwmParams}

/-- The counter stays below the period: true at power-up and kept by every edge and reset. -/
def InPeriod (d : PwmMotordriver p) : Prop := d.loopCount.toNat < p.pwmPeriodCount.toNat

theorem inPeriod_reset (hp : p.Positive) : (reset p).InPeriod := by
  unfold InPeriod reset
  exact hp.toNat.1

/-- Out of reset the counter steps through the period, and the narrow register has room. -/
theorem posedgeClk_toNat (hp : p.Positive) {d : PwmMotordriver p} (hd : d.InPeriod) (i : PwmInput) :
    (d.posedgeClk true i).loopCount.toNat = (d.loopCount.toNat + 1) % p.pwmPeriodCount.toNat := by
  have hlt : d.loopCount.toNat < p.pwmPeriodCount.toNat := hd
  obtain ⟨hpos, hP⟩ := hp.toNat
  have hext : (d.loopCount.setWidth 32).toNat = d.loopCount.toNat := by
    rw [BitVec.toNat_setWidth, Nat.mod_eq_of_lt (by omega)]
  have hnext := toNat_wrap (P := p.pwmPeriodCount) (c := d.loopCount.setWidth 32) (by rwa [hext])
  have hroom : (d.loopCount.toNat + 1) % p.pwmPeriodCount.toNat < 2 ^ p.pwmCntWidth :=
    Nat.lt_trans (Nat.mod_lt _ hpos) hp.lt_pow
  rw [hext] at hnext
  rw [posedgeClk_loopCount, ← Nat.mod_eq_of_lt hroom, ← hnext, ← BitVec.toNat_setWidth]
  split
  · simp
  · rfl

theorem inPeriod_posedgeClk (hp : p.Positive) {d : PwmMotordriver p} (hd : d.InPeriod)
    (rstN : Bool) (i : PwmInput) : (d.posedgeClk rstN i).InPeriod := by
  cases rstN with
  | false => exact inPeriod_reset hp
  | true =>
    unfold InPeriod
    rw [posedgeClk_toNat hp hd]
    exact Nat.mod_lt _ hp.toNat.1

end PwmMotordriver

end EmSysLab.Assignment11
