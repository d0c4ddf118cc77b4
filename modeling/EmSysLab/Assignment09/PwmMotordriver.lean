import EmSysLab.Clocked.Period
import Mathlib.Tactic.Common

/-!
# The PWM driver of assignment_09

`PWM_Motordriver.v` with its three parameters. All counters have 32 bits and the duty is
compared as it is computed, in 32 unsigned bits; the duty register and the sampled speed
are there for the waveform only.
-/
namespace EmSysLab.Assignment09

open Clocked

structure PwmParams where
  speedDivider : BitVec 32 := 5
  clkFrequency : BitVec 32 := 50000000
  pwmFrequency : BitVec 32 := 20000

namespace PwmParams

def pwmPeriodCount (p : PwmParams) : BitVec 32 := p.clkFrequency.sdiv p.pwmFrequency

/-- The duty threshold for a speed in percent, capped at 100. -/
def dutyCycle (p : PwmParams) (speed : BitVec 8) : BitVec 32 :=
  -- a zero divisor gives zero here and no value at all in Verilog
  if (100 : BitVec 32) < speed.setWidth 32 then 100 * p.pwmPeriodCount / (100 * p.speedDivider)
  else speed.setWidth 32 * p.pwmPeriodCount / (100 * p.speedDivider)

end PwmParams

/-- The control inputs of the driver. -/
structure PwmInput where
  enable : Bool
  dir : Bool
  brake : Bool
  speed : BitVec 8
  deriving DecidableEq, Repr

/-- The registers of the driver. -/
structure PwmMotordriver where
  speedPercentage : BitVec 7
  loopCount : BitVec 32
  dutyCycleLoop : BitVec 32
  pitchDirA : Bool
  pitchDirB : Bool
  pitchPwmVal : Bool
  deriving DecidableEq, Repr

namespace PwmMotordriver

/-- Every register is declared with the value zero. -/
def powerUp : PwmMotordriver := ⟨0, 0, 0, false, false, false⟩

/-- The comparator on the current duty. -/
def pwmVal (d : PwmMotordriver) (dutyCycle : BitVec 32) : Bool :=
  if dutyCycle = 0 then false else decide (d.loopCount < dutyCycle)

/-- One rising edge of clk. -/
def posedgeClk (p : PwmParams) (d : PwmMotordriver) (i : PwmInput) : PwmMotordriver :=
  let dutyCycle := p.dutyCycle i.speed
  let next : PwmMotordriver :=
    { d with
      loopCount := if p.pwmPeriodCount - 1 ≤ d.loopCount then 0 else d.loopCount + 1
      speedPercentage := if (100 : BitVec 8) < i.speed then 100 else i.speed.setWidth 7
      dutyCycleLoop := dutyCycle }
  if !i.enable then { next with pitchDirA := false, pitchDirB := false, pitchPwmVal := false }
  else if i.brake then
    { next with pitchDirA := false, pitchDirB := false, pitchPwmVal := d.pwmVal dutyCycle }
  else if i.dir then
    { next with pitchDirA := true, pitchDirB := false, pitchPwmVal := d.pwmVal dutyCycle }
  else { next with pitchDirA := false, pitchDirB := true, pitchPwmVal := d.pwmVal dutyCycle }

def Reachable (p : PwmParams) (d : PwmMotordriver) : Prop :=
  ∃ xs, d = run (posedgeClk p) powerUp xs

/-! ## One edge -/

variable (p : PwmParams) (d : PwmMotordriver) (i : PwmInput)

/-- What every register holds after the edge. -/
theorem posedgeClk_eq : d.posedgeClk p i =
    { loopCount := if p.pwmPeriodCount - 1 ≤ d.loopCount then 0 else d.loopCount + 1
      speedPercentage := if (100 : BitVec 8) < i.speed then 100 else i.speed.setWidth 7
      dutyCycleLoop := p.dutyCycle i.speed
      pitchDirA := i.enable && !i.brake && i.dir
      pitchDirB := i.enable && !i.brake && !i.dir
      pitchPwmVal := i.enable && d.pwmVal (p.dutyCycle i.speed) } := by
  unfold posedgeClk
  cases i.enable with
  | false => rfl
  | true => cases i.brake <;> cases i.dir <;> rfl

@[simp] theorem posedgeClk_loopCount : (d.posedgeClk p i).loopCount =
    if p.pwmPeriodCount - 1 ≤ d.loopCount then 0 else d.loopCount + 1 := by
  rw [posedgeClk_eq]

@[simp] theorem posedgeClk_pitchDirA :
    (d.posedgeClk p i).pitchDirA = (i.enable && !i.brake && i.dir) := by
  rw [posedgeClk_eq]

@[simp] theorem posedgeClk_pitchDirB :
    (d.posedgeClk p i).pitchDirB = (i.enable && !i.brake && !i.dir) := by
  rw [posedgeClk_eq]

@[simp] theorem posedgeClk_pitchPwmVal :
    (d.posedgeClk p i).pitchPwmVal = (i.enable && d.pwmVal (p.dutyCycle i.speed)) := by
  rw [posedgeClk_eq]

theorem pwmVal_eq (dutyCycle : BitVec 32) :
    d.pwmVal dutyCycle = decide (d.loopCount.toNat < dutyCycle.toNat) := comparator_eq _ _

end PwmMotordriver

/-! ## The period -/

namespace PwmParams

/-- The period has at least one cycle. -/
def Positive (p : PwmParams) : Prop := 0 < p.pwmPeriodCount.toInt

instance (p : PwmParams) : Decidable p.Positive := inferInstanceAs (Decidable (_ < _))

variable {p : PwmParams}

theorem Positive.toNat (h : p.Positive) :
    0 < p.pwmPeriodCount.toNat ∧ p.pwmPeriodCount.toNat < 2 ^ 31 := by
  obtain ⟨hpos, hlt⟩ := toNat_of_toInt_pos h
  exact ⟨hpos, by omega⟩

end PwmParams

namespace PwmMotordriver

variable {p : PwmParams} {d : PwmMotordriver}

/-- The counter stays below the period. -/
def InPeriod (p : PwmParams) (d : PwmMotordriver) : Prop :=
  d.loopCount.toNat < p.pwmPeriodCount.toNat

/-- The counter steps through the period. -/
theorem posedgeClk_toNat (hd : d.InPeriod p) (i : PwmInput) :
    (d.posedgeClk p i).loopCount.toNat = (d.loopCount.toNat + 1) % p.pwmPeriodCount.toNat := by
  rw [posedgeClk_loopCount]
  exact toNat_wrap hd

theorem inPeriod_posedgeClk (hp : p.Positive) (hd : d.InPeriod p) (i : PwmInput) :
    (d.posedgeClk p i).InPeriod p := by
  unfold InPeriod
  rw [posedgeClk_toNat hd]
  exact Nat.mod_lt _ hp.toNat.1

theorem inPeriod_powerUp (hp : p.Positive) : powerUp.InPeriod p := hp.toNat.1

theorem Reachable.inPeriod (hp : p.Positive) (h : d.Reachable p) : d.InPeriod p := by
  obtain ⟨xs, rfl⟩ := h
  exact run_invariant (P := InPeriod p) (fun _ i hd => inPeriod_posedgeClk hp hd i)
    (inPeriod_powerUp hp) xs

theorem inPeriod_before (hp : p.Positive) (hd : d.InPeriod p) (x : ℕ → PwmInput) (k : ℕ) :
    (before (posedgeClk p) d x k).InPeriod p := by
  induction k with
  | zero => exact hd
  | succ k ih => exact inPeriod_posedgeClk hp ih (x k)

end PwmMotordriver

end EmSysLab.Assignment09
