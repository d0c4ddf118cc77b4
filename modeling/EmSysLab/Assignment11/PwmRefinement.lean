import EmSysLab.Assignment09.PwmMotordriver
import EmSysLab.Assignment11.PwmMotordriver

/-!
# The PWM driver of assignment_11 refines that of assignment_09

The new driver compares with a registered duty, so it lags the old one by one clock on the
speed input and on nothing else. Its counter, duty register and duty wire are narrowed to
what the period needs, and none of them ever holds less than the 32-bit original.
-/
namespace EmSysLab.Assignment11

open Clocked

namespace PwmParams

/-- The old driver at the same frequencies, without a cap. -/
def assignment09 (p : PwmParams) : Assignment09.PwmParams where
  speedDivider := 1
  clkFrequency := p.clkFrequency
  pwmFrequency := p.pwmFrequency

variable {p : PwmParams}

@[simp] theorem pwmPeriodCount_assignment09 :
    p.assignment09.pwmPeriodCount = p.pwmPeriodCount := rfl

@[simp] theorem speedDivider_assignment09 : p.assignment09.speedDivider = 1 := rfl

/-- Six bits of speed never reach the old driver's clamp. -/
theorem dutyCycle_assignment09 (speed : BitVec 6) :
    p.assignment09.dutyCycle (speed.setWidth 8) = speed.setWidth 32 * p.pwmPeriodCount / 100 := by
  have hspeed : speed.toNat < 64 := speed.isLt
  have hext : (speed.setWidth 8).setWidth 32 = speed.setWidth 32 := by
    apply BitVec.eq_of_toNat_eq
    rw [BitVec.toNat_setWidth_of_le (by decide), BitVec.toNat_setWidth_of_le (by decide),
      BitVec.toNat_setWidth_of_le (by decide)]
  have hclamp : ¬(100 : BitVec 32) < speed.setWidth 32 := by
    rw [BitVec.lt_def, BitVec.toNat_setWidth_of_le (by decide),
      show (100 : BitVec 32).toNat = 100 from rfl]
    omega
  unfold Assignment09.PwmParams.dutyCycle
  rw [hext, if_neg hclamp, pwmPeriodCount_assignment09, speedDivider_assignment09]
  rfl

/-- The narrowed duty wire loses nothing, also where the product wraps. -/
theorem Positive.toNat_dutyCycleCalc (hp : p.Positive) (speed : BitVec 6) :
    (p.dutyCycleCalc speed).toNat = (p.assignment09.dutyCycle (speed.setWidth 8)).toNat := by
  have hspeed : speed.toNat < 64 := speed.isLt
  have hext : (speed.setWidth 32).toNat = speed.toNat := BitVec.toNat_setWidth_of_le (by decide)
  have hmul : speed.toNat * p.pwmPeriodCount.toNat ≤ 63 * p.pwmPeriodCount.toNat :=
    Nat.mul_le_mul_right _ (by omega)
  have hmod : speed.toNat * p.pwmPeriodCount.toNat % 2 ^ 32 ≤
      speed.toNat * p.pwmPeriodCount.toNat := Nat.mod_le _ _
  have hle : (speed.setWidth 32 * p.pwmPeriodCount / 100).toNat ≤ p.pwmPeriodCount.toNat := by
    rw [BitVec.toNat_udiv, BitVec.toNat_mul, hext, show (100 : BitVec 32).toNat = 100 from rfl]
    omega
  rw [dutyCycle_assignment09, dutyCycleCalc, BitVec.toNat_setWidth]
  exact Nat.mod_eq_of_lt (Nat.lt_of_le_of_lt hle hp.lt_pow)

end PwmParams

/-! ## Lock step -/

/-- The speed one clock late, zero at first. -/
def delayedSpeed (x : ℕ → PwmInput) : ℕ → BitVec 6
  | 0 => 0
  | k + 1 => (x k).speed

/-- The inputs of the old driver. -/
def delayed (x : ℕ → PwmInput) (k : ℕ) : Assignment09.PwmInput where
  enable := (x k).enable
  dir := (x k).dir
  brake := (x k).brake
  speed := (delayedSpeed x k).setWidth 8

/-- The old driver is in the new one's state, and the duty register holds what the old driver
computes from the speed of the clock before. -/
structure LockStep {p : PwmParams} (speed : BitVec 6) (d : PwmMotordriver p)
    (e : Assignment09.PwmMotordriver) : Prop where
  inPeriod : d.InPeriod
  loopCount : d.loopCount.toNat = e.loopCount.toNat
  duty : d.dutyCycleLoop.toNat = (p.assignment09.dutyCycle (speed.setWidth 8)).toNat
  dirA : d.dirA = e.pitchDirA
  dirB : d.dirB = e.pitchDirB
  pwmOut : d.pwmOut = e.pitchPwmVal

variable {p : PwmParams}

theorem lockStep_reset (hp : p.Positive) :
    LockStep 0 (PwmMotordriver.reset p) Assignment09.PwmMotordriver.powerUp where
  inPeriod := PwmMotordriver.inPeriod_reset hp
  loopCount := rfl
  duty := by
    rw [PwmParams.dutyCycle_assignment09, BitVec.toNat_udiv, BitVec.toNat_mul]
    simp [PwmMotordriver.reset]
  dirA := rfl
  dirB := rfl
  pwmOut := rfl

/-- One clock: the old driver takes the speed of the clock before. -/
theorem LockStep.posedgeClk (hp : p.Positive) {speed : BitVec 6} {d : PwmMotordriver p}
    {e : Assignment09.PwmMotordriver} (h : LockStep speed d e) (i : PwmInput) :
    LockStep i.speed (d.posedgeClk true i)
      (e.posedgeClk p.assignment09 ⟨i.enable, i.dir, i.brake, speed.setWidth 8⟩) where
  inPeriod := PwmMotordriver.inPeriod_posedgeClk hp h.inPeriod true i
  loopCount := by
    have hin : e.InPeriod p.assignment09 := by
      unfold Assignment09.PwmMotordriver.InPeriod
      rw [← h.loopCount, PwmParams.pwmPeriodCount_assignment09]
      exact h.inPeriod
    rw [PwmMotordriver.posedgeClk_toNat hp h.inPeriod,
      Assignment09.PwmMotordriver.posedgeClk_toNat hin, h.loopCount,
      PwmParams.pwmPeriodCount_assignment09]
  duty := by
    rw [PwmMotordriver.posedgeClk_dutyCycleLoop, hp.toNat_dutyCycleCalc]
  dirA := by
    rw [PwmMotordriver.posedgeClk_dirA, Assignment09.PwmMotordriver.posedgeClk_pitchDirA]
  dirB := by
    rw [PwmMotordriver.posedgeClk_dirB, Assignment09.PwmMotordriver.posedgeClk_pitchDirB]
  pwmOut := by
    rw [PwmMotordriver.posedgeClk_pwmOut, Assignment09.PwmMotordriver.posedgeClk_pitchPwmVal,
      PwmMotordriver.pwmOutCalc_eq, Assignment09.PwmMotordriver.pwmVal_eq, h.loopCount, h.duty]

theorem lockStep_before (hp : p.Positive) (x : ℕ → PwmInput) (k : ℕ) :
    LockStep (delayedSpeed x k)
      (before (fun d i => d.posedgeClk true i) (PwmMotordriver.reset p) x k)
      (before (Assignment09.PwmMotordriver.posedgeClk p.assignment09) .powerUp (delayed x) k) := by
  apply before_related (R := fun k d e => LockStep (delayedSpeed x k) d e)
  · exact lockStep_reset hp
  · intro k d e h
    exact h.posedgeClk hp (x k)

/-- **Refinement.** After a reset the new driver is in lock step with the old one on the
delayed speed, and neither its registers nor its duty wire are ever truncated. -/
theorem pwm_refines (p : PwmParams) (hp : p.Positive) (d : PwmMotordriver p) (i : PwmInput)
    (x : ℕ → PwmInput) (k : ℕ) :
    let new := before (fun d i => d.posedgeClk true i) (d.posedgeClk false i) x k
    let old :=
      before (Assignment09.PwmMotordriver.posedgeClk p.assignment09) .powerUp (delayed x) k
    (new.dirA, new.dirB, new.pwmOut) = (old.pitchDirA, old.pitchDirB, old.pitchPwmVal) ∧
      new.loopCount.toNat = old.loopCount.toNat ∧
      new.dutyCycleLoop.toNat = (p.assignment09.dutyCycle (delayed x k).speed).toNat ∧
      (p.dutyCycleCalc (x k).speed).toNat =
        (p.assignment09.dutyCycle ((x k).speed.setWidth 8)).toNat := by
  intro new old
  have h : LockStep (delayedSpeed x k) new old := lockStep_before hp x k
  refine ⟨?_, h.loopCount, h.duty, hp.toNat_dutyCycleCalc _⟩
  rw [h.dirA, h.dirB, h.pwmOut]

/-- The parameters as declared, forward at half speed. -/
theorem pwm_refines_half :
    let x : ℕ → PwmInput := fun _ => ⟨true, true, false, 50⟩
    (before (fun d i => d.posedgeClk true i)
        ((PwmMotordriver.reset {}).posedgeClk false (x 0)) x 2).pwmOut =
      (before (Assignment09.PwmMotordriver.posedgeClk (PwmParams.assignment09 {})) .powerUp
        (delayed x) 2).pitchPwmVal := by
  intro x
  obtain ⟨houts, -⟩ := pwm_refines {} (by decide) (PwmMotordriver.reset {}) (x 0) x 2
  exact congrArg (fun o => o.2.2) houts

end EmSysLab.Assignment11
