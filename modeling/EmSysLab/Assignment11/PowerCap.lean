import EmSysLab.Assignment11.MotorCommand

/-!
# What no traffic can do to the motor

Whatever comes over the wires, the duty register never holds more than 31 hundredths of the
period, and the counter passes each of its values once in a period. So the motor is driven for
at most 31 hundredths of any period that is free of resets, even where commands change the
speed again and again. A reset starts the period anew, and with it the pulse.
-/
namespace EmSysLab.Assignment11

open Serial Clocked

namespace TopEntity

variable {s : TopEntity} {x : Pins}

/-- The driver is not reset at the edge nor since the one before. -/
def Pins.Running (x : Pins) : Prop := x.btn1 = true ∧ x.btn1Fell = false

theorem pwm_running (hx : Pins.Running x) :
    (s.posedgeClk x).pwm = s.pwm.posedgeClk true (pwmInput s.regs.core.cmd) := by
  unfold posedgeClk
  rw [hx.1, hx.2, if_neg Bool.false_ne_true]

/-- A reset at the edge leaves all pins low. -/
theorem pwm_reset (hx : x.btn1 = false) : (s.posedgeClk x).pwm = .reset {} := by
  unfold posedgeClk
  rw [hx]
  rfl

/-- After any edge the pins show the command registers before it, or have been reset. -/
theorem pins_posedgeClk (s : TopEntity) (x : Pins) :
    ((s.posedgeClk x).pitchDirA = true → s.regs.core.cmd.pwmEnable = true ∧
        s.regs.core.cmd.pwmBrake = false ∧ s.regs.core.cmd.pwmDir = true) ∧
      ((s.posedgeClk x).pitchDirB = true → s.regs.core.cmd.pwmEnable = true ∧
        s.regs.core.cmd.pwmBrake = false ∧ s.regs.core.cmd.pwmDir = false) ∧
      ((s.posedgeClk x).pitchPwmVal = true → s.regs.core.cmd.pwmEnable = true) := by
  unfold pitchDirA pitchDirB pitchPwmVal
  cases hbtn : x.btn1 with
  | false =>
    rw [pwm_reset hbtn]
    exact ⟨fun h => absurd h Bool.false_ne_true, fun h => absurd h Bool.false_ne_true,
      fun h => absurd h Bool.false_ne_true⟩
  | true =>
    unfold posedgeClk
    rw [hbtn, PwmMotordriver.posedgeClk_dirA, PwmMotordriver.posedgeClk_dirB,
      PwmMotordriver.posedgeClk_pwmOut]
    simp only [pwmInput, Bool.and_eq_true, Bool.not_eq_true']
    refine ⟨?_, ?_, And.left⟩
    · rintro ⟨⟨henable, hbrake⟩, hdir⟩
      exact ⟨henable, hbrake, hdir⟩
    · rintro ⟨⟨henable, hbrake⟩, hdir⟩
      exact ⟨henable, hbrake, hdir⟩

/-- The duty of the largest speed that a command can set. -/
def maxDuty : ℕ := 186

/-- The duty register holds no more. -/
def Capped (s : TopEntity) : Prop := s.pwm.dutyCycleLoop.toNat ≤ maxDuty

theorem toNat_zero_le (w m : ℕ) : (0 : BitVec w).toNat ≤ m :=
  (Nat.le_of_eq BitVec.toNat_zero).trans (Nat.zero_le m)

/-- Five bits of speed give at most 31 hundredths. -/
theorem capped_posedgeClk (s : TopEntity) (x : Pins) : (s.posedgeClk x).Capped := by
  cases hbtn : x.btn1 with
  | false =>
    unfold Capped
    rw [pwm_reset hbtn]
    exact toNat_zero_le _ _
  | true =>
    have hspeed := s.regs.core.cmd.pwmSpeed.isLt
    have hext : (s.regs.core.cmd.pwmSpeed.setWidth 6).toNat = s.regs.core.cmd.pwmSpeed.toNat := by
      rw [BitVec.toNat_setWidth, Nat.mod_eq_of_lt (by omega)]
    have hP : (600 : BitVec 32).toNat = 600 := rfl
    unfold Capped posedgeClk
    rw [hbtn, PwmMotordriver.posedgeClk_dutyCycleLoop,
      PwmParams.sized_default.toNat_dutyCycleCalc, PwmParams.pwmPeriodCount_default, hP]
    change (s.regs.core.cmd.pwmSpeed.setWidth 6).toNat * 600 / 100 ≤ 186
    rw [hext]
    omega

theorem Reachable.capped (hs : s.Reachable) : s.Capped := by
  obtain ⟨s₀, xs, h₀, rfl⟩ := hs
  refine run_invariant (fun s x _ => capped_posedgeClk s x) ?_ xs
  unfold Capped
  rw [h₀.dutyCycleLoop]
  exact toNat_zero_le _ _

/-- Before every edge of a run the counter is in its period and the duty capped. -/
theorem Reachable.before (hs : s.Reachable) (x : ℕ → Pins) (k : ℕ) :
    (before posedgeClk s x k).pwm.InPeriod ∧ (before posedgeClk s x k).Capped := by
  rw [before_eq_run]
  exact ⟨run_invariant inPeriod_posedgeClk hs.inPeriod _,
    run_invariant (fun s x _ => capped_posedgeClk s x) hs.capped _⟩

end TopEntity

open TopEntity

/-- The motor pins in every run. -/
structure MotorSafe (s : TopEntity) (x : ℕ → Pins) : Prop where
  /-- The two sides of the bridge are never driven together. -/
  one_side : ∀ k, ¬((before posedgeClk s x (k + 1)).pitchDirA = true ∧
    (before posedgeClk s x (k + 1)).pitchDirB = true)
  disabled : ∀ k, (before posedgeClk s x k).regs.core.cmd.pwmEnable = false →
    (before posedgeClk s x (k + 1)).pitchDirA = false ∧
      (before posedgeClk s x (k + 1)).pitchDirB = false ∧
      (before posedgeClk s x (k + 1)).pitchPwmVal = false
  braking : ∀ k, (before posedgeClk s x k).regs.core.cmd.pwmBrake = true →
    (before posedgeClk s x (k + 1)).pitchDirA = false ∧
      (before posedgeClk s x (k + 1)).pitchDirB = false
  /-- In 600 edges without a reset the PWM pin is high after at most 186. -/
  capped : ∀ a, (∀ j < 600, Pins.Running (x (a + j))) →
    ((Finset.range 600).filter fun j =>
      (before posedgeClk s x (a + j + 1)).pitchPwmVal = true).card ≤ maxDuty

theorem pwm_window {s : TopEntity} (hs : s.Reachable) (x : ℕ → Pins) (a : ℕ)
    (hrun : ∀ j < 600, Pins.Running (x (a + j))) :
    ((Finset.range 600).filter fun j =>
      (before posedgeClk s x (a + j + 1)).pitchPwmVal = true).card ≤ maxDuty := by
  have hP : ({} : PwmParams).pwmPeriodCount.toNat = 600 := by
    rw [PwmParams.pwmPeriodCount_default]
    rfl
  have hperiod : ∀ j, (before posedgeClk s x (a + j)).pwm.loopCount.toNat < 600 := by
    intro j
    obtain ⟨hin, -⟩ := hs.before x (a + j)
    unfold PwmMotordriver.InPeriod at hin
    rwa [hP] at hin
  have hnext : ∀ j, j + 1 < 600 → (before posedgeClk s x (a + (j + 1))).pwm.loopCount.toNat =
      ((before posedgeClk s x (a + j)).pwm.loopCount.toNat + 1) % 600 := by
    intro j hj
    obtain ⟨hin, -⟩ := hs.before x (a + j)
    rw [← Nat.add_assoc, before_succ, pwm_running (hrun j (by omega)),
      PwmMotordriver.posedgeClk_toNat PwmParams.sized_default.positive hin, hP]
  have hcap : ∀ j < 600, (before posedgeClk s x (a + j)).pwm.dutyCycleLoop.toNat ≤ maxDuty :=
    fun j _ => (hs.before x (a + j)).2
  have hbelow := card_window_le
    (c := fun j => (before posedgeClk s x (a + j)).pwm.loopCount.toNat)
    (by decide : maxDuty ≤ 600) (hperiod 0) hnext hcap
  refine (Finset.card_le_card ?_).trans hbelow
  intro j hj
  rw [Finset.mem_filter, Finset.mem_range] at hj ⊢
  obtain ⟨hjP, hhigh⟩ := hj
  refine ⟨hjP, ?_⟩
  rw [pitchPwmVal, before_succ, pwm_running (hrun j hjP), PwmMotordriver.posedgeClk_pwmOut,
    Bool.and_eq_true, PwmMotordriver.pwmOutCalc_eq, decide_eq_true_eq] at hhigh
  exact hhigh.2

/-- **Safe under any traffic.** In every run of the device, whatever the pins do. -/
theorem motor_safe {s : TopEntity} (hs : s.Reachable) (x : ℕ → Pins) : MotorSafe s x where
  one_side := by
    rintro k ⟨ha, hb⟩
    obtain ⟨hdirA, hdirB, -⟩ := pins_posedgeClk (before posedgeClk s x k) (x k)
    rw [before_succ] at ha hb
    exact Bool.false_ne_true ((hdirB hb).2.2.symm.trans (hdirA ha).2.2)
  disabled := by
    intro k hdisabled
    obtain ⟨hdirA, hdirB, hpwm⟩ := pins_posedgeClk (before posedgeClk s x k) (x k)
    rw [before_succ]
    refine ⟨?_, ?_, ?_⟩
    · exact eq_false_of_ne_true fun h => Bool.false_ne_true (hdisabled.symm.trans (hdirA h).1)
    · exact eq_false_of_ne_true fun h => Bool.false_ne_true (hdisabled.symm.trans (hdirB h).1)
    · exact eq_false_of_ne_true fun h => Bool.false_ne_true (hdisabled.symm.trans (hpwm h))
  braking := by
    intro k hbraking
    obtain ⟨hdirA, hdirB, -⟩ := pins_posedgeClk (before posedgeClk s x k) (x k)
    rw [before_succ]
    refine ⟨?_, ?_⟩
    · exact eq_false_of_ne_true fun h => Bool.false_ne_true ((hdirA h).2.1.symm.trans hbraking)
    · exact eq_false_of_ne_true fun h => Bool.false_ne_true ((hdirB h).2.1.symm.trans hbraking)
  capped := pwm_window hs x

/-- Noise on the wires, with btn1 released. -/
def noise (k : ℕ) : Pins := ⟨⟨k.testBit 0, k.testBit 3, k.testBit 9⟩, true, false⟩

theorem motor_safe_noise : MotorSafe (TopEntity.rest clearedRegs) noise :=
  motor_safe (TopEntity.reachable_rest rfl) noise

end EmSysLab.Assignment11
