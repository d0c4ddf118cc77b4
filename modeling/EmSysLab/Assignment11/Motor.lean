import EmSysLab.Assignment11.ByteDecoder
import EmSysLab.Assignment11.PwmMotordriver

/-!
# The whole device of assignment_11

The SPI slave drives the control inputs of the PWM driver; btn1 is its active-low
asynchronous reset. An edge therefore carries, besides the pins, whether btn1 fell
since the edge before. The three LED outputs repeat `led_latch` and are left out.
-/
namespace EmSysLab.Assignment11

open Serial Clocked

/-- The pins at one clk edge. -/
structure Pins where
  spi : Sample
  btn1 : Bool
  /-- btn1 fell at some time since the edge before. -/
  btn1Fell : Bool
  deriving DecidableEq

structure TopEntity where
  regs : Regs
  pwm : PwmMotordriver {}
  deriving DecidableEq

namespace TopEntity

/-- The input mapping of the PWM instance; the 5-bit speed is zero-extended. -/
def pwmInput (r : CommandRegs) : PwmInput where
  enable := r.pwmEnable
  dir := r.pwmDir
  brake := r.pwmBrake
  speed := r.pwmSpeed.setWidth 6

def posedgeClk (s : TopEntity) (x : Pins) : TopEntity where
  regs := clkProcess s.regs x.spi
  pwm := (if x.btn1Fell then .reset {} else s.pwm).posedgeClk x.btn1 (pwmInput s.regs.core.cmd)

def pitchPwmVal (s : TopEntity) : Bool := s.pwm.pwmOut
def pitchDirA (s : TopEntity) : Bool := s.pwm.dirA
def pitchDirB (s : TopEntity) : Bool := s.pwm.dirB

/-- Power-up: the registers declared with a value hold it, every other one anything. -/
structure PowerUp (s : TopEntity) : Prop where
  ledLatch : s.regs.core.cmd.ledLatch = false
  encoderValue : s.regs.core.encoderValue = 0b11001100110011
  loopCount : s.pwm.loopCount = 0
  dutyCycleLoop : s.pwm.dutyCycleLoop = 0

def Reachable (s : TopEntity) : Prop := ∃ s₀ xs, PowerUp s₀ ∧ s = run posedgeClk s₀ xs

theorem run_regs (s : TopEntity) (xs : List Pins) :
    (run posedgeClk s xs).regs = run clkProcess s.regs (xs.map Pins.spi) :=
  run_map TopEntity.regs Pins.spi (fun _ _ => rfl) s xs

theorem inPeriod_posedgeClk (s : TopEntity) (x : Pins) (hs : s.pwm.InPeriod) :
    (s.posedgeClk x).pwm.InPeriod := by
  unfold posedgeClk
  refine PwmMotordriver.inPeriod_posedgeClk PwmParams.sized_default.positive ?_ _ _
  split
  · exact PwmMotordriver.inPeriod_reset PwmParams.sized_default.positive
  · exact hs

theorem Reachable.inPeriod {s : TopEntity} (hs : s.Reachable) : s.pwm.InPeriod := by
  obtain ⟨s₀, xs, h₀, rfl⟩ := hs
  refine run_invariant inPeriod_posedgeClk ?_ xs
  unfold PwmMotordriver.InPeriod
  rw [h₀.loopCount]
  exact PwmParams.sized_default.1

/-! ## The driver under a constant command -/

/-- From cycle `k = 3` on, the control inputs hold one command and btn1 stays high. -/
structure Held (cycle : ℕ → TopEntity) (r : CommandRegs) : Prop where
  inPeriod : (cycle 3).pwm.InPeriod
  next : ∀ k ≥ 3, (cycle (k + 1)).pwm = (cycle k).pwm.posedgeClk true (pwmInput r)

namespace Held

variable {cycle : ℕ → TopEntity} {r : CommandRegs} (h : Held cycle r)

include h

/-- One edge later the direction pins and the duty register show the command. -/
theorem dirA {k : ℕ} (hk : 4 ≤ k) :
    (cycle k).pitchDirA = (r.pwmEnable && !r.pwmBrake && r.pwmDir) := by
  obtain ⟨k, rfl⟩ := Nat.exists_eq_add_of_le' (Nat.one_le_of_lt hk)
  unfold pitchDirA
  rw [h.next k (by omega), PwmMotordriver.posedgeClk_dirA]
  rfl

theorem dirB {k : ℕ} (hk : 4 ≤ k) :
    (cycle k).pitchDirB = (r.pwmEnable && !r.pwmBrake && !r.pwmDir) := by
  obtain ⟨k, rfl⟩ := Nat.exists_eq_add_of_le' (Nat.one_le_of_lt hk)
  unfold pitchDirB
  rw [h.next k (by omega), PwmMotordriver.posedgeClk_dirB]
  rfl

theorem dutyCycleLoop {k : ℕ} (hk : 4 ≤ k) :
    (cycle k).pwm.dutyCycleLoop.toNat = 6 * r.pwmSpeed.toNat := by
  obtain ⟨k, rfl⟩ := Nat.exists_eq_add_of_le' (Nat.one_le_of_lt hk)
  rw [h.next k (by omega), PwmMotordriver.posedgeClk_dutyCycleLoop,
    PwmParams.sized_default.toNat_dutyCycleCalc, PwmParams.pwmPeriodCount_default]
  have hext : (r.pwmSpeed.setWidth 6).toNat = r.pwmSpeed.toNat := by
    rw [BitVec.toNat_setWidth, Nat.mod_eq_of_lt (by omega)]
  have hP : (600 : BitVec 32).toNat = 600 := rfl
  change (r.pwmSpeed.setWidth 6).toNat * _ / 100 = _
  rw [hext, hP]
  omega

/-- Two edges later the PWM pin is the comparator under the enable bit. -/
theorem pwmVal {k : ℕ} (hk : 4 ≤ k) : (cycle (k + 1)).pitchPwmVal =
    (r.pwmEnable && decide ((cycle k).pwm.loopCount.toNat < 6 * r.pwmSpeed.toNat)) := by
  unfold pitchPwmVal
  rw [h.next k (by omega), PwmMotordriver.posedgeClk_pwmOut, PwmMotordriver.pwmOutCalc_eq,
    h.dutyCycleLoop hk]
  rfl

theorem inPeriod_of_le {k : ℕ} (hk : 3 ≤ k) : (cycle k).pwm.InPeriod := by
  induction k, hk using Nat.le_induction with
  | base => exact h.inPeriod
  | succ k hk ih =>
    rw [h.next k hk]
    exact PwmMotordriver.inPeriod_posedgeClk PwmParams.sized_default.positive ih _ _

/-- **The PWM pin over one period.** From cycle 5 on, any 600 consecutive cycles see the
pin high for six cycles per unit of speed, or never when the motor is disabled. -/
theorem card_pwmVal (a : ℕ) :
    ((Finset.range 600).filter fun j => (cycle (5 + a + j)).pitchPwmVal = true).card =
      if r.pwmEnable then 6 * r.pwmSpeed.toNat else 0 := by
  have hP : ({} : PwmParams).pwmPeriodCount.toNat = 600 := by
    rw [PwmParams.pwmPeriodCount_default]; rfl
  have hspeed : r.pwmSpeed.toNat < 32 := r.pwmSpeed.isLt
  have hpin : ∀ j, (cycle (5 + a + j)).pitchPwmVal =
      (r.pwmEnable && decide ((cycle (4 + (a + j))).pwm.loopCount.toNat < 6 * r.pwmSpeed.toNat)) := by
    intro j
    rw [← h.pwmVal (by omega), show 4 + (a + j) + 1 = 5 + a + j by omega]
  simp only [hpin]
  cases r.pwmEnable with
  | false => simp
  | true =>
    simp only [Bool.true_and, decide_eq_true_eq, if_true]
    refine Clocked.card_window_lt (c := fun j => (cycle (4 + j)).pwm.loopCount.toNat)
      (by omega) ?_ ?_ a
    · have h4 : (cycle 4).pwm.InPeriod := h.inPeriod_of_le (by decide)
      unfold PwmMotordriver.InPeriod at h4
      rwa [hP] at h4
    · intro k
      have hin := h.inPeriod_of_le (show 3 ≤ 4 + k by omega)
      change (cycle (4 + k + 1)).pwm.loopCount.toNat = _
      rw [h.next (4 + k) (by omega),
        PwmMotordriver.posedgeClk_toNat PwmParams.sized_default.positive hin, hP]

end Held

end TopEntity

end EmSysLab.Assignment11
