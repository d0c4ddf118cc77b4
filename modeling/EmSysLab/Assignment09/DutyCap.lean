import EmSysLab.Assignment09.PwmMotordriver

/-!
# Duty and safety cap of the PWM driver

In any `P` consecutive edges the counter passes every value once, whatever its phase, so
the edges at which the PWM pin is set high lie between the smallest and the largest duty
of the window. The duty is the claimed fraction of the period as long as the divisor
`100 * SPEED_DIVIDER` fits into 32 bits; beyond that it wraps, and the cap is lost unless
what is left of it still exceeds `100 * P`.
-/
namespace EmSysLab.Assignment09

open Clocked

namespace PwmParams

/-- The cycles of a period for which a speed keeps the PWM pin high. -/
def duty (p : PwmParams) (speed : BitVec 8) : ℕ :=
  min speed.toNat 100 * p.pwmPeriodCount.toNat / (100 * p.speedDivider.toNat)

/-- What the 32-bit divisor of the duty is worth. -/
def divisor (p : PwmParams) : ℕ := 100 * p.speedDivider.toNat % 2 ^ 32

variable {p : PwmParams}

theorem toNat_divisor : (100 * p.speedDivider).toNat = p.divisor := by
  rw [BitVec.toNat_mul]
  rfl

/-- Without overflow of the product the threshold is a quotient by the divisor. -/
theorem toNat_dutyCycle (hP : 100 * p.pwmPeriodCount.toNat < 2 ^ 32) (speed : BitVec 8) :
    (p.dutyCycle speed).toNat = min speed.toNat 100 * p.pwmPeriodCount.toNat / p.divisor := by
  have hhundred : (100 : BitVec 32).toNat = 100 := rfl
  have hspeed : (speed.setWidth 32).toNat = speed.toNat := BitVec.toNat_setWidth_of_le (by decide)
  unfold dutyCycle
  split
  · rename_i hbig
    rw [BitVec.lt_def, hhundred, hspeed] at hbig
    rw [BitVec.toNat_udiv, toNat_divisor, BitVec.toNat_mul, hhundred, Nat.mod_eq_of_lt hP,
      min_eq_right (Nat.le_of_lt hbig)]
  · rename_i hsmall
    rw [BitVec.lt_def, hhundred, hspeed] at hsmall
    have hle : speed.toNat * p.pwmPeriodCount.toNat ≤ 100 * p.pwmPeriodCount.toNat :=
      Nat.mul_le_mul_right _ (Nat.le_of_not_lt hsmall)
    rw [BitVec.toNat_udiv, toNat_divisor, BitVec.toNat_mul, hspeed,
      Nat.mod_eq_of_lt (Nat.lt_of_le_of_lt hle hP), min_eq_left (Nat.le_of_not_lt hsmall)]

theorem duty_le_cap (speed : BitVec 8) :
    p.duty speed ≤ p.pwmPeriodCount.toNat / p.speedDivider.toNat := by
  unfold duty
  rw [← Nat.div_div_eq_div_mul]
  refine Nat.div_le_div_right (Nat.div_le_of_le_mul ?_)
  exact Nat.mul_le_mul_right _ (min_le_right _ _)

end PwmParams

namespace PwmMotordriver

variable {p : PwmParams} {d : PwmMotordriver}

/-- The edges among the next `P` that set the PWM pin high. -/
def highCount (p : PwmParams) (d : PwmMotordriver) (x : ℕ → PwmInput) : ℕ :=
  ((Finset.range p.pwmPeriodCount.toNat).filter fun j =>
    (before (posedgeClk p) d x (j + 1)).pitchPwmVal = true).card

/-- The counter passes every value below the period once in the window. -/
theorem card_loopCount_lt (hp : p.Positive) (hd : d.InPeriod p) (x : ℕ → PwmInput) {m : ℕ}
    (hm : m ≤ p.pwmPeriodCount.toNat) :
    ((Finset.range p.pwmPeriodCount.toNat).filter fun j =>
      (before (posedgeClk p) d x j).loopCount.toNat < m).card = m := by
  have hcard := card_window_lt (c := fun j => (before (posedgeClk p) d x j).loopCount.toNat) hm hd
    (fun k => posedgeClk_toNat (inPeriod_before hp hd x k) (x k)) 0
  simpa only [Nat.zero_add] using hcard

theorem pitchPwmVal_succ (x : ℕ → PwmInput) (j : ℕ) :
    (before (posedgeClk p) d x (j + 1)).pitchPwmVal = true ↔ (x j).enable = true ∧
      (before (posedgeClk p) d x j).loopCount.toNat < (p.dutyCycle (x j).speed).toNat := by
  rw [before_succ, posedgeClk_pitchPwmVal, pwmVal_eq, Bool.and_eq_true, decide_eq_true_iff]

theorem highCount_le (hp : p.Positive) (hd : d.InPeriod p) {x : ℕ → PwmInput} {m : ℕ}
    (hm : ∀ j < p.pwmPeriodCount.toNat, (p.dutyCycle (x j).speed).toNat ≤ m) :
    highCount p d x ≤ m := by
  rcases Nat.le_total m p.pwmPeriodCount.toNat with hle | hle
  · rw [← card_loopCount_lt hp hd x hle]
    refine Finset.card_le_card fun j hj => ?_
    rw [Finset.mem_filter] at hj ⊢
    obtain ⟨hj, hhigh⟩ := hj
    obtain ⟨-, hlt⟩ := (pitchPwmVal_succ x j).mp hhigh
    exact ⟨hj, Nat.lt_of_lt_of_le hlt (hm j (Finset.mem_range.mp hj))⟩
  · refine Nat.le_trans (Finset.card_filter_le _ _) ?_
    rwa [Finset.card_range]

theorem le_highCount (hp : p.Positive) (hd : d.InPeriod p) {x : ℕ → PwmInput} {m : ℕ}
    (henable : ∀ j < p.pwmPeriodCount.toNat, (x j).enable = true)
    (hle : m ≤ p.pwmPeriodCount.toNat)
    (hm : ∀ j < p.pwmPeriodCount.toNat, m ≤ (p.dutyCycle (x j).speed).toNat) :
    m ≤ highCount p d x := by
  rw [← card_loopCount_lt hp hd x hle]
  refine Finset.card_le_card fun j hj => ?_
  rw [Finset.mem_filter] at hj ⊢
  obtain ⟨hj, hlt⟩ := hj
  have hj' := Finset.mem_range.mp hj
  exact ⟨hj, (pitchPwmVal_succ x j).mpr ⟨henable j hj', Nat.lt_of_lt_of_le hlt (hm j hj')⟩⟩

end PwmMotordriver

/-! ## The cap -/

/-- What the divider and the speed are to mean, for any window of one period in any
reachable state. -/
structure DutyContract (p : PwmParams) : Prop where
  /-- The duty has a value. -/
  divisor : p.divisor ≠ 0
  at_most : ∀ d, PwmMotordriver.Reachable p d → ∀ x m,
    (∀ j < p.pwmPeriodCount.toNat, p.duty (x j).speed ≤ m) → PwmMotordriver.highCount p d x ≤ m
  cap : ∀ d, PwmMotordriver.Reachable p d → ∀ x,
    PwmMotordriver.highCount p d x ≤ p.pwmPeriodCount.toNat / p.speedDivider.toNat
  at_least : ∀ d, PwmMotordriver.Reachable p d → ∀ x m,
    (∀ j < p.pwmPeriodCount.toNat, (x j).enable = true) →
    (∀ j < p.pwmPeriodCount.toNat, m ≤ p.duty (x j).speed) → m ≤ PwmMotordriver.highCount p d x
  constant : ∀ d, PwmMotordriver.Reachable p d → ∀ x speed,
    (∀ j < p.pwmPeriodCount.toNat, (x j).enable = true ∧ (x j).speed = speed) →
    PwmMotordriver.highCount p d x = p.duty speed

/-- Where the threshold is the duty, the contract holds. -/
theorem dutyContract_of_eq {p : PwmParams} (hp : p.Positive) (hdivisor : p.divisor ≠ 0)
    (h : ∀ speed, (p.dutyCycle speed).toNat = p.duty speed) :
    DutyContract p := by
  obtain ⟨hpos, -⟩ := hp.toNat
  have hperiod : ∀ speed, p.duty speed ≤ p.pwmPeriodCount.toNat := fun speed =>
    Nat.le_trans (PwmParams.duty_le_cap speed) (Nat.div_le_self _ _)
  have hmost : ∀ d, PwmMotordriver.Reachable p d → ∀ x m,
      (∀ j < p.pwmPeriodCount.toNat, p.duty (x j).speed ≤ m) →
      PwmMotordriver.highCount p d x ≤ m := by
    intro d hd x m hm
    refine PwmMotordriver.highCount_le hp (hd.inPeriod hp) fun j hj => ?_
    rw [h]
    exact hm j hj
  have hleast : ∀ d, PwmMotordriver.Reachable p d → ∀ x m,
      (∀ j < p.pwmPeriodCount.toNat, (x j).enable = true) →
      (∀ j < p.pwmPeriodCount.toNat, m ≤ p.duty (x j).speed) →
      m ≤ PwmMotordriver.highCount p d x := by
    intro d hd x m henable hm
    refine PwmMotordriver.le_highCount hp (hd.inPeriod hp) henable
      (Nat.le_trans (hm 0 hpos) (hperiod _)) fun j hj => ?_
    rw [h]
    exact hm j hj
  refine ⟨hdivisor, hmost, ?_, hleast, ?_⟩
  · exact fun d hd x => hmost d hd x _ fun j _ => PwmParams.duty_le_cap _
  · intro d hd x speed hx
    apply Nat.le_antisymm
    · exact hmost d hd x _ fun j hj => by rw [(hx j hj).2]
    · exact hleast d hd x _ (fun j hj => (hx j hj).1) fun j hj => by rw [(hx j hj).2]

def fullSpeed : PwmInput := ⟨true, true, false, 100⟩

/-- A threshold of at least one cycle sets the pin high at the start of the period. -/
theorem full_speed_high {p : PwmParams} (hp : p.Positive)
    (hP : 100 * p.pwmPeriodCount.toNat < 2 ^ 32) (hdivisor : p.divisor ≠ 0)
    (hle : p.divisor ≤ 100 * p.pwmPeriodCount.toNat) :
    1 ≤ PwmMotordriver.highCount p .powerUp fun _ => fullSpeed := by
  refine PwmMotordriver.le_highCount hp (PwmMotordriver.inPeriod_powerUp hp) (fun _ _ => rfl)
    hp.toNat.1 fun _ _ => ?_
  rw [PwmParams.toNat_dutyCycle hP]
  exact (Nat.one_le_div_iff (Nat.pos_of_ne_zero hdivisor)).mpr hle

/-- **Duty and safety cap.** The contract holds exactly when the divisor fits into 32 bits, or
still exceeds `100 * P` after wrapping. -/
theorem dutyContract_iff (p : PwmParams) (hp : p.Positive) (hD : 0 < p.speedDivider.toInt)
    (hP : 100 * p.pwmPeriodCount.toNat < 2 ^ 32) :
    DutyContract p ↔ 100 * p.speedDivider.toNat < 2 ^ 32 ∨
      100 * p.pwmPeriodCount.toNat < 100 * p.speedDivider.toNat % 2 ^ 32 := by
  obtain ⟨hDpos, -⟩ := toNat_of_toInt_pos hD
  constructor
  · intro h
    by_contra hcond
    rw [not_or] at hcond
    obtain ⟨hwraps, hsmall⟩ := hcond
    have hhigh := full_speed_high hp hP h.divisor (Nat.le_of_not_lt hsmall)
    have hlt : p.pwmPeriodCount.toNat < p.speedDivider.toNat := by omega
    have hcap := h.cap .powerUp ⟨[], rfl⟩ fun _ => fullSpeed
    rw [Nat.div_eq_of_lt hlt] at hcap
    exact absurd (Nat.le_trans hhigh hcap) (by decide)
  · intro hcond
    have hdivisor : p.divisor ≠ 0 := by
      unfold PwmParams.divisor
      rcases hcond with hfits | hbig
      · rw [Nat.mod_eq_of_lt hfits]
        omega
      · omega
    refine dutyContract_of_eq hp hdivisor fun speed => ?_
    rw [PwmParams.toNat_dutyCycle hP]
    rcases hcond with hfits | hbig
    · rw [PwmParams.divisor, Nat.mod_eq_of_lt hfits]
      rfl
    · have hle : min speed.toNat 100 * p.pwmPeriodCount.toNat ≤ 100 * p.pwmPeriodCount.toNat :=
        Nat.mul_le_mul_right _ (min_le_right _ _)
      have hmod : 100 * p.speedDivider.toNat % 2 ^ 32 ≤ 100 * p.speedDivider.toNat := Nat.mod_le _ _
      rw [PwmParams.duty, PwmParams.divisor, Nat.div_eq_of_lt (Nat.lt_of_le_of_lt hle hbig),
        Nat.div_eq_of_lt (Nat.lt_of_le_of_lt hle (Nat.lt_of_lt_of_le hbig hmod))]

/-- The parameters as declared. -/
theorem dutyContract_default : DutyContract {} := by
  refine (dutyContract_iff {} (by decide) (by decide) (by decide)).mpr (.inl (by decide))

/-- A divider of 42949673, whose hundredfold wraps to 4: the cap is 0 cycles and the pin is
high throughout the period. -/
def wrapping : PwmParams where
  speedDivider := 42949673

theorem dutyContract_wraps :
    wrapping.Positive ∧ 0 < wrapping.speedDivider.toInt ∧
      100 * wrapping.pwmPeriodCount.toNat < 2 ^ 32 ∧ wrapping.duty 100 = 0 ∧
      (PwmMotordriver.powerUp.posedgeClk wrapping fullSpeed).pitchPwmVal = true ∧
      ¬DutyContract wrapping := by
  refine ⟨by decide, by decide, by decide, by decide, by decide, fun h => ?_⟩
  have hperiod : wrapping.pwmPeriodCount = 2500 := by decide
  have hcap := h.cap _ ⟨[], rfl⟩ fun _ => fullSpeed
  have hhigh := full_speed_high (p := wrapping) (by decide) (by decide) (by decide) (by decide)
  rw [hperiod] at hcap
  exact absurd (Nat.le_trans hhigh hcap) (by decide)

end EmSysLab.Assignment09
