import Mathlib.Algebra.Order.Group.Unbundled.Int
import Mathlib.Tactic.Common

/-!
# The host client of assignment_09

`motor_blip` of `motor_control_interface.c`: drive the motor for a short time and stop it.
`int` is 32 bits and wraps; `usleep` takes an unsigned count of microseconds. The upper
bound on the duration is a signed comparison and there is no lower one, so a negative
duration passes it and becomes a long sleep with the motor enabled.
-/
namespace EmSysLab.Assignment09

/-- What the client does to the outside world. -/
inductive Action where
  | write (packet : List (BitVec 8))
  | usleep (usec : BitVec 32)
  deriving DecidableEq, Repr

def spiSendMotorCommand (controlByte speedPercent : BitVec 8) : Action :=
  .write [controlByte, speedPercent]

def buildControlByte (enable direction braking : BitVec 32) : BitVec 8 :=
  let control : BitVec 8 := 0
  let control := if enable ≠ 0 then control ||| (1 <<< 5) else control
  let control := if direction ≠ 0 then control ||| (1 <<< 4) else control
  if braking ≠ 0 then control ||| (1 <<< 3) else control

def motorBlip (direction speedPercent durationMs : BitVec 32) : List Action :=
  let speedPercent := if speedPercent.slt 0 then 0 else speedPercent
  let speedPercent := if (100 : BitVec 32).slt speedPercent then 100 else speedPercent
  let durationMs := if (200 : BitVec 32).slt durationMs then 200 else durationMs
  let control := buildControlByte 1 direction 0
  let stopControl := buildControlByte 0 0 0
  [spiSendMotorCommand control (speedPercent.setWidth 8),
    .usleep (durationMs * 1000),
    spiSendMotorCommand stopControl 0]

/-! ## The packets -/

/-- Of the control byte the direction sets bit 4, enable bit 5 and braking bit 3. -/
theorem getLsbD_buildControlByte (enable direction braking : BitVec 32) :
    (buildControlByte enable direction braking).getLsbD 5 = decide (enable ≠ 0) ∧
      (buildControlByte enable direction braking).getLsbD 4 = decide (direction ≠ 0) ∧
      (buildControlByte enable direction braking).getLsbD 3 = decide (braking ≠ 0) := by
  unfold buildControlByte
  by_cases he : enable = 0#32
  · by_cases hd : direction = 0#32 <;> by_cases hb : braking = 0#32 <;> simp [he, hd, hb]
  · by_cases hd : direction = 0#32 <;> by_cases hb : braking = 0#32 <;> simp [he, hd, hb]

/-- The speed is clamped from both sides. -/
theorem clamp_speedPercent (s : BitVec 32) :
    (let s := if s.slt 0 then 0 else s
      if (100 : BitVec 32).slt s then (100 : BitVec 32) else s).setWidth 8 =
      BitVec.ofInt 8 (max 0 (min s.toInt 100)) := by
  have hzero : (0 : BitVec 32).toInt = 0 := rfl
  have hmax : (100 : BitVec 32).toInt = 100 := rfl
  simp only [BitVec.slt_iff_toInt_lt, hzero, hmax]
  split
  · rename_i hneg
    rw [hzero, if_neg (by decide), min_eq_left (by omega), max_eq_left (by omega)]
    rfl
  · rename_i hpos
    split
    · rename_i hbig
      rw [min_eq_right (by omega)]
      rfl
    · rename_i hsmall
      rw [min_eq_left (by omega), max_eq_right (by omega)]
      apply BitVec.eq_of_toNat_eq
      have hint := BitVec.toInt_eq_toNat_cond s
      rw [BitVec.toNat_setWidth, BitVec.toNat_ofInt]
      have hlt := s.isLt
      split at hint <;> omega

/-- The duration is clamped from above only, and the product wraps. -/
theorem clamp_durationMs (t : BitVec 32) :
    (if (200 : BitVec 32).slt t then (200 : BitVec 32) else t) * 1000 =
      BitVec.ofInt 32 (1000 * min t.toInt 200) := by
  have hmax : (200 : BitVec 32).toInt = 200 := rfl
  simp only [BitVec.slt_iff_toInt_lt, hmax]
  split
  · rename_i hbig
    rw [min_eq_right (by omega)]
    rfl
  · rename_i hsmall
    rw [min_eq_left (by omega), BitVec.ofInt_mul, BitVec.ofInt_toInt, BitVec.mul_comm]
    rfl

/-- What a blip does, in signed numbers. -/
theorem motorBlip_eq (direction speedPercent durationMs : BitVec 32) :
    motorBlip direction speedPercent durationMs =
      [.write [buildControlByte 1 direction 0, BitVec.ofInt 8 (max 0 (min speedPercent.toInt 100))],
        .usleep (BitVec.ofInt 32 (1000 * min durationMs.toInt 200)), .write [0, 0]] := by
  rw [← clamp_speedPercent, ← clamp_durationMs]
  rfl

/-! ## The safety limit -/

/-- A blip sends the enable packet, sleeps for at most 200 ms and sends the stop packet. -/
structure BlipSafe (direction speedPercent durationMs : BitVec 32) : Prop where
  packets : ∃ usec, usec.toNat ≤ 200000 ∧ motorBlip direction speedPercent durationMs =
    [.write [buildControlByte 1 direction 0, BitVec.ofInt 8 (max 0 (min speedPercent.toInt 100))],
      .usleep usec, .write [0, 0]]
  direction_bit : (buildControlByte 1 direction 0).getLsbD 4 = decide (direction ≠ 0)
  braking_clear : (buildControlByte 1 direction 0).getLsbD 3 = false

/-- The sleep is within the limit. -/
theorem usleep_le_iff (t : BitVec 32) :
    (BitVec.ofInt 32 (1000 * min t.toInt 200)).toNat ≤ 200000 ↔
      0 ≤ t.toInt ∨ 125 * t.toInt % 2 ^ 29 ≤ 25000 := by
  have hwrap : 1000 * t.toInt % 2 ^ 32 = 8 * (125 * t.toInt % 2 ^ 29) := by
    rw [← Int.mul_emod_mul_of_pos _ _ (by decide : (0 : ℤ) < 8), ← mul_assoc]
    rfl
  rw [BitVec.toNat_ofInt]
  by_cases hneg : t.toInt < 0
  · rw [min_eq_left (by omega)]
    omega
  · have hlow : 0 ≤ min t.toInt 200 := le_min (by omega) (by decide)
    have hhigh : min t.toInt 200 ≤ 200 := min_le_right _ _
    refine iff_of_true ?_ (.inl (by omega))
    rw [Int.emod_eq_of_lt (by omega) (by omega)]
    omega

/-- **Blip safety.** The motor is left enabled for at most 200 ms exactly if the duration is
not negative, or so far below zero that the product wraps back into the limit. -/
theorem blipSafe_iff (direction speedPercent durationMs : BitVec 32) :
    BlipSafe direction speedPercent durationMs ↔
      0 ≤ durationMs.toInt ∨ 125 * durationMs.toInt % 2 ^ 29 ≤ 25000 := by
  obtain ⟨-, hdir, hbrake⟩ := getLsbD_buildControlByte 1 direction 0
  rw [← usleep_le_iff]
  constructor
  · intro hsafe
    obtain ⟨usec, hle, hblip⟩ := hsafe.packets
    rw [motorBlip_eq] at hblip
    simp only [List.cons.injEq, Action.usleep.injEq] at hblip
    obtain ⟨-, rfl, -⟩ := hblip
    exact hle
  · intro hle
    exact ⟨⟨_, hle, motorBlip_eq direction speedPercent durationMs⟩, hdir, hbrake⟩

/-- A blip of 200 ms forward at full speed. -/
theorem blipSafe_forward : BlipSafe 1 100 200 := (blipSafe_iff 1 100 200).mpr (by decide)

/-- A duration of -1 ms leaves the motor enabled for 4294966296 microseconds. -/
theorem blip_negative :
    motorBlip 1 100 (-1) = [.write [0x30, 100], .usleep 4294966296, .write [0, 0]] ∧
      ¬BlipSafe 1 100 (-1) := by
  refine ⟨by decide, fun h => ?_⟩
  obtain ⟨usec, hle, hblip⟩ := h.packets
  have husec : usec = 4294966296 := by
    simp only [motorBlip, List.cons.injEq, Action.usleep.injEq] at hblip
    obtain ⟨-, hsleep, -⟩ := hblip
    exact hsleep.symm
  rw [husec] at hle
  exact absurd hle (by decide)

end EmSysLab.Assignment09
