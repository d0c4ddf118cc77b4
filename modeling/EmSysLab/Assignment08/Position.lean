import EmSysLab.Assignment08.EncoderCopies
import EmSysLab.Assignment08.EslBusDemo
import EmSysLab.Quadrature.Readout
import Mathlib.Tactic.IntervalCases

/-!
# The positions as the bus reads them

From the encoder pins to the read-out a reading passes two synchroniser stages, the counter,
the output register and the bus register, so it is five edges old. The encoder of
`assignment_07/assignment7_folder` has no step outputs and shows the same high byte on its LEDs.
-/
namespace EmSysLab.Assignment08

open Clocked Quadrature

/-- SW[3] is up for the last time at edge `r`. From the sample that has then passed the
synchroniser the pins follow two axes, each moving by at most one position an edge. -/
structure Follows (x : ℕ → EncoderPins) (r : ℕ) (pitch yaw : ℕ → ℤ) : Prop where
  reset : (x r).sw.getLsbD 3 = true
  released : ∀ j > r, (x j).sw.getLsbD 3 = false
  /-- The synchroniser has filled with samples before that. -/
  synchronised : 2 ≤ r
  pitch_phase : ∀ j ≥ r - 2, pitch j % 4 = phase (Encoder.pitchInput (x j)).1
  yaw_phase : ∀ j ≥ r - 2, yaw j % 4 = phase (Encoder.yawInput (x j)).1
  pitch_step : ∀ j ≥ r - 2, |pitch (j + 1) - pitch j| ≤ 1
  yaw_step : ∀ j ≥ r - 2, |yaw (j + 1) - yaw j| ≤ 1

/-- What the counter meets is the trajectory of the pins, three edges late. -/
theorem trajectory_late {w : ℕ} (c : Channel w) {x : ℕ → BitVec 2 × Bool} {r : ℕ} {P : ℕ → ℤ}
    (hreset : (x r).2 = true) (hreleased : ∀ j > r, (x j).2 = false) (hr : 2 ≤ r)
    (hphase : ∀ j ≥ r - 2, P j % 4 = phase (x j).1)
    (hstep : ∀ j ≥ r - 2, |P (j + 1) - P j| ≤ 1) :
    Channel.Trajectory c x r fun j => P (j - 3) where
  reset := hreset
  released := hreleased
  phase := by
    intro j hj
    obtain ⟨i, rfl⟩ := Nat.exists_eq_add_of_le' (show 3 ≤ j by omega)
    exact hphase i (by omega)
  step := by
    intro j hj
    obtain ⟨i, rfl⟩ := Nat.exists_eq_add_of_le' (show 3 ≤ j by omega)
    exact hstep i (by omega)

namespace Follows

variable {x : ℕ → EncoderPins} {r : ℕ} {pitch yaw : ℕ → ℤ} (h : Follows x r pitch yaw)

include h

theorem pitchSteps (s : Encoder) {k : ℕ} (hk : r < k) :
    (before Encoder.posedgeClk s x k).pitchSteps =
      BitVec.ofInt 16 (pitch (k - 3) - pitch (r - 2)) := by
  have htrajectory := trajectory_late s.pitch (x := fun j => Encoder.pitchInput (x j)) h.reset
    h.released h.synchronised h.pitch_phase h.pitch_step
  have hsteps := htrajectory.before_steps hk
  rw [← Encoder.before_pitch] at hsteps
  exact hsteps

theorem yawSteps (s : Encoder) {k : ℕ} (hk : r < k) :
    (before Encoder.posedgeClk s x k).yawSteps = BitVec.ofInt 16 (yaw (k - 3) - yaw (r - 2)) := by
  have htrajectory := trajectory_late s.yaw (x := fun j => Encoder.yawInput (x j)) h.reset
    h.released h.synchronised h.yaw_phase h.yaw_step
  have hsteps := htrajectory.before_steps hk
  rw [← Encoder.before_yaw] at hsteps
  exact hsteps

end Follows

/-! ## The copy in assignment_07 -/

/-- One rising edge of FPGA_CLK1_50 in `assignment_07/assignment7_folder/Encoder.v`, whose step
outputs nothing assigns. -/
def Encoder.posedgeClkAssignment07 (s : Encoder) (x : EncoderPins) : Encoder where
  sync0 := BitVec.ofBool x.pitchEncA ++ BitVec.ofBool x.pitchEncB
  sync1 := s.sync0
  sync2 := BitVec.ofBool x.yawEncA ++ BitVec.ofBool x.yawEncB
  sync3 := s.sync2
  prevPitchState := s.sync1
  prevYawState := s.sync3
  pitchSteps := if x.sw.getLsbD 3 then 0 else stepCase s.prevPitchState s.sync1 s.pitchSteps
  yawSteps := if x.sw.getLsbD 3 then 0 else stepCase s.prevYawState s.sync3 s.yawSteps
  led := s.pitchSteps.extractLsb' 8 8
  pitchStepsOut := s.pitchStepsOut
  yawStepsOut := s.yawStepsOut

/-- Both copies go through the same states, and so do their LEDs. -/
theorem Encoder.before_assignment07 (s : Encoder) (x : ℕ → EncoderPins) (k : ℕ) :
    SameState (before posedgeClkAssignment07 s x k) (before posedgeClk s x k) ∧
      (before posedgeClkAssignment07 s x k).led = (before posedgeClk s x k).led := by
  refine before_related
    (R := fun _ s t => SameState s t ∧ s.led = t.led) ⟨⟨rfl, rfl, rfl, rfl, rfl, rfl, rfl, rfl⟩, rfl⟩
    ?_ k
  rintro k s t ⟨h, -⟩
  refine ⟨⟨rfl, h.sync0, rfl, h.sync2, h.sync1, h.sync3, ?_, ?_⟩, ?_⟩
  · simp only [posedgeClkAssignment07, posedgeClk, h.prevPitchState, h.sync1, h.pitchSteps]
  · simp only [posedgeClkAssignment07, posedgeClk, h.prevYawState, h.sync3, h.yawSteps]
  · simp only [posedgeClkAssignment07, posedgeClk, h.pitchSteps]

/-! ## On the bus -/

/-- The edges at which the read-out holds positions: long enough after the last SW[3] reset,
with the bus not in reset at the edge before and no reset rising since. -/
def Readable (x : ℕ → BusPins) (r t : ℕ) : Prop :=
  r + 3 ≤ t ∧ (x (t - 1)).reset = false ∧ (x t).resetRose = false

/-- What a bus master and the LEDs are told about the two axes. -/
structure ShowsPosition (s : EslBusDemo) (x : ℕ → BusPins) (r : ℕ) (pitch yaw : ℕ → ℤ) : Prop where
  pitchHalf : Tracks 5 (Readable x r)
    (fun t => (before EslBusDemo.posedgeClk s x t).slaveReaddata.extractLsb' 16 16) pitch
    (pitch (r - 2))
  yawHalf : Tracks 5 (Readable x r)
    (fun t => (before EslBusDemo.posedgeClk s x t).slaveReaddata.extractLsb' 0 16) yaw
    (yaw (r - 2))
  /-- The high byte of the pitch, four edges old. -/
  led : ∀ t, r + 2 ≤ t → (before EslBusDemo.posedgeClk s x t).encoderInst.led =
    (BitVec.ofInt 16 (pitch (t - 4) - pitch (r - 2))).extractLsb' 8 8
  led_assignment07 : ∀ (e : Encoder) t, r + 2 ≤ t →
    (before Encoder.posedgeClkAssignment07 e (fun j => (x j).encoder) t).led =
      (BitVec.ofInt 16 (pitch (t - 4) - pitch (r - 2))).extractLsb' 8 8

theorem led_succ (e : Encoder) (x : ℕ → EncoderPins) (k : ℕ) :
    (before Encoder.posedgeClk e x (k + 1)).led =
      (before Encoder.posedgeClk e x k).pitchSteps.extractLsb' 8 8 := rfl

/-- **Position over the bus**, for every run of the component, whatever the bus does. -/
theorem shows_position (s : EslBusDemo) (x : ℕ → BusPins) {r : ℕ} {pitch yaw : ℕ → ℤ}
    (h : Follows (fun j => (x j).encoder) r pitch yaw) : ShowsPosition s x r pitch yaw := by
  have hr := h.synchronised
  have hread : ∀ t, Readable x r t → (before EslBusDemo.posedgeClk s x t).slaveReaddata =
      BitVec.ofInt 16 (pitch (t - 5) - pitch (r - 2)) ++
        BitVec.ofInt 16 (yaw (t - 5) - yaw (r - 2)) := by
    rintro t ⟨hlate, hreset, -⟩
    obtain ⟨k, rfl⟩ := Nat.exists_eq_add_of_le' (show 2 ≤ t by omega)
    have hdata := EslBusDemo.slaveReaddata_eq s x (k := k + 1) (Nat.succ_pos k) hreset
    rw [Nat.add_sub_cancel, EslBusDemo.before_encoderInst, h.pitchSteps _ (by omega),
      h.yawSteps _ (by omega)] at hdata
    rw [show k + 2 - 5 = k - 3 by omega]
    exact hdata
  have hled : ∀ (e : Encoder) t, r + 2 ≤ t →
      (before Encoder.posedgeClk e (fun j => (x j).encoder) t).led =
        (BitVec.ofInt 16 (pitch (t - 4) - pitch (r - 2))).extractLsb' 8 8 := by
    intro e t ht
    obtain ⟨k, rfl⟩ := Nat.exists_eq_add_of_le' (show 1 ≤ t by omega)
    rw [led_succ, h.pitchSteps e (by omega), show k + 1 - 4 = k - 3 by omega]
  constructor
  · refine .of_exact (by decide) (fun t ht => by have hlate := ht.1; omega) h.pitch_step ?_
    intro t ht
    rw [hread t ht]
    exact BitVec.extractLsb'_append_eq_left
  · refine .of_exact (by decide) (fun t ht => by have hlate := ht.1; omega) h.yaw_step ?_
    intro t ht
    rw [hread t ht]
    exact BitVec.extractLsb'_append_eq_right
  · intro t ht
    rw [EslBusDemo.before_encoderInst]
    exact hled _ t ht
  · intro e t ht
    obtain ⟨-, hsame⟩ := Encoder.before_assignment07 e (fun j => (x j).encoder) t
    rw [hsame]
    exact hled e t ht

/-- From edge 1 on pitch goes forwards and yaw backwards at every edge, under a bus that writes
all the time and is reset at edge 6. -/
def turning (j : ℕ) : BusPins where
  slaveAddress := 0
  slaveRead := false
  slaveWrite := true
  slaveWritedata := 0xffffffff
  slaveByteenable := 0b1111
  reset := decide (j = 6)
  resetRose := decide (j = 6)
  encoder :=
    { pitchEncA := decide (j = 0 ∨ j % 4 = 1 ∨ j % 4 = 2)
      pitchEncB := decide (j = 0 ∨ j % 4 = 2 ∨ j % 4 = 3)
      yawEncA := decide (j % 4 = 2 ∨ j % 4 = 3)
      yawEncB := decide (j % 4 = 1 ∨ j % 4 = 2)
      sw := if j = 3 then 0b1000 else 0b0000 }

theorem follows_turning :
    Follows (fun j => (turning j).encoder) 3 (fun j => (j : ℤ)) (fun j => -(j : ℤ)) where
  reset := rfl
  released := by
    intro j hj
    change (if j = 3 then (0b1000 : BitVec 4) else 0b0000).getLsbD 3 = false
    rw [if_neg (by omega)]
    rfl
  synchronised := by decide
  pitch_phase := by
    intro j hj
    have hmod : (j : ℤ) % 4 = ((j % 4 : ℕ) : ℤ) := rfl
    have hlt : j % 4 < 4 := Nat.mod_lt j (by decide)
    have hpos : j ≠ 0 := Nat.ne_of_gt hj
    rw [hmod]
    simp only [turning, Encoder.pitchInput, hpos, false_or]
    clear hj hpos hmod
    interval_cases j % 4 <;> rfl
  yaw_phase := by
    intro j _
    have hmod : -(j : ℤ) % 4 = -((j % 4 : ℕ) : ℤ) % 4 := by omega
    have hlt : j % 4 < 4 := Nat.mod_lt j (by decide)
    rw [hmod]
    simp only [turning, Encoder.yawInput]
    clear hmod
    interval_cases j % 4 <;> rfl
  pitch_step := by
    intro j _
    rw [Int.abs_le_one_iff]
    omega
  yaw_step := by
    intro j _
    rw [Int.abs_le_one_iff]
    omega

theorem shows_position_turning :
    ((before EslBusDemo.posedgeClk .cleared turning 10).slaveReaddata.extractLsb' 16 16).toInt = 4 ∧
      ((before EslBusDemo.posedgeClk .cleared turning 10).slaveReaddata.extractLsb' 0 16).toInt =
        -4 := by
  obtain ⟨hpitch, hyaw, -, -⟩ := shows_position .cleared turning follows_turning
  have hreadable : Readable turning 3 10 := ⟨by decide, rfl, rfl⟩
  exact ⟨hpitch.signed 10 hreadable (by decide), hyaw.signed 10 hreadable (by decide)⟩

end EmSysLab.Assignment08
