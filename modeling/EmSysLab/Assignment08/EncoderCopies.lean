import EmSysLab.Assignment08.Encoder

/-!
# The two copies of the encoder of assignment_08

`assignment7_folder/Encoder.v` assigns its outputs in both branches of the reset, the copy of
the bus component after them. The registers behind the outputs take the same values in both,
so they differ only in what they show after an edge with SW[3] up.
-/
namespace EmSysLab.Assignment08.Encoder

open Clocked

/-- One rising edge of FPGA_CLK1_50 in `assignment7_folder/Encoder.v`, with its LED port taken
as a register. -/
def posedgeClkRoot (s : Encoder) (x : EncoderPins) : Encoder where
  sync0 := BitVec.ofBool x.pitchEncA ++ BitVec.ofBool x.pitchEncB
  sync1 := s.sync0
  sync2 := BitVec.ofBool x.yawEncA ++ BitVec.ofBool x.yawEncB
  sync3 := s.sync2
  prevPitchState := s.sync1
  prevYawState := s.sync3
  pitchSteps := if x.sw.getLsbD 3 then 0 else stepCase s.prevPitchState s.sync1 s.pitchSteps
  yawSteps := if x.sw.getLsbD 3 then 0 else stepCase s.prevYawState s.sync3 s.yawSteps
  led := if x.sw.getLsbD 3 then 0 else s.pitchSteps.extractLsb' 8 8
  pitchStepsOut := if x.sw.getLsbD 3 then 0 else s.pitchSteps
  yawStepsOut := if x.sw.getLsbD 3 then 0 else s.yawSteps

/-- The same in all registers but the outputs. -/
structure SameState (s t : Encoder) : Prop where
  sync0 : s.sync0 = t.sync0
  sync1 : s.sync1 = t.sync1
  sync2 : s.sync2 = t.sync2
  sync3 : s.sync3 = t.sync3
  prevPitchState : s.prevPitchState = t.prevPitchState
  prevYawState : s.prevYawState = t.prevYawState
  pitchSteps : s.pitchSteps = t.pitchSteps
  yawSteps : s.yawSteps = t.yawSteps

structure SameOutputs (s t : Encoder) : Prop where
  led : s.led = t.led
  pitchStepsOut : s.pitchStepsOut = t.pitchStepsOut
  yawStepsOut : s.yawStepsOut = t.yawStepsOut

structure OutputsZero (s : Encoder) : Prop where
  led : s.led = 0
  pitchStepsOut : s.pitchStepsOut = 0
  yawStepsOut : s.yawStepsOut = 0

theorem sameState_step {s t : Encoder} (x : EncoderPins) (h : SameState s t) :
    SameState (s.posedgeClkRoot x) (t.posedgeClk x) where
  sync0 := rfl
  sync1 := h.sync0
  sync2 := rfl
  sync3 := h.sync2
  prevPitchState := h.sync1
  prevYawState := h.sync3
  pitchSteps := by
    simp only [posedgeClkRoot, posedgeClk, h.prevPitchState, h.sync1, h.pitchSteps]
  yawSteps := by
    simp only [posedgeClkRoot, posedgeClk, h.prevYawState, h.sync3, h.yawSteps]

theorem sameState_before (s : Encoder) (x : ℕ → EncoderPins) (k : ℕ) :
    SameState (before posedgeClkRoot s x k) (before posedgeClk s x k) :=
  before_related (R := fun _ => SameState) ⟨rfl, rfl, rfl, rfl, rfl, rfl, rfl, rfl⟩
    (fun k _ _ h => sameState_step (x k) h) k

theorem outputsZero_root (s : Encoder) {x : EncoderPins} (hreset : x.sw.getLsbD 3 = true) :
    OutputsZero (s.posedgeClkRoot x) :=
  ⟨if_pos hreset, if_pos hreset, if_pos hreset⟩

theorem outputsZero_posedgeClk_iff (t : Encoder) (x : EncoderPins) :
    OutputsZero (t.posedgeClk x) ↔ t.pitchSteps = 0 ∧ t.yawSteps = 0 := by
  constructor
  · intro h
    exact ⟨h.pitchStepsOut, h.yawStepsOut⟩
  · rintro ⟨hpitch, hyaw⟩
    refine ⟨?_, hpitch, hyaw⟩
    simp only [posedgeClk, hpitch]
    rfl

/-- Away from a reset the copies are one. -/
theorem posedgeClkRoot_of_counting (s : Encoder) {x : EncoderPins}
    (hreset : x.sw.getLsbD 3 = false) : s.posedgeClkRoot x = s.posedgeClk x := by
  simp only [posedgeClkRoot, posedgeClk, hreset, Bool.false_eq_true, if_false]

theorem sameOutputs_of_counting {s t : Encoder} {x : EncoderPins} (h : SameState s t)
    (hreset : x.sw.getLsbD 3 = false) : SameOutputs (s.posedgeClkRoot x) (t.posedgeClk x) := by
  rw [posedgeClkRoot_of_counting s hreset]
  exact ⟨congrArg (BitVec.extractLsb' 8 8) h.pitchSteps, h.pitchSteps, h.yawSteps⟩

/-- At a reset the outputs are the same if both are zero. -/
theorem sameOutputs_of_reset {s : Encoder} (t : Encoder) {x : EncoderPins}
    (hreset : x.sw.getLsbD 3 = true) :
    SameOutputs (s.posedgeClkRoot x) (t.posedgeClk x) ↔ OutputsZero (t.posedgeClk x) := by
  have hroot := outputsZero_root s hreset
  constructor
  · intro h
    exact ⟨h.led.symm.trans hroot.led, h.pitchStepsOut.symm.trans hroot.pitchStepsOut,
      h.yawStepsOut.symm.trans hroot.yawStepsOut⟩
  · intro h
    exact ⟨hroot.led.trans h.led.symm, hroot.pitchStepsOut.trans h.pitchStepsOut.symm,
      hroot.yawStepsOut.trans h.yawStepsOut.symm⟩

/-- After edge `k` the copies show the same, and nothing if it was a reset. -/
structure Interchangeable (s : Encoder) (x : ℕ → EncoderPins) (k : ℕ) : Prop where
  outputs : SameOutputs (before posedgeClkRoot s x (k + 1)) (before posedgeClk s x (k + 1))
  reset : (x k).sw.getLsbD 3 = true →
    OutputsZero (before posedgeClkRoot s x (k + 1)) ∧ OutputsZero (before posedgeClk s x (k + 1))

/-- **The two encoders.** The copies hold the same counters all the time. They are
interchangeable at an edge exactly if it is not a reset with a counter off zero. -/
theorem interchangeable_iff (s : Encoder) (x : ℕ → EncoderPins) :
    (∀ k, SameState (before posedgeClkRoot s x k) (before posedgeClk s x k)) ∧
      (∀ k, Interchangeable s x k ↔ ((x k).sw.getLsbD 3 = true →
        (before posedgeClk s x k).pitchSteps = 0 ∧ (before posedgeClk s x k).yawSteps = 0)) ∧
      ((∀ k, Interchangeable s x k) ↔ ∀ k, (x k).sw.getLsbD 3 = true →
        (before posedgeClk s x k).pitchSteps = 0 ∧ (before posedgeClk s x k).yawSteps = 0) := by
  have hpoint : ∀ k, Interchangeable s x k ↔ ((x k).sw.getLsbD 3 = true →
      (before posedgeClk s x k).pitchSteps = 0 ∧ (before posedgeClk s x k).yawSteps = 0) := by
    intro k
    constructor
    · intro h hreset
      exact (outputsZero_posedgeClk_iff _ (x k)).mp (h.reset hreset).2
    · intro hcount
      cases hreset : (x k).sw.getLsbD 3 with
      | false =>
        refine ⟨sameOutputs_of_counting (sameState_before s x k) hreset, fun h => ?_⟩
        rw [hreset] at h
        exact absurd h Bool.false_ne_true
      | true =>
        have hzero := (outputsZero_posedgeClk_iff _ (x k)).mpr (hcount hreset)
        exact ⟨(sameOutputs_of_reset _ hreset).mpr hzero,
          fun _ => ⟨outputsZero_root _ hreset, hzero⟩⟩
  exact ⟨sameState_before s x, hpoint, forall_congr' hpoint⟩

/-- SW[3] is up at the first edge only, and the pitch encoder takes a step to 10. -/
def resetAndStep (k : ℕ) : EncoderPins :=
  ⟨true, false, false, false, if k = 0 then 0b1000 else 0b0000⟩

/-- The step shows in both copies alike. -/
theorem interchangeable_resetAndStep :
    (∀ k, Interchangeable cleared resetAndStep k) ∧
      (before posedgeClk cleared resetAndStep 4).pitchStepsOut = 1 := by
  obtain ⟨-, -, hall⟩ := interchangeable_iff cleared resetAndStep
  refine ⟨hall.mpr fun k hreset => ?_, by decide⟩
  cases k with
  | zero => exact ⟨rfl, rfl⟩
  | succ k => simp [resetAndStep] at hreset

/-- The pitch encoder takes a step to 10, and SW[3] goes up when it has been counted. -/
def stepAndReset (k : ℕ) : EncoderPins :=
  ⟨true, false, false, false, if k < 3 then 0b0000 else 0b1000⟩

/-- The copy of the bus component still shows the step. -/
theorem not_interchangeable_stepAndReset :
    (stepAndReset 3).sw.getLsbD 3 = true ∧
      (before posedgeClkRoot cleared stepAndReset 4).pitchStepsOut = 0 ∧
      (before posedgeClk cleared stepAndReset 4).pitchStepsOut = 1 ∧
      ¬Interchangeable cleared stepAndReset 3 := by
  refine ⟨by decide, by decide, by decide, fun h => ?_⟩
  exact absurd h.outputs.pitchStepsOut (by decide)

end EmSysLab.Assignment08.Encoder
