import EmSysLab.Assignment04.Encoder

/-!
# The two-channel encoder of assignment_08

`Encoder.v` of the bus component. One process holds both channels; the outputs are
assigned after the reset branch, so they show the counters one edge late and are not
cleared by a reset.
-/
namespace EmSysLab.Assignment08

open Clocked Quadrature

structure EncoderPins where
  pitchEncA : Bool
  pitchEncB : Bool
  yawEncA : Bool
  yawEncB : Bool
  sw : BitVec 4
  deriving DecidableEq, Repr

@[ext] structure Encoder where
  sync0 : BitVec 2
  sync1 : BitVec 2
  sync2 : BitVec 2
  sync3 : BitVec 2
  prevPitchState : BitVec 2
  prevYawState : BitVec 2
  pitchSteps : BitVec 16
  yawSteps : BitVec 16
  led : BitVec 8
  pitchStepsOut : BitVec 16
  yawStepsOut : BitVec 16
  deriving DecidableEq, Repr

namespace Encoder

/-- One rising edge of FPGA_CLK1_50. -/
def posedgeClk (s : Encoder) (x : EncoderPins) : Encoder where
  sync0 := BitVec.ofBool x.pitchEncA ++ BitVec.ofBool x.pitchEncB
  sync1 := s.sync0
  sync2 := BitVec.ofBool x.yawEncA ++ BitVec.ofBool x.yawEncB
  sync3 := s.sync2
  prevPitchState := s.sync1
  prevYawState := s.sync3
  pitchSteps := if x.sw.getLsbD 3 then 0 else stepCase s.prevPitchState s.sync1 s.pitchSteps
  yawSteps := if x.sw.getLsbD 3 then 0 else stepCase s.prevYawState s.sync3 s.yawSteps
  -- these override the zeros that the reset branch assigns
  led := s.pitchSteps.extractLsb' 8 8
  pitchStepsOut := s.pitchSteps
  yawStepsOut := s.yawSteps

/-- The registers declared with a value hold it; the others hold anything. -/
structure PowerUp (s : Encoder) : Prop where
  pitchSteps : s.pitchSteps = 0
  yawSteps : s.yawSteps = 0
  prevPitchState : s.prevPitchState = 0b00
  prevYawState : s.prevYawState = 0b00

/-- All registers zero. -/
def cleared : Encoder := ⟨0, 0, 0, 0, 0, 0, 0, 0, 0, 0, 0⟩

theorem powerUp_cleared : cleared.PowerUp := ⟨rfl, rfl, rfl, rfl⟩

def pitch (s : Encoder) : Channel 16 := ⟨s.sync0, s.sync1, s.prevPitchState, s.pitchSteps⟩

def yaw (s : Encoder) : Channel 16 := ⟨s.sync2, s.sync3, s.prevYawState, s.yawSteps⟩

def pitchInput (x : EncoderPins) : BitVec 2 × Bool :=
  (BitVec.ofBool x.pitchEncA ++ BitVec.ofBool x.pitchEncB, x.sw.getLsbD 3)

def yawInput (x : EncoderPins) : BitVec 2 × Bool :=
  (BitVec.ofBool x.yawEncA ++ BitVec.ofBool x.yawEncB, x.sw.getLsbD 3)

theorem pitch_posedgeClk (s : Encoder) (x : EncoderPins) :
    (s.posedgeClk x).pitch = s.pitch.step (pitchInput x) := by
  simp only [pitch, posedgeClk, Channel.step, pitchInput, stepCase_eq]
  rfl

theorem yaw_posedgeClk (s : Encoder) (x : EncoderPins) :
    (s.posedgeClk x).yaw = s.yaw.step (yawInput x) := by
  simp only [yaw, posedgeClk, Channel.step, yawInput, stepCase_eq]
  rfl

theorem before_pitch (s : Encoder) (x : ℕ → EncoderPins) (k : ℕ) :
    (before posedgeClk s x k).pitch = before Channel.step s.pitch (fun j => pitchInput (x j)) k :=
  before_map pitch pitchInput pitch_posedgeClk s x k

theorem before_yaw (s : Encoder) (x : ℕ → EncoderPins) (k : ℕ) :
    (before posedgeClk s x k).yaw = before Channel.step s.yaw (fun j => yawInput (x j)) k :=
  before_map yaw yawInput yaw_posedgeClk s x k

theorem run_pitch (s : Encoder) (xs : List EncoderPins) :
    (run posedgeClk s xs).pitch = run Channel.step s.pitch (xs.map pitchInput) :=
  run_map pitch pitchInput pitch_posedgeClk s xs

theorem run_yaw (s : Encoder) (xs : List EncoderPins) :
    (run posedgeClk s xs).yaw = run Channel.step s.yaw (xs.map yawInput) :=
  run_map yaw yawInput yaw_posedgeClk s xs

/-- The counters are sums of steps, each over its own samples. -/
theorem before_pitchSteps {s : Encoder} (hs : s.PowerUp) (x : ℕ → EncoderPins) (k : ℕ) :
    (before posedgeClk s x k).pitchSteps =
      BitVec.ofInt 16 (s.pitch.stepSum (fun j => pitchInput (x j)) k) := by
  have h := Channel.before_steps_of_zero (c := s.pitch) hs.pitchSteps (fun j => pitchInput (x j)) k
  rwa [← before_pitch] at h

theorem before_yawSteps {s : Encoder} (hs : s.PowerUp) (x : ℕ → EncoderPins) (k : ℕ) :
    (before posedgeClk s x k).yawSteps =
      BitVec.ofInt 16 (s.yaw.stepSum (fun j => yawInput (x j)) k) := by
  have h := Channel.before_steps_of_zero (c := s.yaw) hs.yawSteps (fun j => yawInput (x j)) k
  rwa [← before_yaw] at h

end Encoder

end EmSysLab.Assignment08
