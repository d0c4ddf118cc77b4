import EmSysLab.Assignment04.Encoder
import EmSysLab.Assignment08.Encoder
import Mathlib.Tactic.IntervalCases

/-!
# What the quadrature decoders count

The pitch and yaw channels of assignment_08 and the encoder of assignment_04 are one
channel at two widths, so each result about the channel is one about all three.
-/
namespace EmSysLab

open Clocked Quadrature

/-- **The decoders count true displacement.** Position `P j` belongs to the sample taken
three edges before edge `j`, the registers at the start standing for earlier ones. -/
theorem decoders_displacement :
    (∀ (s : Assignment08.Encoder) (x : ℕ → Assignment08.EncoderPins) (r : ℕ) (P : ℕ → ℤ),
        Channel.Trajectory s.pitch (fun j => Assignment08.Encoder.pitchInput (x j)) r P →
        ∀ k > r, (before Assignment08.Encoder.posedgeClk s x k).pitchSteps =
          BitVec.ofInt 16 (P k - P (r + 1))) ∧
      (∀ (s : Assignment08.Encoder) (x : ℕ → Assignment08.EncoderPins) (r : ℕ) (P : ℕ → ℤ),
        Channel.Trajectory s.yaw (fun j => Assignment08.Encoder.yawInput (x j)) r P →
        ∀ k > r, (before Assignment08.Encoder.posedgeClk s x k).yawSteps =
          BitVec.ofInt 16 (P k - P (r + 1))) ∧
      ∀ (s : Assignment04.Encoder) (x : ℕ → BitVec 4) (r : ℕ) (P : ℕ → ℤ),
        Channel.Trajectory s.channel (fun j => Assignment04.Encoder.input (x j)) r P →
        ∀ k > r, (before Assignment04.Encoder.posedgeClk s x k).steps =
          BitVec.ofInt 8 (P k - P (r + 1)) := by
  refine ⟨?_, ?_, ?_⟩
  · intro s x r P h k hk
    have hsteps := h.before_steps hk
    rwa [← Assignment08.Encoder.before_pitch] at hsteps
  · intro s x r P h k hk
    have hsteps := h.before_steps hk
    rwa [← Assignment08.Encoder.before_yaw] at hsteps
  · intro s x r P h k hk
    have hsteps := h.before_steps hk
    rwa [← Assignment04.Encoder.before_channel] at hsteps

/-- 00 during the reset at edge 0, then 10, 11, 01, 00 for ever. -/
def revolving : ℕ → BitVec 2
  | 0 => 0b00
  | k + 1 => [0b10, 0b11, 0b01, 0b00].getD (k % 4) 0

/-- Zero until the first sample after the reset, then one position a sample. -/
def revolution (j : ℕ) : ℤ := (j - 3 : ℕ)

theorem trajectory_revolving (w : ℕ) : Channel.Trajectory (⟨0, 0, 0, 0⟩ : Channel w)
    (fun j => (revolving j, decide (j = 0))) 0 revolution where
  reset := rfl
  released := fun j hj => decide_eq_false (Nat.ne_of_gt hj)
  phase := by
    intro j hj
    match j with
    | 1 => rfl
    | 2 => rfl
    | 3 => rfl
    | k + 4 =>
      have hk : k % 4 < 4 := Nat.mod_lt _ (by decide)
      have hpos : revolution (k + 4) % 4 = ((k % 4 : ℕ) + 1 : ℤ) % 4 := by
        unfold revolution
        omega
      rw [hpos]
      simp only [Channel.samples, revolving]
      interval_cases k % 4 <;> rfl
  step := by
    intro j _
    unfold revolution
    rw [Int.abs_le_one_iff]
    omega

def revolvingPins (j : ℕ) : Assignment08.EncoderPins where
  pitchEncA := (revolving j).getLsbD 1
  pitchEncB := (revolving j).getLsbD 0
  yawEncA := (revolving j).getLsbD 1
  yawEncB := (revolving j).getLsbD 0
  sw := if j = 0 then 0b1000 else 0b0000

def revolvingSwitches (j : ℕ) : BitVec 4 := (if j = 0 then 0b10#2 else 0b00#2) ++ revolving j

/-- The byte counter wraps after 300 positions, the 16-bit ones do not. -/
theorem decoders_displacement_revolving :
    (before Assignment08.Encoder.posedgeClk .cleared revolvingPins 303).pitchSteps = 300 ∧
      (before Assignment08.Encoder.posedgeClk .cleared revolvingPins 303).yawSteps = 300 ∧
      (before Assignment04.Encoder.posedgeClk ⟨0, 0, 0, 0, 0⟩ revolvingSwitches 303).steps = 44 := by
  have hbits : ∀ v : BitVec 2, BitVec.ofBool (v.getLsbD 1) ++ BitVec.ofBool (v.getLsbD 0) = v := by
    decide
  have hlow : ∀ v : BitVec 2, (0b10#2 ++ v).extractLsb' 0 2 = v ∧ (0b00#2 ++ v).extractLsb' 0 2 = v ∧
      (0b10#2 ++ v).getLsbD 3 = true ∧ (0b00#2 ++ v).getLsbD 3 = false := by decide
  have hpitch : (fun j => Assignment08.Encoder.pitchInput (revolvingPins j)) =
      fun j => (revolving j, decide (j = 0)) := by
    funext j
    refine Prod.ext (hbits _) ?_
    cases j with
    | zero => rfl
    | succ j => simp [Assignment08.Encoder.pitchInput, revolvingPins]
  have hswitch : (fun j => Assignment04.Encoder.input (revolvingSwitches j)) =
      fun j => (revolving j, decide (j = 0)) := by
    funext j
    cases j with
    | zero => rfl
    | succ j => exact Prod.ext (hlow _).2.1 (hlow _).2.2.2
  obtain ⟨pitch, yaw, single⟩ := decoders_displacement
  have htrack16 := trajectory_revolving 16
  have htrack8 := trajectory_revolving 8
  rw [← hpitch] at htrack16
  rw [← hswitch] at htrack8
  rw [pitch .cleared revolvingPins 0 revolution htrack16 303 (by decide),
    yaw .cleared revolvingPins 0 revolution htrack16 303 (by decide),
    single ⟨0, 0, 0, 0, 0⟩ revolvingSwitches 0 revolution htrack8 303 (by decide)]
  decide

/-! ## Bounce -/

/-- **Bounce immunity.** Motion that is retraced leaves the counter and the previous state
where they are without it, whatever it passes through. -/
theorem decoders_bounce :
    (∀ (s : Assignment08.Encoder) (xs ys : List Assignment08.EncoderPins),
        Channel.Bounced (xs.map Assignment08.Encoder.pitchInput)
          (ys.map Assignment08.Encoder.pitchInput) →
        (run Assignment08.Encoder.posedgeClk s ys).prevPitchState =
            (run Assignment08.Encoder.posedgeClk s xs).prevPitchState ∧
          (run Assignment08.Encoder.posedgeClk s ys).pitchSteps =
            (run Assignment08.Encoder.posedgeClk s xs).pitchSteps) ∧
      (∀ (s : Assignment08.Encoder) (xs ys : List Assignment08.EncoderPins),
        Channel.Bounced (xs.map Assignment08.Encoder.yawInput)
          (ys.map Assignment08.Encoder.yawInput) →
        (run Assignment08.Encoder.posedgeClk s ys).prevYawState =
            (run Assignment08.Encoder.posedgeClk s xs).prevYawState ∧
          (run Assignment08.Encoder.posedgeClk s ys).yawSteps =
            (run Assignment08.Encoder.posedgeClk s xs).yawSteps) ∧
      ∀ (s : Assignment04.Encoder) (xs ys : List (BitVec 4)),
        Channel.Bounced (xs.map Assignment04.Encoder.input) (ys.map Assignment04.Encoder.input) →
        (run Assignment04.Encoder.posedgeClk s ys).prevState =
            (run Assignment04.Encoder.posedgeClk s xs).prevState ∧
          (run Assignment04.Encoder.posedgeClk s ys).steps =
            (run Assignment04.Encoder.posedgeClk s xs).steps := by
  refine ⟨?_, ?_, ?_⟩
  · intro s xs ys h
    have hrun := h.run_eq s.pitch
    rwa [← Assignment08.Encoder.run_pitch, ← Assignment08.Encoder.run_pitch] at hrun
  · intro s xs ys h
    have hrun := h.run_eq s.yaw
    rwa [← Assignment08.Encoder.run_yaw, ← Assignment08.Encoder.run_yaw] at hrun
  · intro s xs ys h
    have hrun := h.run_eq s.channel
    rwa [← Assignment04.Encoder.run_channel, ← Assignment04.Encoder.run_channel] at hrun

/-- The pair on both encoders with no reset. -/
def pairPins (b : BitVec 2) : Assignment08.EncoderPins :=
  ⟨b.getLsbD 1, b.getLsbD 0, b.getLsbD 1, b.getLsbD 0, 0⟩

/-- From 00 to 10 and on to 01, where a double jump to 10 and back is put in. -/
theorem decoders_bounce_jump :
    (run Assignment08.Encoder.posedgeClk .cleared
        ([0b00, 0b10, 0b01, 0b10, 0b10, 0b01, 0b11, 0b11, 0b11].map pairPins)).pitchSteps =
      (run Assignment08.Encoder.posedgeClk .cleared
        ([0b00, 0b10, 0b01, 0b11, 0b11, 0b11].map pairPins)).pitchSteps := by
  obtain ⟨hpitch, -, -⟩ := decoders_bounce
  have hbounced := hpitch .cleared
    ([0b00, 0b10, 0b01, 0b11, 0b11, 0b11].map pairPins)
    ([0b00, 0b10, 0b01, 0b10, 0b10, 0b01, 0b11, 0b11, 0b11].map pairPins)
    ⟨[0b00, 0b10], 0b01, [0b10], [], [0b11, 0b11, 0b11], by decide, by decide, by decide⟩
  exact hbounced.2

/-! ## Missed samples -/

/-- **Missed samples are accounted for.** After the last reset every decoder counts the
change of phase between the samples and, modulo four, two for every step that saw both bits
change. -/
theorem decoders_missed :
    (∀ (s : Assignment08.Encoder) (x : ℕ → Assignment08.EncoderPins) (r : ℕ),
        Channel.Released (fun j => Assignment08.Encoder.pitchInput (x j)) r →
        Channel.Sampled s.pitch (fun j => Assignment08.Encoder.pitchInput (x j))
            (fun j => (before Assignment08.Encoder.posedgeClk s x j).pitch) ∧
          ∀ k > r, Channel.Accounted
            (fun j => (before Assignment08.Encoder.posedgeClk s x j).pitch) r k) ∧
      (∀ (s : Assignment08.Encoder) (x : ℕ → Assignment08.EncoderPins) (r : ℕ),
        Channel.Released (fun j => Assignment08.Encoder.yawInput (x j)) r →
        Channel.Sampled s.yaw (fun j => Assignment08.Encoder.yawInput (x j))
            (fun j => (before Assignment08.Encoder.posedgeClk s x j).yaw) ∧
          ∀ k > r, Channel.Accounted
            (fun j => (before Assignment08.Encoder.posedgeClk s x j).yaw) r k) ∧
      ∀ (s : Assignment04.Encoder) (x : ℕ → BitVec 4) (r : ℕ),
        Channel.Released (fun j => Assignment04.Encoder.input (x j)) r →
        Channel.Sampled s.channel (fun j => Assignment04.Encoder.input (x j))
            (fun j => (before Assignment04.Encoder.posedgeClk s x j).channel) ∧
          ∀ k > r, Channel.Accounted
            (fun j => (before Assignment04.Encoder.posedgeClk s x j).channel) r k := by
  refine ⟨?_, ?_, ?_⟩
  · intro s x r h
    simp only [Assignment08.Encoder.before_pitch]
    exact ⟨s.pitch.sampled _, fun k hk => h.accounted (by decide) s.pitch hk⟩
  · intro s x r h
    simp only [Assignment08.Encoder.before_yaw]
    exact ⟨s.yaw.sampled _, fun k hk => h.accounted (by decide) s.yaw hk⟩
  · intro s x r h
    simp only [Assignment04.Encoder.before_channel]
    exact ⟨s.channel.sampled _, fun k hk => h.accounted (by decide) s.channel hk⟩

/-- A reset at edge 0, and then a jump from 00 to 11 and two steps back to 00 over and over. -/
def jumping (j : ℕ) : BitVec 4 :=
  if j = 0 then 0b1000 else if j % 3 = 0 then 0b0000 else if j % 3 = 1 then 0b0011 else 0b0001

/-- Three jumps and six steps, which is twelve positions or none. -/
theorem decoders_missed_jumping :
    (before Assignment04.Encoder.posedgeClk ⟨0, 0, 0, 0, 0⟩ jumping 12).steps = 6 ∧
      Channel.Accounted
        (fun j => (before Assignment04.Encoder.posedgeClk ⟨0, 0, 0, 0, 0⟩ jumping j).channel) 0 12 := by
  obtain ⟨-, -, hsingle⟩ := decoders_missed
  refine ⟨by decide, (hsingle ⟨0, 0, 0, 0, 0⟩ jumping 0 ⟨rfl, fun j hj => ?_⟩).2 12 (by decide)⟩
  have hj' : j ≠ 0 := Nat.ne_of_gt hj
  simp only [jumping, hj', if_false, Assignment04.Encoder.input]
  split_ifs <;> rfl

end EmSysLab
