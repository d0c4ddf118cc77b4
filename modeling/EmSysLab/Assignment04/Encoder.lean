import EmSysLab.Quadrature.Channel

/-!
# The encoder of assignment_04

`Encoder.v`. The case statement that updates the counter is the same text in this
decoder and in both channels of assignment_08, up to the counter's width.
-/
namespace EmSysLab

open Clocked Quadrature

/-- The case statement on the previous state. The `default` branch assigns only the
previous state, which the statement after the case overrides. -/
def stepCase {w : ℕ} (prevState currentState : BitVec 2) (steps : BitVec w) : BitVec w :=
  if prevState = 0b00 then
    if currentState = 0b10 then steps + 1
    else if currentState = 0b01 then steps - 1
    else steps
  else if prevState = 0b01 then
    if currentState = 0b11 then steps - 1
    else if currentState = 0b00 then steps + 1
    else steps
  else if prevState = 0b10 then
    if currentState = 0b00 then steps - 1
    else if currentState = 0b11 then steps + 1
    else steps
  else if prevState = 0b11 then
    if currentState = 0b01 then steps + 1
    else if currentState = 0b10 then steps - 1
    else steps
  else steps

/-- The sixteen branches add the quadrature step. -/
theorem stepCase_eq {w : ℕ} (prevState currentState : BitVec 2) (steps : BitVec w) :
    stepCase prevState currentState steps =
      steps + BitVec.ofInt w (delta prevState currentState) := by
  have hsub : steps - 1#w = steps + BitVec.ofInt w (-1) := by
    rw [BitVec.sub_eq_add_neg, BitVec.ofInt_neg]
    rfl
  rcases cases_bits prevState with rfl | rfl | rfl | rfl <;>
    rcases cases_bits currentState with rfl | rfl | rfl | rfl <;>
      simp [stepCase, delta, next, hsub]

namespace Assignment04

structure Encoder where
  steps : BitVec 8
  sync0 : BitVec 2
  sync1 : BitVec 2
  prevState : BitVec 2
  led : BitVec 8
  deriving DecidableEq, Repr

namespace Encoder

/-- One rising edge of FPGA_CLK1_50. The reset branch also assigns 0 to LED, but the last
assignment of the process wins. -/
def posedgeClk (s : Encoder) (sw : BitVec 4) : Encoder where
  sync0 := sw.extractLsb' 0 2
  sync1 := s.sync0
  steps := if sw.getLsbD 3 then 0 else stepCase s.prevState s.sync1 s.steps
  prevState := s.sync1
  led := s.steps

def channel (s : Encoder) : Channel 8 := ⟨s.sync0, s.sync1, s.prevState, s.steps⟩

/-- The sample and the reset level on the switches. -/
def input (sw : BitVec 4) : BitVec 2 × Bool := (sw.extractLsb' 0 2, sw.getLsbD 3)

theorem channel_posedgeClk (s : Encoder) (sw : BitVec 4) :
    (s.posedgeClk sw).channel = s.channel.step (input sw) := by
  simp only [channel, posedgeClk, Channel.step, input, stepCase_eq]
  rfl

theorem before_channel (s : Encoder) (x : ℕ → BitVec 4) (k : ℕ) :
    (before posedgeClk s x k).channel = before Channel.step s.channel (fun j => input (x j)) k :=
  before_map channel input channel_posedgeClk s x k

theorem run_channel (s : Encoder) (xs : List (BitVec 4)) :
    (run posedgeClk s xs).channel = run Channel.step s.channel (xs.map input) :=
  run_map channel input channel_posedgeClk s xs

end Encoder

end Assignment04

end EmSysLab
