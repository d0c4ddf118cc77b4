import EmSysLab.Assignment08.Encoder

/-!
# The bus component of assignment_08

`esl_bus_demo.v` with the widths it is instantiated with. A read returns whatever
`slave_readdata` holds: the encoder's two output registers, copied together at every
edge. `user_output` is driven by nothing and left out, as are the wires `mem_masked`
and `enable`, which drive nothing.
-/
namespace EmSysLab.Assignment08

open Clocked Quadrature

/-- The pins at one clk edge. The bus reset is asynchronous, so a pulse between two edges
counts as well. -/
structure BusPins where
  slaveAddress : BitVec 8
  slaveRead : Bool
  slaveWrite : Bool
  slaveWritedata : BitVec 32
  slaveByteenable : BitVec 4
  reset : Bool
  /-- reset rose at some time since the edge before. -/
  resetRose : Bool
  encoder : EncoderPins
  deriving DecidableEq, Repr

structure EslBusDemo where
  mem : BitVec 32
  slaveReaddata : BitVec 32
  encoderInst : Encoder
  deriving DecidableEq, Repr

namespace EslBusDemo

/-- One rising edge of clk. Neither address, read nor byteenable is looked at. -/
def posedgeClk (s : EslBusDemo) (x : BusPins) : EslBusDemo where
  mem :=
    if x.reset then 0
    else if x.slaveWrite then x.slaveWritedata
    else if x.resetRose then 0
    else s.mem
  slaveReaddata :=
    if x.reset then 0 else s.encoderInst.pitchStepsOut ++ s.encoderInst.yawStepsOut
  encoderInst := s.encoderInst.posedgeClk x.encoder

theorem before_encoderInst (s : EslBusDemo) (x : ℕ → BusPins) (k : ℕ) :
    (before posedgeClk s x k).encoderInst =
      before Encoder.posedgeClk s.encoderInst (fun j => (x j).encoder) k :=
  before_map encoderInst BusPins.encoder (fun _ _ => rfl) s x k

/-- The read-out is the pair of counters as they stood one edge earlier. -/
theorem slaveReaddata_eq (s : EslBusDemo) (x : ℕ → BusPins) {k : ℕ} (hk : 1 ≤ k)
    (hreset : (x k).reset = false) :
    (before posedgeClk s x (k + 1)).slaveReaddata =
      (before posedgeClk s x (k - 1)).encoderInst.pitchSteps ++
        (before posedgeClk s x (k - 1)).encoderInst.yawSteps := by
  obtain ⟨k, rfl⟩ := Nat.exists_eq_add_of_le' hk
  rw [before_succ, Nat.add_sub_cancel]
  simp only [posedgeClk, hreset]
  rfl

end EslBusDemo

/-- **Coherent read-out.** After every edge out of reset but the first, the two halves of
the read-out are the counters of one instant; the counters are the sums of the steps of
their own channel since the last SW[3] reset; and only the encoder pins move them. -/
theorem coherent_readout (s : EslBusDemo) (hs : s.encoderInst.PowerUp) (x : ℕ → BusPins) :
    (∀ k ≥ 1, (x k).reset = false →
        (before EslBusDemo.posedgeClk s x (k + 1)).slaveReaddata.extractLsb' 16 16 =
            (before EslBusDemo.posedgeClk s x (k - 1)).encoderInst.pitchSteps ∧
          (before EslBusDemo.posedgeClk s x (k + 1)).slaveReaddata.extractLsb' 0 16 =
            (before EslBusDemo.posedgeClk s x (k - 1)).encoderInst.yawSteps) ∧
      (∀ k, (before EslBusDemo.posedgeClk s x k).encoderInst.pitchSteps =
            BitVec.ofInt 16
              (s.encoderInst.pitch.stepSum (fun j => Encoder.pitchInput (x j).encoder) k) ∧
          (before EslBusDemo.posedgeClk s x k).encoderInst.yawSteps =
            BitVec.ofInt 16
              (s.encoderInst.yaw.stepSum (fun j => Encoder.yawInput (x j).encoder) k)) ∧
      ∀ y : ℕ → BusPins, (∀ j, (y j).encoder = (x j).encoder) → ∀ k,
        (before EslBusDemo.posedgeClk s y k).encoderInst =
          (before EslBusDemo.posedgeClk s x k).encoderInst := by
  refine ⟨?_, ?_, ?_⟩
  · intro k hk hreset
    rw [EslBusDemo.slaveReaddata_eq s x hk hreset]
    exact ⟨BitVec.extractLsb'_append_eq_left, BitVec.extractLsb'_append_eq_right⟩
  · intro k
    rw [EslBusDemo.before_encoderInst]
    exact ⟨Encoder.before_pitchSteps hs _ k, Encoder.before_yawSteps hs _ k⟩
  · intro y hy k
    simp only [EslBusDemo.before_encoderInst, hy]

def EslBusDemo.cleared : EslBusDemo := ⟨0, 0, Encoder.cleared⟩

/-- The pitch encoder stands at 10 while the bus writes at every edge. -/
def stepWave (_ : ℕ) : BusPins :=
  ⟨4, false, true, 0xdeadbeef, 0b0011, false, false, ⟨true, false, false, false, 0⟩⟩

theorem coherent_readout_step :
    (before EslBusDemo.posedgeClk .cleared stepWave 6).slaveReaddata.extractLsb' 16 16 =
        (before EslBusDemo.posedgeClk .cleared stepWave 4).encoderInst.pitchSteps ∧
      (before EslBusDemo.posedgeClk .cleared stepWave 4).encoderInst.pitchSteps = 1 := by
  obtain ⟨hread, hsteps, -⟩ := coherent_readout .cleared Encoder.powerUp_cleared stepWave
  refine ⟨(hread 5 (by decide) rfl).1, ?_⟩
  rw [(hsteps 4).1]
  decide

end EmSysLab.Assignment08
