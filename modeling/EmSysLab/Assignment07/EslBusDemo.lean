import EmSysLab.Clocked.Register

/-!
# The countdown on the bus of assignment_07

`esl_bus_demo.v` and the counter it instantiates, `esl_bus_demo_example.v`, with 32 data
bits and any number `n` of LEDs. The component declares byte enables to the bus but its
always block never looks at them: every write replaces all four bytes. The address is
ignored as well, and `slave_readdata` is not reset.
-/
namespace EmSysLab.Assignment07

open Clocked

/-! ## The counter -/

/-- 2^26 less the clock edges between two ticks. -/
def residual : BitVec 26 := 17108864

/-- The registers of `esl_bus_demo_example`. -/
structure EslBusDemoExample (n : ℕ) where
  counter : BitVec 26
  counterOverflow : Bool
  countDownInput : BitVec n
  countDown : BitVec n
  deriving DecidableEq, Repr

namespace EslBusDemoExample

variable {n : ℕ}

/-- The reset branches of the two processes. -/
def reset (n : ℕ) : EslBusDemoExample n where
  counter := residual
  counterOverflow := false
  countDownInput := 0
  countDown := BitVec.allOnes n

/-- One rising edge of clk out of reset. -/
def posedgeClk (s : EslBusDemoExample n) (cntEnable : Bool) (input : BitVec n) :
    EslBusDemoExample n :=
  if cntEnable then
    { counter := if s.counter = 0 then residual else s.counter + 1
      counterOverflow := decide (s.counter = 0)
      countDownInput := if input ≠ s.countDownInput then input else s.countDownInput
      -- of the three assignments to count_down the last one made wins
      countDown :=
        if s.counterOverflow then s.countDown - 1
        else if s.countDown = 0 then s.countDownInput
        else if input ≠ s.countDownInput then input
        else s.countDown }
  else s

end EslBusDemoExample

/-! ## The bus component -/

/-- The bus signals at one clk edge. -/
structure BusCycle where
  slaveAddress : BitVec 8
  slaveRead : Bool
  slaveWrite : Bool
  slaveWritedata : BitVec 32
  slaveByteenable : BitVec 4
  deriving DecidableEq, Repr

structure EslBusDemo (n : ℕ) where
  mem : BitVec 32
  slaveReaddata : BitVec 32
  myIp : EslBusDemoExample n
  deriving DecidableEq, Repr

namespace EslBusDemo

variable {n : ℕ}

/-- The low bits of the register, the input of the countdown. -/
def memMasked (s : EslBusDemo n) : BitVec n := s.mem.setWidth n

def enable (s : EslBusDemo n) : Bool := s.mem.getLsbD 31

/-- A rising edge of reset, or one of clk while reset is high. -/
def posedgeReset (s : EslBusDemo n) : EslBusDemo n :=
  { s with mem := 0, myIp := EslBusDemoExample.reset n }

/-- One rising edge of clk while reset is low. -/
def posedgeClk (s : EslBusDemo n) (x : BusCycle) : EslBusDemo n where
  mem := if x.slaveWrite then x.slaveWritedata else s.mem
  slaveReaddata := if x.slaveRead then s.mem else s.slaveReaddata
  myIp := s.myIp.posedgeClk s.enable s.memMasked

end EslBusDemo

/-! ## A register with byte enables -/

/-- What a bus cycle is to do to the register. -/
def mergeWrite (word : BitVec 32) (x : BusCycle) : BitVec 32 :=
  if x.slaveWrite then mergeBytes x.slaveByteenable word x.slaveWritedata else word

/-- Bit `i` as the last write before cycle `k` carries it. -/
def lastWritten (x : ℕ → BusCycle) (i k : ℕ) : Bool :=
  lastValue BusCycle.slaveWrite (fun c => c.slaveWritedata.getLsbD i) false x k

/-- Bit `i` as the last write before cycle `k` that enables its byte carries it. -/
def lastEnabled (x : ℕ → BusCycle) (i k : ℕ) : Bool :=
  lastValue (fun c => c.slaveWrite && c.slaveByteenable.getLsbD (i / 8))
    (fun c => c.slaveWritedata.getLsbD i) false x k

theorem getLsbD_mergeWrite (x : ℕ → BusCycle) (i k : ℕ) :
    (before mergeWrite 0 x k).getLsbD i = lastEnabled x i k := by
  have hstep : ∀ word c, (mergeWrite word c).getLsbD i =
      if c.slaveWrite && c.slaveByteenable.getLsbD (i / 8) then c.slaveWritedata.getLsbD i
      else word.getLsbD i := by
    intro word c
    unfold mergeWrite
    cases c.slaveWrite with
    | false => rfl
    | true => exact getLsbD_mergeBytes c.slaveByteenable word c.slaveWritedata i
  refine (before_eq_lastValue (f := fun word : BitVec 32 => word.getLsbD i) hstep 0 x k).trans ?_
  rw [show (0 : BitVec 32).getLsbD i = false from BitVec.getLsbD_zero]
  rfl

namespace EslBusDemo

variable {n : ℕ}

/-- The register holds the last written word, whatever bytes were enabled. -/
theorem getLsbD_mem (s : EslBusDemo n) (x : ℕ → BusCycle) (i k : ℕ) :
    (before posedgeClk s.posedgeReset x k).mem.getLsbD i = lastWritten x i k := by
  have hstep : ∀ (s : EslBusDemo n) c, (s.posedgeClk c).mem.getLsbD i =
      if c.slaveWrite then c.slaveWritedata.getLsbD i else s.mem.getLsbD i := by
    intro s c
    unfold posedgeClk
    cases c.slaveWrite with
    | false => rfl
    | true => rfl
  refine (before_eq_lastValue (f := fun s : EslBusDemo n => s.mem.getLsbD i) hstep
    s.posedgeReset x k).trans ?_
  rw [show s.posedgeReset.mem.getLsbD i = false from BitVec.getLsbD_zero]
  rfl

/-- A read returns the register as it stood at the edge. -/
theorem slaveReaddata_succ (s : EslBusDemo n) (x : ℕ → BusCycle) {k : ℕ}
    (hread : (x k).slaveRead = true) :
    (before posedgeClk s x (k + 1)).slaveReaddata = (before posedgeClk s x k).mem := by
  rw [before_succ]
  exact if_pos hread

end EslBusDemo

/-- What a register with byte enables shows after a reset: to the bus, and to the counter. -/
structure ByteEnabled {n : ℕ} (s : EslBusDemo n) (x : ℕ → BusCycle) : Prop where
  readdata : ∀ k, (x k).slaveRead = true →
    (before EslBusDemo.posedgeClk s.posedgeReset x (k + 1)).slaveReaddata = before mergeWrite 0 x k
  enable : ∀ k, (before EslBusDemo.posedgeClk s.posedgeReset x k).enable =
    (before mergeWrite 0 x k).getLsbD 31
  input : ∀ k, (before EslBusDemo.posedgeClk s.posedgeReset x k).memMasked =
    (before mergeWrite 0 x k).setWidth n

/-- The bits of the register that are seen in a cycle: all in a read, else the enable bit and
the `n` low ones. -/
def Seen (n : ℕ) (c : BusCycle) (i : ℕ) : Prop := c.slaveRead = true ∨ i = 31 ∨ i < n

/-- **Byte enables.** The component is a register with byte enables exactly as long as every
bit that is seen was last written with its byte enabled, or with the same value. -/
theorem byteEnabled_iff {n : ℕ} (s : EslBusDemo n) (x : ℕ → BusCycle) :
    ByteEnabled s x ↔
      ∀ k, ∀ i < 32, Seen n (x k) i → lastWritten x i k = lastEnabled x i k := by
  constructor
  · intro h k i hi hseen
    rw [← s.getLsbD_mem, ← getLsbD_mergeWrite]
    rcases hseen with hread | rfl | hlow
    · rw [← h.readdata k hread, EslBusDemo.slaveReaddata_succ _ x hread]
    · exact h.enable k
    · have hbit := congrArg (fun v => v.getLsbD i) (h.input k)
      unfold EslBusDemo.memMasked at hbit
      simp only [BitVec.getLsbD_setWidth, decide_eq_true hlow, Bool.true_and] at hbit
      exact hbit
  · intro h
    constructor
    · intro k hread
      rw [EslBusDemo.slaveReaddata_succ _ x hread]
      apply BitVec.eq_of_getLsbD_eq
      intro i hi
      rw [s.getLsbD_mem, getLsbD_mergeWrite]
      exact h k i hi (.inl hread)
    · intro k
      rw [EslBusDemo.enable, s.getLsbD_mem, getLsbD_mergeWrite]
      exact h k 31 (by decide) (.inr (.inl rfl))
    · intro k
      apply BitVec.eq_of_getLsbD_eq
      intro i hlow
      rw [EslBusDemo.memMasked, BitVec.getLsbD_setWidth, BitVec.getLsbD_setWidth, s.getLsbD_mem,
        getLsbD_mergeWrite]
      by_cases hi : i < 32
      · rw [h k i hi (.inr (.inr hlow))]
      · rw [← s.getLsbD_mem, ← getLsbD_mergeWrite, BitVec.getLsbD_of_ge _ _ (Nat.le_of_not_lt hi),
          BitVec.getLsbD_of_ge _ _ (Nat.le_of_not_lt hi)]

/-- Writes of whole words, the only ones of the host program, cannot tell the difference. -/
theorem lastWritten_of_full {x : ℕ → BusCycle}
    (hfull : ∀ k, (x k).slaveWrite = true → (x k).slaveByteenable = BitVec.allOnes 4) {i : ℕ}
    (hi : i < 32) (k : ℕ) : lastWritten x i k = lastEnabled x i k := by
  unfold lastWritten lastEnabled
  induction k with
  | zero => rfl
  | succ k ih =>
    rw [lastValue_succ, lastValue_succ, ih]
    cases hwrite : (x k).slaveWrite with
    | false => rfl
    | true =>
      have hbyte : i / 8 < 4 := by omega
      rw [hfull k hwrite, BitVec.getLsbD_allOnes, decide_eq_true hbyte]
      rfl

/-- A component with eight LEDs that has just been reset. -/
def EslBusDemo.cleared : EslBusDemo 8 := ⟨0, 0, EslBusDemoExample.reset 8⟩

/-- A whole word is written and read in every cycle. -/
def wordWrites (k : ℕ) : BusCycle := ⟨0, true, true, BitVec.ofNat 32 k, 0b1111⟩

theorem byteEnabled_wordWrites : ByteEnabled EslBusDemo.cleared wordWrites :=
  (byteEnabled_iff _ _).mpr fun k _ hi _ => lastWritten_of_full (fun _ _ => rfl) hi k

/-- A word that sets the enable bit, and a write to its lowest byte. -/
def byteWrite : ℕ → BusCycle
  | 0 => ⟨0, false, true, 0x80000005, 0b1111⟩
  | 1 => ⟨0, false, true, 0x000000ff, 0b0001⟩
  | _ => ⟨0, true, false, 0, 0⟩

/-- The write to the lowest byte clears the enable bit. -/
theorem byteWrite_clobbers :
    (before EslBusDemo.posedgeClk EslBusDemo.cleared.posedgeReset byteWrite 3).slaveReaddata =
        0x000000ff ∧
      before mergeWrite 0 byteWrite 2 = 0x800000ff ∧
      (before EslBusDemo.posedgeClk EslBusDemo.cleared.posedgeReset byteWrite 2).enable = false ∧
      ¬ByteEnabled EslBusDemo.cleared byteWrite := by
  refine ⟨by decide, by decide, by decide, fun h => ?_⟩
  exact absurd (h.enable 2) (by decide)

end EmSysLab.Assignment07
