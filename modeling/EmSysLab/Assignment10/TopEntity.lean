import EmSysLab.Clocked.DelayLine
import EmSysLab.Serial.ShiftRegister
import EmSysLab.Serial.Wave

/-!
# The SPI slave of assignment_10

`TopEntity.v`, and `SPI.v` with the same body. The first two stages of each
synchroniser only delay; the registers behind them act on the level in the middle
stage and, for the edge detectors, on the one before it. `Core` is that part of the
design, driven by one synchronised sample at an edge.
-/
namespace EmSysLab.Assignment10

open Serial Clocked

structure TopEntity where
  spiClkr : BitVec 3
  spiCsr : BitVec 3
  spiPicor : BitVec 2
  bitcnt : BitVec 3
  byteReceived : Bool
  byteDataReceived : BitVec 8
  led2 : Bool
  byteDataSent : BitVec 8
  cnt : BitVec 8
  deriving DecidableEq, Repr

namespace TopEntity

variable (s : TopEntity)

def spiClkRisingedge : Bool := s.spiClkr.extractLsb' 1 2 == 0b01#2
def spiClkFallingedge : Bool := s.spiClkr.extractLsb' 1 2 == 0b10#2
def spiCsActive : Bool := !s.spiCsr.getLsbD 1
def spiCsStartmessage : Bool := s.spiCsr.extractLsb' 1 2 == 0b10#2
def spiPicoData : Bool := s.spiPicor.getLsbD 1
def spiPoci : Bool := s.byteDataSent.getLsbD 7

/-- One rising edge of clk with the pins at `x`; all processes assign nonblocking. -/
def posedgeClk (s : TopEntity) (x : Sample) : TopEntity where
  spiClkr := s.spiClkr.shiftConcat x.sclk
  spiCsr := s.spiCsr.shiftConcat x.cs
  spiPicor := s.spiPicor.shiftConcat x.pico
  bitcnt :=
    if !s.spiCsActive then 0
    else if s.spiClkRisingedge then s.bitcnt + 1
    else s.bitcnt
  byteDataReceived :=
    if !s.spiCsActive then s.byteDataReceived
    else if s.spiClkRisingedge then s.byteDataReceived.shiftConcat s.spiPicoData
    else s.byteDataReceived
  byteReceived := s.spiCsActive && s.spiClkRisingedge && s.bitcnt == 0b111
  led2 := if s.byteReceived then s.byteDataReceived.getLsbD 0 else s.led2
  cnt := if s.spiCsStartmessage then s.cnt + 1 else s.cnt
  byteDataSent :=
    if s.spiCsActive then
      if s.spiCsStartmessage then s.cnt
      else if s.spiClkFallingedge then
        if s.bitcnt = 0 then 0 else s.byteDataSent.shiftConcat false
      else s.byteDataSent
    else s.byteDataSent

end TopEntity

/-! ## The registers behind the synchronisers -/

/-- `clkPrev` and `csPrev` are the levels one sample before the one being acted on. -/
@[ext] structure Core where
  clkPrev : Bool
  csPrev : Bool
  bitcnt : BitVec 3
  byteReceived : Bool
  byteDataReceived : BitVec 8
  led2 : Bool
  byteDataSent : BitVec 8
  cnt : BitVec 8

def Core.act (c : Core) (x : Sample) : Core where
  clkPrev := x.sclk
  csPrev := x.cs
  bitcnt := if x.cs then 0 else if rising c.clkPrev x then c.bitcnt + 1 else c.bitcnt
  byteReceived := !x.cs && rising c.clkPrev x && c.bitcnt == 0b111
  byteDataReceived :=
    if !x.cs && rising c.clkPrev x then c.byteDataReceived.shiftConcat x.pico
    else c.byteDataReceived
  led2 := if c.byteReceived then c.byteDataReceived.getLsbD 0 else c.led2
  cnt := if !x.cs && c.csPrev then c.cnt + 1 else c.cnt
  byteDataSent :=
    if x.cs then c.byteDataSent
    else if c.csPrev then c.cnt
    else if falling c.clkPrev x then
      if c.bitcnt = 0 then 0 else c.byteDataSent.shiftConcat false
    else c.byteDataSent

namespace TopEntity

def core (s : TopEntity) : Core :=
  ⟨s.spiClkr.getLsbD 2, s.spiCsr.getLsbD 2, s.bitcnt, s.byteReceived, s.byteDataReceived, s.led2,
    s.byteDataSent, s.cnt⟩

/-- Stage `i` of the three synchronisers. -/
def stage (s : TopEntity) (i : ℕ) : Sample :=
  ⟨s.spiClkr.getLsbD i, s.spiPicor.getLsbD i, s.spiCsr.getLsbD i⟩

theorem core_posedgeClk (s : TopEntity) (x : Sample) :
    (s.posedgeClk x).core = s.core.act (s.stage 1) := by
  have hrise : ∀ v : BitVec 3,
      (v.extractLsb' 1 2 == 0b01#2) = (v.getLsbD 1 && !v.getLsbD 2) := by decide
  have hfall : ∀ v : BitVec 3,
      (v.extractLsb' 1 2 == 0b10#2) = (!v.getLsbD 1 && v.getLsbD 2) := by decide
  have hclk : (s.spiClkr.shiftConcat x.sclk).getLsbD 2 = s.spiClkr.getLsbD 1 := by simp
  have hcs : (s.spiCsr.shiftConcat x.cs).getLsbD 2 = s.spiCsr.getLsbD 1 := by simp
  simp only [core, posedgeClk, Core.act, stage, spiClkRisingedge, spiClkFallingedge, spiCsActive,
    spiCsStartmessage, spiPicoData, rising, falling, hrise, hfall, hclk, hcs, Bool.not_not]
  by_cases hactive : s.spiCsr.getLsbD 1 = true
  · simp only [hactive, Bool.not_true, Bool.false_and, Bool.false_eq_true, if_true, if_false]
    rfl
  · rw [Bool.not_eq_true] at hactive
    simp only [hactive, Bool.not_false, Bool.true_and, Bool.false_eq_true, if_true, if_false]
    rfl

end TopEntity

/-- The slave is its core behind a two-stage synchroniser. -/
def sync : Delayed TopEntity.posedgeClk Core.act where
  view := TopEntity.core
  oldest s := s.stage 1
  younger s := [s.stage 0]
  view_step := TopEntity.core_posedgeClk
  flight_step s x := by
    simp [TopEntity.stage, TopEntity.posedgeClk]

/-- CS has been high for three samples. -/
def TopEntity.CsIdle (s : TopEntity) : Prop := s.spiCsr = 0b111

/-- The slave at rest with `cnt` at `n`. -/
def TopEntity.rest (n : BitVec 8) : TopEntity where
  spiClkr := 0b000
  spiCsr := 0b111
  spiPicor := 0b00
  bitcnt := 0
  byteReceived := false
  byteDataReceived := 0
  led2 := false
  byteDataSent := 0
  cnt := n

end EmSysLab.Assignment10
