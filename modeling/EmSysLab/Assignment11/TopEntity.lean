import EmSysLab.Clocked.DelayLine
import EmSysLab.Serial.Wave
import EmSysLab.Serial.ShiftRegister

/-!
# The SPI slave of assignment_11

The clk process of `TopEntity.v`. The three synchronisers are kept apart from the
registers behind them, so that the process reads as: every edge shifts the pins
into the synchronisers and lets the core act on the oldest synchronised levels. All
assignments are nonblocking; a right-hand side reads the register before the edge.
-/
namespace EmSysLab.Assignment11

open Serial (Sample)

def motor1Command : BitVec 8 := 0x01
def motor2Command : BitVec 8 := 0x02
def ledCommand : BitVec 8 := 0x03

/-- The registers that a completed byte can change. -/
@[ext] structure CommandRegs where
  currentCommand : BitVec 8
  pwmSpeed : BitVec 5
  pwmDir : Bool
  pwmEnable : Bool
  pwmBrake : Bool
  ledLatch : Bool
  deriving DecidableEq, Repr

/-- The registers of the clk process behind the synchronisers. -/
@[ext] structure Core where
  byteIn : BitVec 8
  bitCount : BitVec 3
  cmd : CommandRegs
  spiClkPrev : Bool
  encoderValue : BitVec 14
  misoShift : BitVec 16
  spiPoci : Bool
  deriving DecidableEq, Repr

/-- All registers of the clk process. Stage 2 of a synchroniser is the oldest. -/
structure Regs where
  core : Core
  spiClkSync : BitVec 3
  spiCsSync : BitVec 3
  spiMosiSync : BitVec 3
  deriving DecidableEq, Repr

/-- The command branches at the eighth bit. `byteIn` is the register as it stood
before the edge. -/
def processByte (r : CommandRegs) (byteIn : BitVec 8) : CommandRegs :=
  if r.currentCommand = 0x00 then
    -- the case statement has no default: any other byte is ignored
    if byteIn = motor1Command then { r with currentCommand := motor1Command }
    else if byteIn = motor2Command then { r with currentCommand := motor2Command }
    else if byteIn = ledCommand then { r with currentCommand := ledCommand }
    else r
  else if r.currentCommand = motor1Command then
    { r with
      pwmSpeed := byteIn.extractLsb' 0 5
      pwmDir := byteIn.getLsbD 5
      pwmEnable := byteIn.getLsbD 6
      pwmBrake := byteIn.getLsbD 7
      currentCommand := 0x00 }
  else if r.currentCommand = motor2Command then
    { r with currentCommand := 0x00 }
  else if r.currentCommand = ledCommand then
    { r with ledLatch := byteIn.getLsbD 0, currentCommand := 0x00 }
  else r

/-- The clk process behind the synchronisers; `x` holds `spi_clk_sync[2]`,
`spi_mosi_sync[2]` and `spi_cs_sync[2]`. -/
def Core.clkProcess (c : Core) (x : Sample) : Core :=
  let spiClkRise := x.sclk && !c.spiClkPrev
  let spiCsActive := !x.cs
  if !spiCsActive then
    { c with
      spiClkPrev := x.sclk
      bitCount := 0
      cmd := { c.cmd with currentCommand := 0x00 }
      misoShift := 0#2 ++ c.encoderValue
      spiPoci := false }
  else if spiClkRise then
    { c with
      spiClkPrev := x.sclk
      spiPoci := c.misoShift.getLsbD 15
      byteIn := c.byteIn.shiftConcat x.pico
      bitCount := c.bitCount + 1
      misoShift := c.misoShift.shiftConcat false
      cmd := if c.bitCount = 7 then processByte c.cmd c.byteIn else c.cmd }
  else
    { c with
      spiClkPrev := x.sclk
      spiPoci := c.misoShift.getLsbD 15 }

/-- Stage `i` of the three synchronisers. -/
def Regs.stage (s : Regs) (i : ℕ) : Sample where
  sclk := s.spiClkSync.getLsbD i
  pico := s.spiMosiSync.getLsbD i
  cs := s.spiCsSync.getLsbD i

/-- One clk edge with the pins at `x`. -/
def clkProcess (s : Regs) (x : Sample) : Regs where
  core := s.core.clkProcess (s.stage 2)
  spiClkSync := s.spiClkSync.shiftConcat x.sclk
  spiCsSync := s.spiCsSync.shiftConcat x.cs
  spiMosiSync := s.spiMosiSync.shiftConcat x.pico

/-- The clk process is its core behind a three-stage synchroniser. -/
def sync : Clocked.Delayed clkProcess Core.clkProcess where
  view := Regs.core
  oldest s := s.stage 2
  younger s := [s.stage 1, s.stage 0]
  view_step _ _ := rfl
  flight_step s x := by
    simp [Regs.stage, clkProcess]

/-- The core runs on the pins as they were three edges earlier. -/
theorem core_run (s : Regs) (xs : List Sample) :
    (Clocked.run clkProcess s xs).core =
      Clocked.run Core.clkProcess s.core ((sync.seen s xs).take xs.length) :=
  sync.view_run s xs

theorem core_run_take (s : Regs) (xs : List Sample) {k : ℕ} (hk : k ≤ xs.length) :
    (Clocked.run clkProcess s (xs.take k)).core =
      Clocked.run Core.clkProcess s.core ((sync.seen s xs).take k) :=
  sync.view_run_take s xs hk

theorem length_seen (s : Regs) (xs : List Sample) : (sync.seen s xs).length = xs.length + 3 :=
  (sync.length_seen s xs).trans (Nat.add_comm _ _)

/-- CS has been high for three samples, so the synchroniser holds nothing else. -/
def Regs.CsIdle (s : Regs) : Prop := s.spiCsSync = 0b111

instance (s : Regs) : Decidable s.CsIdle := inferInstanceAs (Decidable (s.spiCsSync = 0b111))

/-- The state follows an edge at which the synchronised CS was high. -/
def Regs.AfterCsHigh (s : Regs) : Prop :=
  ∃ s' x, (Regs.stage s' 2).cs = true ∧ s = clkProcess s' x

/-- The SCLK level last sampled. -/
def Regs.clkLevel (s : Regs) : Bool := s.spiClkSync.getLsbD 0

theorem flight_deselected {s : Regs} (h : s.CsIdle) : Serial.Deselected (sync.flight s) := by
  have hs : s.spiCsSync = 0b111#3 := h
  simp [Serial.Deselected, Clocked.Delayed.flight, sync, Regs.stage, hs]

theorem Regs.CsIdle.stage_zero {s : Regs} (h : s.CsIdle) : (s.stage 0).cs = true :=
  flight_deselected h _ (by simp [sync, Clocked.Delayed.flight])

/-! ## One edge of the core -/

section Edge

variable (c : Core) (x : Sample)

@[simp] theorem clkProcess_spiClkPrev : (c.clkProcess x).spiClkPrev = x.sclk := by
  simp only [Core.clkProcess]
  split
  · rfl
  · split <;> rfl

@[simp] theorem clkProcess_encoderValue : (c.clkProcess x).encoderValue = c.encoderValue := by
  simp only [Core.clkProcess]
  split
  · rfl
  · split <;> rfl

/-- With CS high the edge clears the bit counter and the pending command. -/
theorem clkProcess_high (h : x.cs = true) : c.clkProcess x =
    { c with
      spiClkPrev := x.sclk
      bitCount := 0
      cmd := { c.cmd with currentCommand := 0x00 }
      misoShift := 0#2 ++ c.encoderValue
      spiPoci := false } := by
  simp [Core.clkProcess, h]

/-- With CS low an edge that sees no rise only drives the output line. -/
theorem clkProcess_quiet (h : x.cs = false) (hr : Serial.rising c.spiClkPrev x = false) :
    c.clkProcess x =
      { c with spiClkPrev := x.sclk, spiPoci := c.misoShift.getLsbD 15 } := by
  have hr' : (x.sclk && !c.spiClkPrev) = false := hr
  simp only [Core.clkProcess, h, hr']
  rfl

/-- With CS low a rise shifts both registers, and the eighth one processes the byte. -/
theorem clkProcess_rise (h : x.cs = false) (hr : Serial.rising c.spiClkPrev x = true) :
    c.clkProcess x =
      { c with
        spiClkPrev := x.sclk
        spiPoci := c.misoShift.getLsbD 15
        byteIn := c.byteIn.shiftConcat x.pico
        bitCount := c.bitCount + 1
        misoShift := c.misoShift.shiftConcat false
        cmd := if c.bitCount = 7 then processByte c.cmd c.byteIn else c.cmd } := by
  have hr' : (x.sclk && !c.spiClkPrev) = true := hr
  simp only [Core.clkProcess, h, hr']
  rfl

end Edge

theorem run_spiClkPrev (c : Core) (xs : List Sample) :
    (Clocked.run Core.clkProcess c xs).spiClkPrev = Serial.lastLevel c.spiClkPrev xs := by
  induction xs generalizing c with
  | nil => rfl
  | cons x xs ih => rw [Clocked.run_cons, ih, clkProcess_spiClkPrev, Serial.lastLevel_cons]

theorem run_encoderValue (c : Core) (xs : List Sample) :
    (Clocked.run Core.clkProcess c xs).encoderValue = c.encoderValue :=
  Clocked.run_frame (A := fun _ => True) Core.encoderValue
    (fun s x _ => clkProcess_encoderValue s x) c (fun _ _ => trivial)

/-- No bit is counted and no command is pending. -/
def Core.Cleared (c : Core) : Prop := c.bitCount = 0 ∧ c.cmd.currentCommand = 0

theorem AfterCsHigh.cleared {s : Regs} (h : s.AfterCsHigh) : s.core.Cleared := by
  obtain ⟨s', x, hcs, rfl⟩ := h
  simp [Core.Cleared, clkProcess, clkProcess_high _ _ hcs]

end EmSysLab.Assignment11
