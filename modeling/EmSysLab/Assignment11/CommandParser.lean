import EmSysLab.Assignment11.ByteDecoder

/-!
# The command branches against a byte-level parser

`Parser` is what the command branches are for: a byte either names a command or is
the payload of the pending one. The core feeds it the latched bytes, not the bytes
sent, so the two agree only where the parser cannot tell one list from the other.
-/
namespace EmSysLab.Assignment11

open Serial Clocked

/-- The command whose payload is awaited. -/
inductive Pending where
  | none
  | motor1
  | motor2
  | led
  deriving DecidableEq, Repr

namespace Pending

/-- The command a byte names. -/
def ofByte (b : BitVec 8) : Pending :=
  if b = 0x01 then .motor1 else if b = 0x02 then .motor2 else if b = 0x03 then .led else .none

/-- The value of `current_command`. -/
def code : Pending → BitVec 8
  | .none => 0x00
  | .motor1 => 0x01
  | .motor2 => 0x02
  | .led => 0x03

theorem code_injective : ∀ p q : Pending, p.code = q.code → p = q := by
  intro p q h
  cases p <;> cases q <;> first | rfl | exact absurd h (by decide)

end Pending

/-- The byte-level parser: the pending command and the outputs it drives. -/
structure Parser where
  pending : Pending
  speed : BitVec 5
  dir : Bool
  enable : Bool
  brake : Bool
  led : Bool
  deriving DecidableEq, Repr

namespace Parser

/-- No command pending, outputs as the registers stand. -/
def start (r : CommandRegs) : Parser :=
  ⟨.none, r.pwmSpeed, r.pwmDir, r.pwmEnable, r.pwmBrake, r.ledLatch⟩

def feed (p : Parser) (b : BitVec 8) : Parser :=
  match p.pending with
  | .none => { p with pending := .ofByte b }
  | .motor1 =>
    { p with
      pending := .none
      speed := b.extractLsb' 0 5
      dir := b.getLsbD 5
      enable := b.getLsbD 6
      brake := b.getLsbD 7 }
  | .motor2 => { p with pending := .none }
  | .led => { p with pending := .none, led := b.getLsbD 0 }

/-- The command registers that represent a parser state. -/
def regs (p : Parser) : CommandRegs :=
  ⟨p.pending.code, p.speed, p.dir, p.enable, p.brake, p.led⟩

end Parser

/-- The command branches are the parser, on the byte they are given. -/
theorem processByte_regs (p : Parser) (b : BitVec 8) :
    processByte p.regs b = (p.feed b).regs := by
  obtain ⟨pending, speed, dir, enable, brake, led⟩ := p
  cases pending with
  | none =>
    simp only [processByte, Parser.regs, Parser.feed, Pending.ofByte, Pending.code, motor1Command,
      motor2Command, ledCommand, if_true]
    by_cases h1 : b = 1
    · subst h1; rfl
    by_cases h2 : b = 2
    · subst h2; rfl
    by_cases h3 : b = 3
    · subst h3; rfl
    simp only [h1, h2, h3, if_false]
  | motor1 => rfl
  | motor2 => rfl
  | led => rfl

theorem foldl_processByte (p : Parser) (bs : List (BitVec 8)) :
    bs.foldl processByte p.regs = (bs.foldl Parser.feed p).regs := by
  induction bs generalizing p with
  | nil => rfl
  | cons b bs ih => rw [List.foldl_cons, processByte_regs, ih, List.foldl_cons]

theorem start_regs (r : CommandRegs) : (Parser.start r).regs = r.idle := rfl

/-- With no command pending a byte that names none is ignored. -/
theorem processByte_other {r : CommandRegs} (h : r.currentCommand = 0) {b : BitVec 8}
    (hb : Pending.ofByte b = .none) : processByte r b = r := by
  have hregs : r = (Parser.start r).regs := by
    rw [start_regs]
    exact CommandRegs.ext h rfl rfl rfl rfl rfl
  rw [hregs, processByte_regs]
  simp only [Parser.feed, Parser.start, hb]

/-! ## A transaction on the wires -/

/-- The slave at rest, with CS high and SCLK low for as long as it takes. -/
def Regs.rest (byteIn : BitVec 8) (r : CommandRegs) (v : BitVec 14) : Regs where
  core :=
    { byteIn := byteIn
      bitCount := 0
      cmd := { r with currentCommand := 0 }
      spiClkPrev := false
      encoderValue := v
      misoShift := 0#2 ++ v
      spiPoci := false }
  spiClkSync := 0b000
  spiCsSync := 0b111
  spiMosiSync := 0b000

/-- The value `encoder_value` is declared with. -/
def encoderPlaceholder : BitVec 14 := 0b11001100110011

/-- The command registers of a device that powers up with cleared flip-flops. -/
def clearedRegs : CommandRegs := ⟨0, 0, false, false, false, false⟩

theorem afterCsHigh_rest (byteIn : BitVec 8) (r : CommandRegs) (v : BitVec 14) :
    (Regs.rest byteIn r v).AfterCsHigh := by
  have hcs : ((Regs.rest byteIn r v).stage 2).cs = true := by simp [Regs.stage, Regs.rest]
  refine ⟨Regs.rest byteIn r v, ⟨false, false, true⟩, hcs, ?_⟩
  rw [clkProcess, clkProcess_high _ _ hcs]
  have h0 : (0#3).shiftConcat false = 0#3 := by decide
  have h7 : (7#3).shiftConcat true = 7#3 := by decide
  simp [Regs.stage, Regs.rest, h0, h7]

/-- One transaction carrying `bits`, followed from state `s`: what the core sees is a
stretch with CS high, possibly already in flight, the body with CS low, whose SCLK
rises carry the bits, and CS still low without a further rise until the three
synchroniser stages have drained. -/
structure Transaction (s : Regs) (bits : List Bool) where
  pins : List Sample
  idle : List Sample
  body : List Sample
  quiet : List Sample
  seen : sync.seen s pins = idle ++ (body ++ quiet)
  idle_high : Deselected idle
  body_low : Selected body
  body_bits : risingBits (lastLevel s.core.spiClkPrev idle) body = bits
  quiet_low : Selected quiet
  quiet_bits : risingBits (lastLevel s.core.spiClkPrev (idle ++ body)) quiet = []
  drained : 3 ≤ quiet.length

namespace Transaction

variable {s : Regs} {bits : List Bool} (t : Transaction s bits)

theorem length_pins : t.pins.length + 3 = t.idle.length + (t.body.length + t.quiet.length) := by
  have h := congrArg List.length t.seen
  rw [length_seen] at h
  simpa only [List.length_append] using h

/-- The receive registers once the core has consumed `k` samples of the body. -/
theorem decoder_take (hs : t.idle ≠ [] ∨ s.core.Cleared) {k : ℕ} (hk : k ≤ t.body.length) :
    (run clkProcess s (t.pins.take (t.idle.length + k))).core.decoder =
      run Decoder.bit ⟨s.core.byteIn, 0, s.core.cmd.idle⟩
        (risingBits (lastLevel s.core.spiClkPrev t.idle) (t.body.take k)) := by
  have hlen := t.length_pins
  have hd := t.drained
  rw [core_run_take s t.pins (by omega), t.seen, List.take_length_add_append,
    List.take_append_of_le_length hk, run_append, run_selected _ (t.body_low.take k),
    run_deselected _ t.idle_high hs, run_spiClkPrev]

/-- The receive registers once the synchronisers have drained. -/
theorem decoder_run (hs : t.idle ≠ [] ∨ s.core.Cleared) :
    (run clkProcess s t.pins).core.decoder =
      run Decoder.bit ⟨s.core.byteIn, 0, s.core.cmd.idle⟩ bits := by
  have hlen := t.length_pins
  have hd := t.drained
  have hquiet : risingBits (lastLevel s.core.spiClkPrev (t.idle ++ t.body))
      (t.quiet.take (t.quiet.length - 3)) = [] := by
    have h := t.quiet_bits
    rw [← List.take_append_drop (t.quiet.length - 3) t.quiet, risingBits_append] at h
    obtain ⟨htake, -⟩ := List.append_eq_nil_iff.mp h
    exact htake
  rw [lastLevel_append] at hquiet
  rw [core_run, t.seen,
    show t.pins.length = t.idle.length + (t.body.length + (t.quiet.length - 3)) by omega,
    List.take_length_add_append, List.take_length_add_append, run_append,
    run_selected _ (selected_append.mpr ⟨t.body_low, t.quiet_low.take _⟩),
    run_deselected _ t.idle_high hs, run_spiClkPrev, risingBits_append, t.body_bits, hquiet,
    List.append_nil]

theorem selected_pace (bits : List Bool) : Selected (mode0 1 1 bits) := selected_mode0 1 1 bits

theorem selected_quiet : Selected (List.replicate 3 ⟨false, false, false⟩) :=
  selected_replicate 3 false false

/-- Three quiet samples empty the synchroniser. -/
theorem length_quiet : 3 ≤ (List.replicate 3 (⟨false, false, false⟩ : Sample)).length :=
  Nat.le_refl 3

/-- The bits sent at the slave's own pace, one sample a level, from a state with CS
high in all stages. -/
def plain (s : Regs) (hs : s.CsIdle) (bits : List Bool) : Transaction s bits where
  pins := mode0 1 1 bits ++ List.replicate 3 ⟨false, false, false⟩
  idle := sync.flight s
  body := mode0 1 1 bits
  quiet := List.replicate 3 ⟨false, false, false⟩
  seen := rfl
  idle_high := flight_deselected hs
  body_low := selected_pace bits
  body_bits := risingBits_mode0 0 0 _ bits
  quiet_low := selected_quiet
  quiet_bits := risingBits_low 3 _ false
  drained := length_quiet

end Transaction

end EmSysLab.Assignment11
