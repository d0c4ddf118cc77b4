import EmSysLab.Assignment11.CommandParser
import EmSysLab.Assignment11.Host

/-!
# When the slave decodes the bytes it was sent

The eighth edge processes `byte_in` before that edge has shifted the last bit in, so
every byte is read one place too low, under the last bit of its predecessor. The
registers follow the parser through a whole transaction exactly when no byte of it
is a command in either reading; at the end of a transaction they agree exactly when
the two readings leave the same command pending and the same last payloads.
-/
namespace EmSysLab.Assignment11

open Serial Clocked

/-! ## Reading along the transaction -/

/-- Neither the byte itself nor its latched reading names a command: a byte from 0x04
to 0x07 reads as 0x02 or 0x03 unless the bit before it was a one. -/
def Ignored (carry : Bool) (b : BitVec 8) : Prop :=
  ¬(0x01 ≤ b ∧ b ≤ 0x03) ∧ (0x04 ≤ b ∧ b ≤ 0x07 → carry = true)

instance (carry : Bool) (b : BitVec 8) : Decidable (Ignored carry b) :=
  inferInstanceAs (Decidable (_ ∧ _))

/-- Every byte is ignored in both readings. -/
def AllIgnored : Bool → List (BitVec 8) → Prop
  | _, [] => True
  | carry, b :: bs => Ignored carry b ∧ AllIgnored (b.getLsbD 0) bs

/-- A byte and its latched reading name the same command only if both name none. -/
theorem ofByte_latch_iff : ∀ (carry : Bool) (b : BitVec 8),
    Pending.ofByte (latch carry b) = Pending.ofByte b ↔ Ignored carry b := by
  decide +kernel

theorem ofByte_of_ignored : ∀ (carry : Bool) (b : BitVec 8),
    Ignored carry b → Pending.ofByte b = .none := by
  decide +kernel

theorem feed_none {p : Parser} (hp : p.pending = .none) (b : BitVec 8) :
    p.feed b = { p with pending := .ofByte b } := by
  simp only [Parser.feed, hp]

theorem feed_ignored {p : Parser} (hp : p.pending = .none) {b : BitVec 8}
    (hb : Pending.ofByte b = .none) : p.feed b = p := by
  rw [feed_none hp, hb, ← hp]

/-- The latched bytes drive the parser as the sent ones do, after every byte, exactly
when all of them are ignored. -/
theorem foldl_latched_iff (p : Parser) (hp : p.pending = .none) (carry : Bool)
    (bs : List (BitVec 8)) :
    (∀ i ≤ bs.length, (latched carry (bs.take i)).foldl Parser.feed p =
      (bs.take i).foldl Parser.feed p) ↔ AllIgnored carry bs := by
  induction bs generalizing carry with
  | nil => exact ⟨fun _ => trivial, fun _ i _ => by rw [List.take_nil]; rfl⟩
  | cons b bs ih =>
    constructor
    · intro h
      have h1 := h 1 (by simp)
      simp only [List.take_succ_cons, List.take_zero, latched, List.foldl_cons, List.foldl_nil,
        feed_none hp] at h1
      have hb := (ofByte_latch_iff carry b).mp (congrArg Parser.pending h1)
      have hnone := ofByte_of_ignored carry b hb
      refine ⟨hb, (ih (b.getLsbD 0)).mp fun i hi => ?_⟩
      have hi' := h (i + 1) (by simpa using hi)
      rwa [List.take_succ_cons, latched, List.foldl_cons, List.foldl_cons, feed_ignored hp hnone,
        feed_ignored hp (((ofByte_latch_iff carry b).mpr hb).trans hnone)] at hi'
    · rintro ⟨hb, hbs⟩ i hi
      cases i with
      | zero => rfl
      | succ i =>
        have hnone := ofByte_of_ignored carry b hb
        rw [List.take_succ_cons, latched, List.foldl_cons, List.foldl_cons, feed_ignored hp hnone,
          feed_ignored hp (((ofByte_latch_iff carry b).mpr hb).trans hnone)]
        exact (ih (b.getLsbD 0)).mpr hbs i (by simpa using hi)

theorem regs_injective {p q : Parser} (h : p.regs = q.regs) : p = q := by
  obtain ⟨pending, speed, dir, enable, brake, led⟩ := p
  obtain ⟨pending', speed', dir', enable', brake', led'⟩ := q
  simp only [Parser.regs, CommandRegs.mk.injEq] at h
  obtain ⟨hcode, rfl, rfl, rfl, rfl, rfl⟩ := h
  rw [Pending.code_injective _ _ hcode]

/-! ## Reading at the end -/

/-- What framing a byte list into commands and payloads yields: the command still
pending, the last motor payload and the last LED payload. -/
structure Frames where
  pending : Pending
  motor : Option (BitVec 8)
  led : Option (BitVec 8)
  deriving DecidableEq, Repr

def Frames.next (f : Frames) (b : BitVec 8) : Frames :=
  match f.pending with
  | .none => { f with pending := .ofByte b }
  | .motor1 => { f with pending := .none, motor := some b }
  | .motor2 => { f with pending := .none }
  | .led => { f with pending := .none, led := some b }

def frames (bs : List (BitVec 8)) : Frames := bs.foldl Frames.next ⟨.none, none, none⟩

/-- Speed, direction, enable and brake as a motor payload sets them, or as they stand. -/
def motorFields (r : CommandRegs) : Option (BitVec 8) → BitVec 5 × Bool × Bool × Bool
  | none => (r.pwmSpeed, r.pwmDir, r.pwmEnable, r.pwmBrake)
  | some p => (p.extractLsb' 0 5, p.getLsbD 5, p.getLsbD 6, p.getLsbD 7)

def ledField (r : CommandRegs) : Option (BitVec 8) → Bool
  | none => r.ledLatch
  | some p => p.getLsbD 0

/-- The bytes sent and the bytes latched leave the same command pending and the same
last payloads, as far as the registers can tell. -/
def SameFrames (r : CommandRegs) (carry : Bool) (bs : List (BitVec 8)) : Prop :=
  (frames (latched carry bs)).pending = (frames bs).pending ∧
    motorFields r (frames (latched carry bs)).motor = motorFields r (frames bs).motor ∧
    ledField r (frames (latched carry bs)).led = ledField r (frames bs).led

/-- The parser state that a framing describes. -/
def Frames.parser (r : CommandRegs) (f : Frames) : Parser :=
  ⟨f.pending, (motorFields r f.motor).1, (motorFields r f.motor).2.1,
    (motorFields r f.motor).2.2.1, (motorFields r f.motor).2.2.2, ledField r f.led⟩

theorem feed_frames (r : CommandRegs) (f : Frames) (b : BitVec 8) :
    (f.parser r).feed b = (f.next b).parser r := by
  obtain ⟨pending, motor, led⟩ := f
  cases pending <;> rfl

theorem foldl_feed_frames (r : CommandRegs) (bs : List (BitVec 8)) :
    bs.foldl Parser.feed (Parser.start r) = (frames bs).parser r := by
  have hfold : ∀ f : Frames, bs.foldl Parser.feed (f.parser r) =
      (bs.foldl Frames.next f).parser r := by
    induction bs with
    | nil => exact fun _ => rfl
    | cons b bs ih => exact fun f => by rw [List.foldl_cons, feed_frames, ih, List.foldl_cons]
  exact hfold ⟨.none, none, none⟩

theorem foldl_latched_eq_iff (r : CommandRegs) (carry : Bool) (bs : List (BitVec 8)) :
    (latched carry bs).foldl Parser.feed (Parser.start r) = bs.foldl Parser.feed (Parser.start r) ↔
      SameFrames r carry bs := by
  rw [foldl_feed_frames, foldl_feed_frames]
  simp only [Frames.parser, Parser.mk.injEq, SameFrames, Prod.ext_iff, and_assoc]

/-! ## The transaction -/

namespace Transaction

variable {s : Regs} {bs : List (BitVec 8)} (t : Transaction s (bs.flatMap msbBits))

/-- The registers follow the byte-level parser: whenever the body has carried the
first `i` bytes and no further bit, the registers are what the parser makes of them. -/
def FollowsParser : Prop :=
  ∀ i ≤ bs.length, ∀ k ≤ t.body.length,
    risingBits (lastLevel s.core.spiClkPrev t.idle) (t.body.take k) =
      (bs.take i).flatMap msbBits →
    (run clkProcess s (t.pins.take (t.idle.length + k))).core.cmd =
      ((bs.take i).foldl Parser.feed (Parser.start s.core.cmd)).regs

/-- The registers at the end are what the parser makes of all bytes. -/
def EndsAsParser : Prop :=
  (run clkProcess s t.pins).core.cmd =
    (bs.foldl Parser.feed (Parser.start s.core.cmd)).regs

/-- **The command registers are the parser's, fed with the latched bytes.** -/
theorem cmd_take (hs : t.idle ≠ [] ∨ s.core.Cleared) {i k : ℕ} (hk : k ≤ t.body.length)
    (hbits : risingBits (lastLevel s.core.spiClkPrev t.idle) (t.body.take k) =
      (bs.take i).flatMap msbBits) :
    (run clkProcess s (t.pins.take (t.idle.length + k))).core.cmd =
      ((latched (s.core.byteIn.getLsbD 0) (bs.take i)).foldl Parser.feed
        (Parser.start s.core.cmd)).regs := by
  have h := congrArg Decoder.cmd (t.decoder_take hs hk)
  obtain ⟨hrun, -, -⟩ := run_bytes ⟨s.core.byteIn, 0, s.core.cmd.idle⟩ rfl (bs.take i)
  rw [hbits, hrun] at h
  rw [← foldl_processByte, start_regs]
  exact h

theorem cmd_run (hs : t.idle ≠ [] ∨ s.core.Cleared) :
    (run clkProcess s t.pins).core.cmd =
      ((latched (s.core.byteIn.getLsbD 0) bs).foldl Parser.feed (Parser.start s.core.cmd)).regs := by
  have h := congrArg Decoder.cmd (t.decoder_run hs)
  obtain ⟨hrun, -, -⟩ := run_bytes ⟨s.core.byteIn, 0, s.core.cmd.idle⟩ rfl bs
  rw [hrun] at h
  rw [← foldl_processByte, start_regs]
  exact h

theorem take_flatMap_msbBits (bs : List (BitVec 8)) (i : ℕ) :
    (bs.flatMap msbBits).take (8 * i) = (bs.take i).flatMap msbBits := by
  induction bs generalizing i with
  | nil => simp
  | cons b bs ih =>
    cases i with
    | zero => rfl
    | succ i =>
      have hlen : (msbBits b).length = 8 := length_msbBits b
      rw [List.flatMap_cons, List.take_succ_cons, List.flatMap_cons, ← ih i,
        show 8 * (i + 1) = (msbBits b).length + 8 * i by rw [hlen]; omega,
        List.take_length_add_append]

theorem followsParser_iff (hs : s.AfterCsHigh) :
    t.FollowsParser ↔ AllIgnored (s.core.byteIn.getLsbD 0) bs := by
  rw [← foldl_latched_iff (Parser.start s.core.cmd) rfl]
  constructor
  · intro h i hi
    obtain ⟨k, hk, hbits⟩ := exists_take_risingBits
      (lastLevel s.core.spiClkPrev t.idle) t.body (8 * i)
    rw [t.body_bits, take_flatMap_msbBits] at hbits
    have hregs := t.cmd_take (.inr (AfterCsHigh.cleared hs)) hk hbits
    exact regs_injective (hregs.symm.trans (h i hi k hk hbits))
  · intro h i hi k hk hbits
    rw [t.cmd_take (.inr (AfterCsHigh.cleared hs)) hk hbits, h i hi]

theorem endsAsParser_iff (hs : s.AfterCsHigh) :
    t.EndsAsParser ↔ SameFrames s.core.cmd (s.core.byteIn.getLsbD 0) bs := by
  rw [← foldl_latched_eq_iff, EndsAsParser, t.cmd_run (.inr (AfterCsHigh.cleared hs))]
  exact ⟨regs_injective, congrArg Parser.regs⟩

end Transaction

/-- **Command decoding.** The slave follows the byte-level parser through a transaction
exactly when the transaction holds no command in either reading, and agrees with it at
the end exactly when both readings frame the bytes alike. -/
theorem commandDecoding_iff (s : Regs) (hs : s.AfterCsHigh) (bs : List (BitVec 8))
    (t : Transaction s (bs.flatMap msbBits)) :
    (t.EndsAsParser ↔ SameFrames s.core.cmd (s.core.byteIn.getLsbD 0) bs) ∧
      (t.FollowsParser ↔ AllIgnored (s.core.byteIn.getLsbD 0) bs) :=
  ⟨t.endsAsParser_iff hs, t.followsParser_iff hs⟩

/-- Bytes that are no commands in either reading; and an LED command that each reading finds at
another place, with a payload that turns the LED on. -/
theorem commandDecoding_ignored :
    (Transaction.plain (.rest 0 clearedRegs encoderPlaceholder) rfl
        ([0x10, 0x81, 0x05].flatMap msbBits)).FollowsParser ∧
      (run clkProcess (.rest 0 clearedRegs encoderPlaceholder)
        (Transaction.plain (.rest 0 clearedRegs encoderPlaceholder) rfl
          (([0x06, 0x03, 0x01] : List (BitVec 8)).flatMap msbBits)).pins).core.cmd =
        { clearedRegs with ledLatch := true } := by
  constructor
  · exact (commandDecoding_iff _ (afterCsHigh_rest _ _ _) [0x10, 0x81, 0x05] _).2.mpr
      ⟨by decide, by decide, by decide, trivial⟩
  · have hends : (Transaction.plain (.rest 0 clearedRegs encoderPlaceholder) rfl
        (([0x06, 0x03, 0x01] : List (BitVec 8)).flatMap msbBits)).EndsAsParser :=
      (commandDecoding_iff _ (afterCsHigh_rest _ _ _) [0x06, 0x03, 0x01] _).1.mpr
        ⟨by decide, by decide, by decide⟩
    refine hends.trans ?_
    decide

/-- `send_led_command(1)` on a cleared slave is read as a motor command with payload
0x80: the LED stays off and the brake bit is set. -/
theorem ledCommand_misread :
    (Regs.rest 0 clearedRegs encoderPlaceholder).AfterCsHigh ∧
      (run clkProcess (.rest 0 clearedRegs encoderPlaceholder)
        (Transaction.plain (.rest 0 clearedRegs encoderPlaceholder) rfl
          ((sendLedCommand 1).flatMap msbBits)).pins).core.cmd =
        { clearedRegs with pwmBrake := true } ∧
      ¬(Transaction.plain (.rest 0 clearedRegs encoderPlaceholder) rfl
        ((sendLedCommand 1).flatMap msbBits)).EndsAsParser := by
  refine ⟨afterCsHigh_rest _ _ _, by decide +kernel, ?_⟩
  unfold Transaction.EndsAsParser
  decide +kernel

end EmSysLab.Assignment11
