import EmSysLab.Assignment11.TopEntity

/-!
# The receive path of the assignment_11 slave, bit by bit and byte by byte

With CS low the registers `byte_in`, `bit_count` and the command registers change
only at a detected rise, so a waveform acts on them through its bits alone. Eight
bits act through one call of `processByte`, made at the eighth rise with the value
`byte_in` had before that rise: the seven new bits below the last bit of whatever
was shifted in before. `latched` is that value as a function of the bytes sent.
-/
namespace EmSysLab.Assignment11

open Serial Clocked

/-- The receive registers. -/
@[ext] structure Decoder where
  byteIn : BitVec 8
  bitCount : BitVec 3
  cmd : CommandRegs
  deriving DecidableEq, Repr

def Core.decoder (c : Core) : Decoder := ⟨c.byteIn, c.bitCount, c.cmd⟩

/-- What one detected rise does to the receive registers. -/
def Decoder.bit (d : Decoder) (b : Bool) : Decoder where
  byteIn := d.byteIn.shiftConcat b
  bitCount := d.bitCount + 1
  cmd := if d.bitCount = 7 then processByte d.cmd d.byteIn else d.cmd

/-- **With CS low a waveform acts on the receive path through its bits.** -/
theorem run_selected (c : Core) {xs : List Sample} (hxs : Selected xs) :
    (run Core.clkProcess c xs).decoder = run Decoder.bit c.decoder (risingBits c.spiClkPrev xs) := by
  induction xs generalizing c with
  | nil => rfl
  | cons x xs ih =>
    obtain ⟨hx, hxs⟩ := selected_cons.mp hxs
    rw [run_cons, ih _ hxs, clkProcess_spiClkPrev, risingBits_cons]
    cases hr : rising c.spiClkPrev x with
    | true => rw [clkProcess_rise c x hx hr, if_pos rfl]; rfl
    | false => rw [clkProcess_quiet c x hx hr, if_neg (by decide)]; rfl

/-- The command registers with no command pending. -/
def CommandRegs.idle (r : CommandRegs) : CommandRegs := { r with currentCommand := 0 }

/-- The registers that drive the motor and the LEDs. -/
def CommandRegs.outputs (r : CommandRegs) : BitVec 5 × Bool × Bool × Bool × Bool :=
  (r.pwmSpeed, r.pwmDir, r.pwmEnable, r.pwmBrake, r.ledLatch)

/-- A stretch with CS high clears the counter and the pending command and keeps the
rest, unless it is empty and they were clear before. -/
theorem run_deselected (c : Core) {xs : List Sample} (hxs : Deselected xs)
    (hopen : xs ≠ [] ∨ c.Cleared) :
    (run Core.clkProcess c xs).decoder = ⟨c.byteIn, 0, c.cmd.idle⟩ := by
  have hstart : c.Cleared → c.decoder = ⟨c.byteIn, 0, c.cmd.idle⟩ := by
    rintro ⟨hbit, hcmd⟩
    exact Decoder.ext rfl hbit (CommandRegs.ext hcmd rfl rfl rfl rfl rfl)
  induction xs generalizing c with
  | nil => exact hstart (hopen.resolve_left (· rfl))
  | cons x xs ih =>
    obtain ⟨hx, hxs⟩ := deselected_cons.mp hxs
    have hnext := clkProcess_high c x hx
    have hclear : (c.clkProcess x).Cleared := by rw [hnext]; exact ⟨rfl, rfl⟩
    rw [run_cons, ih _ hxs (.inr hclear) fun _ => ?_, hnext]
    · rfl
    · rw [hnext]; rfl

/-- With CS high no output changes. -/
theorem outputs_deselected (c : Core) {xs : List Sample} (hxs : Deselected xs) :
    (run Core.clkProcess c xs).cmd.outputs = c.cmd.outputs := by
  have hkeep : ∀ (d : Core) (x : Sample), x.cs = true →
      (d.clkProcess x).cmd.outputs = d.cmd.outputs := by
    intro d x hx
    rw [clkProcess_high d x hx]
    rfl
  exact run_frame (fun d : Core => d.cmd.outputs) hkeep c hxs

/-- A command byte changes no output. -/
theorem processByte_outputs {r : CommandRegs} (h : r.currentCommand = 0) (b : BitVec 8) :
    (processByte r b).outputs = r.outputs := by
  simp only [processByte, h]
  split_ifs <;> rfl

namespace Decoder

/-- Fewer bits than complete the byte only fill `byte_in`. -/
theorem run_few (d : Decoder) (bits : List Bool) (h : d.bitCount.toNat + bits.length ≤ 7) :
    run bit d bits =
      ⟨shiftIn d.byteIn bits, d.bitCount + BitVec.ofNat 3 bits.length, d.cmd⟩ := by
  induction bits generalizing d with
  | nil => simp
  | cons b bits ih =>
    rw [List.length_cons] at h
    have hne : d.bitCount ≠ 7 := by
      intro h7
      rw [h7, show (7 : BitVec 3).toNat = 7 from rfl] at h
      omega
    have hcount : (d.bit b).bitCount.toNat = d.bitCount.toNat + 1 := by
      change (d.bitCount + 1).toNat = _
      rw [BitVec.toNat_add, show (1 : BitVec 3).toNat = 1 from rfl]
      omega
    rw [run_cons, ih _ (by omega)]
    simp only [bit, hne, if_false, shiftIn_cons, List.length_cons, BitVec.ofNat_add]
    congr 1
    rw [BitVec.add_assoc, BitVec.add_comm 1]
    rfl

theorem bit_seven (r : BitVec 8) (m : CommandRegs) (b : Bool) :
    bit ⟨r, 7, m⟩ b = ⟨r.shiftConcat b, 0, processByte m r⟩ := by
  simp [bit]

/-- Eight bits from a cleared counter call `processByte` once, with `byte_in` as it
stood after the seventh. -/
theorem run_eight (d : Decoder) (hd : d.bitCount = 0) (bits : List Bool) (b : Bool)
    (h : bits.length = 7) :
    run bit d (bits ++ [b]) =
      ⟨shiftIn d.byteIn (bits ++ [b]), 0, processByte d.cmd (shiftIn d.byteIn bits)⟩ := by
  rw [run_append, run_few d bits (by rw [hd, h]; decide), hd, h,
    show (0 : BitVec 3) + BitVec.ofNat 3 7 = 7 from rfl, run_cons, run_nil, bit_seven, shiftIn_concat]

/-- After any number of bits the counter is their number modulo eight. -/
theorem run_bitCount (d : Decoder) (bits : List Bool) :
    (run bit d bits).bitCount = d.bitCount + BitVec.ofNat 3 bits.length := by
  induction bits generalizing d with
  | nil => simp
  | cons b bits ih =>
    rw [run_cons, ih, List.length_cons, BitVec.ofNat_add]
    simp only [bit]
    rw [BitVec.add_assoc, BitVec.add_comm 1]
    rfl

theorem run_bitCount_zero (d : Decoder) (hd : d.bitCount = 0) {bits : List Bool} (k : ℕ)
    (h : bits.length = 8 * k) : (run bit d bits).bitCount = 0 := by
  rw [run_bitCount, hd, h]
  apply BitVec.eq_of_toNat_eq
  simp only [BitVec.toNat_add, BitVec.toNat_ofNat]
  omega

/-- A trailing incomplete byte leaves the command registers as the whole bytes left
them. -/
theorem run_whole_bytes (d : Decoder) (hd : d.bitCount = 0) (bits : List Bool) :
    (run bit d bits).cmd = (run bit d (bits.take (8 * (bits.length / 8)))).cmd := by
  have hlen : (bits.take (8 * (bits.length / 8))).length = 8 * (bits.length / 8) := by
    rw [List.length_take]; omega
  have hzero := run_bitCount_zero d hd (bits.length / 8) hlen
  conv_lhs => rw [← List.take_append_drop (8 * (bits.length / 8)) bits, run_append]
  rw [run_few _ _ (by rw [hzero, List.length_drop, show (0 : BitVec 3).toNat = 0 from rfl]; omega)]

end Decoder

/-! ## The byte that is processed -/

/-- `byte_in` at the eighth edge of byte `b`, when `carry` was the last bit shifted in
before the byte. -/
def latch (carry : Bool) (b : BitVec 8) : BitVec 8 := BitVec.cons carry (b.extractLsb' 1 7)

/-- The bytes the command branches see while the bytes `bs` are sent. -/
def latched : Bool → List (BitVec 8) → List (BitVec 8)
  | _, [] => []
  | carry, b :: bs => latch carry b :: latched (b.getLsbD 0) bs

/-- The last bit shifted in once the bytes are sent. -/
def carryAfter : Bool → List (BitVec 8) → Bool
  | carry, [] => carry
  | _, b :: bs => carryAfter (b.getLsbD 0) bs

/-- One whole byte from a cleared counter. -/
theorem run_byte (d : Decoder) (hd : d.bitCount = 0) (b : BitVec 8) :
    run Decoder.bit d (msbBits b) =
      ⟨b, 0, processByte d.cmd (latch (d.byteIn.getLsbD 0) b)⟩ := by
  have hne : msbBits b ≠ [] := by
    intro h
    simpa using congrArg List.length h
  rw [← List.dropLast_append_getLast hne, Decoder.run_eight d hd _ _ (by simp),
    List.dropLast_append_getLast hne, shiftIn_msbBits, shiftIn_dropLast_msbBits]
  rfl

/-- **Whole bytes act on the command registers through the latched bytes.** -/
theorem run_bytes (d : Decoder) (hd : d.bitCount = 0) (bs : List (BitVec 8)) :
    (run Decoder.bit d (bs.flatMap msbBits)).cmd =
        (latched (d.byteIn.getLsbD 0) bs).foldl processByte d.cmd ∧
      (run Decoder.bit d (bs.flatMap msbBits)).bitCount = 0 ∧
      (run Decoder.bit d (bs.flatMap msbBits)).byteIn.getLsbD 0 =
        carryAfter (d.byteIn.getLsbD 0) bs := by
  induction bs generalizing d with
  | nil => exact ⟨rfl, hd, rfl⟩
  | cons b bs ih =>
    rw [List.flatMap_cons, run_append, run_byte d hd b]
    exact ih ⟨b, 0, _⟩ rfl

end EmSysLab.Assignment11
