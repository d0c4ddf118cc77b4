import EmSysLab.Assignment11.Host
import EmSysLab.Assignment11.CommandParser

/-!
# Reading the encoder value

CS high loads the reply register with two zeros and the fourteen bits of the encoder
value, and every detected rise shifts it. The output line follows two edges behind a
detected rise and five behind the pin, so a master whose rises are six samples apart
reads the register bit by bit. The host then drops the top bit of either byte and
packs seven bits each, which is not how the slave has split the value.
-/
namespace EmSysLab.Assignment11

open Serial Clocked

/-! ## The reply register -/

/-- The word loaded while CS is high. -/
def replyWord (v : BitVec 14) : BitVec 16 := 0#2 ++ v

/-- With CS low the register holds the word shifted by the detected rises. -/
theorem misoShift_selected (c : Core) {xs : List Sample} (hxs : Selected xs) :
    (run Core.clkProcess c xs).misoShift =
      shiftIn c.misoShift (List.replicate (count rising c.spiClkPrev xs) false) := by
  induction xs generalizing c with
  | nil => rfl
  | cons x xs ih =>
    obtain ⟨hx, hxs⟩ := selected_cons.mp hxs
    rw [run_cons, ih _ hxs, clkProcess_spiClkPrev, count_cons]
    cases hr : rising c.spiClkPrev x with
    | true => rw [clkProcess_rise c x hx hr, Bool.toNat_true, Nat.add_comm 1]; rfl
    | false => rw [clkProcess_quiet c x hx hr, Bool.toNat_false, Nat.zero_add]

/-- With CS low the output line takes the top of the register as it stood before the
edge. -/
theorem spiPoci_selected (c : Core) {x : Sample} (hx : x.cs = false) :
    (c.clkProcess x).spiPoci = c.misoShift.msb := by
  have hmsb : c.misoShift.msb = c.misoShift.getLsbD 15 := BitVec.msb_eq_getLsbD_last _
  cases hr : rising c.spiClkPrev x with
  | true => rw [clkProcess_rise c x hx hr, hmsb]
  | false => rw [clkProcess_quiet c x hx hr, hmsb]

/-- One sample with CS high loads the reply register, whatever came before it. -/
theorem reply_loaded (c : Core) (xs : List Sample) {x : Sample} (hx : x.cs = true) :
    (run Core.clkProcess c (xs ++ [x])).misoShift = replyWord c.encoderValue := by
  rw [run_append, run_cons, run_nil, clkProcess_high _ x hx]
  exact congrArg replyWord (run_encoderValue c xs)

/-- The output line after a waveform with CS low, four edges behind the pins. -/
theorem spiPoci_run {s : Regs} (hs : (s.stage 0).cs = true) {u : List Sample} (hu : Selected u)
    (h4 : 4 ≤ u.length) :
    (run clkProcess s u).core.spiPoci =
      (replyWord s.core.encoderValue).getMsbD (count rising s.clkLevel (u.take (u.length - 4))) := by
  have hlast : u.take (u.length - 3) = u.take (u.length - 4) ++ [u[u.length - 4]] := by
    rw [show u.length - 3 = u.length - 4 + 1 by omega]
    exact List.take_succ_eq_append_getElem (by omega)
  have hcs : (u[u.length - 4]).cs = false := hu _ (List.getElem_mem _)
  have hloaded : (run Core.clkProcess s.core (sync.flight s)).misoShift =
      replyWord s.core.encoderValue := reply_loaded s.core [s.stage 2, s.stage 1] hs
  have hlevel : (run Core.clkProcess s.core (sync.flight s)).spiClkPrev = s.clkLevel := by
    rw [run_spiClkPrev]
    rfl
  rw [core_run, Delayed.seen, show u.length = (sync.flight s).length + (u.length - 3) by
      change u.length = 3 + (u.length - 3); omega,
    List.take_length_add_append, show (sync.flight s).length + (u.length - 3) - 4 = u.length - 4 by
      change 3 + (u.length - 3) - 4 = _; omega,
    hlast, run_append, run_append, run_cons, run_nil, spiPoci_selected _ hcs,
    misoShift_selected _ (hu.take _), hlevel, hloaded, msb_shiftIn_zeros]

/-- **What the master reads.** With rises at least six samples apart and after CS falls,
the levels at the rises are the bits of the reply word, most significant first. -/
theorem masterReads_reply {s : Regs} (hs : (s.stage 0).cs = true) {body : List Sample}
    (hbody : Selected body) (hgap : Gap rising 6 0 s.clkLevel body) :
    masterReads clkProcess (fun t => t.core.spiPoci) s s.clkLevel body =
      (List.range (count rising s.clkLevel body)).map (replyWord s.core.encoderValue).getMsbD := by
  rw [masterReads_eq clkProcess _ 0 (f := (replyWord s.core.encoderValue).getMsbD),
    List.range_eq_range']
  intro u x v huv hx
  obtain ⟨hu, -⟩ := selected_append.mp (huv ▸ hbody)
  obtain ⟨hlen, hquiet⟩ := Gap.quiet (huv ▸ hgap) hx
  rw [spiPoci_run hs hu (by omega), Nat.zero_add, hquiet _ (by omega)]

/-- **The serialiser.** Once a sample has found CS high, a transaction of any length reads the
encoder value behind two zeros, then zeros; and the line is low whenever the slave sees CS high. -/
theorem encoder_serialised (s : Regs) (hs : (s.stage 0).cs = true) (body : List Sample)
    (hbody : Selected body) (hgap : Gap rising 6 0 s.clkLevel body) :
    (masterReads clkProcess (fun t => t.core.spiPoci) s s.clkLevel body =
        (List.range (count rising s.clkLevel body)).map fun i =>
          if i < 16 then (0#2 ++ s.core.encoderValue).getLsbD (15 - i) else false) ∧
      ∀ t x, (Regs.stage t 2).cs = true → (clkProcess t x).core.spiPoci = false := by
  constructor
  · rw [masterReads_reply hs hbody hgap]
    exact List.map_congr_left fun i _ => getMsbD_eq_ite _ i
  · intro t x ht
    rw [clkProcess, clkProcess_high _ _ ht]

/-- Only the last sample has found CS high: the transaction before was cut off. -/
def brieflyIdle : Regs := { Regs.rest 0 clearedRegs encoderPlaceholder with spiCsSync := 0b001 }

/-- Two clocks more than the word has bits, six samples a level, while the host sends ones. -/
def longWave : List Sample := mode0 6 6 (List.replicate 18 true)

theorem encoder_serialised_long :
    masterReads clkProcess (fun t => t.core.spiPoci) brieflyIdle false longWave =
      [false, false] ++ msbBits encoderPlaceholder ++ [false, false] := by
  obtain ⟨hreads, -⟩ := encoder_serialised brieflyIdle rfl longWave (selected_mode0 6 6 _)
    (by decide +kernel)
  exact hreads.trans (by decide +kernel)

/-! ## The host -/

/-- The two bytes the master assembles from sixteen reads. -/
def rxBytes (reads : List Bool) : BitVec 8 × BitVec 8 :=
  (assemble 8 (reads.take 8), assemble 8 (reads.drop 8))

theorem rxBytes_msbBits (w : BitVec 16) :
    rxBytes (msbBits w) = (w.extractLsb' 8 8, w.extractLsb' 0 8) := by
  have hsplit : msbBits w = msbBits (w.extractLsb' 8 8) ++ msbBits (w.extractLsb' 0 8) :=
    msbBits_split (m := 8) (n := 8) w
  have hlen : (msbBits (w.extractLsb' 8 8)).length = 8 := length_msbBits _
  rw [rxBytes, hsplit, List.take_left' hlen, List.drop_left' hlen, assemble_msbBits,
    assemble_msbBits]

/-- The parser keeps seven bits of either byte. -/
theorem parseEncoder_toNat (b0 b1 : BitVec 8) :
    (parseEncoderFromTwoBytes b0 b1).toNat = b0.toNat % 128 * 128 + b1.toNat % 128 := by
  have hand : ∀ b : BitVec 8, (b &&& 0x7F).toNat = b.toNat % 128 := fun b => by
    rw [BitVec.toNat_and]
    exact Nat.and_two_pow_sub_one_eq_mod _ 7
  have h0 : b0.toNat % 128 < 128 := Nat.mod_lt _ (by decide)
  have h1 : b1.toNat % 128 < 2 ^ 7 := Nat.mod_lt _ (by decide)
  have hor := Nat.shiftLeft_add_eq_or_of_lt h1 (b0.toNat % 128)
  rw [Nat.shiftLeft_eq] at hor
  simp only [parseEncoderFromTwoBytes, BitVec.toNat_setWidth, BitVec.toNat_or,
    BitVec.toNat_shiftLeft, hand, Nat.shiftLeft_eq]
  rw [Nat.mod_eq_of_lt (show b0.toNat % 128 < 2 ^ 16 by omega),
    Nat.mod_eq_of_lt (show b0.toNat % 128 < 2 ^ 32 by omega),
    Nat.mod_eq_of_lt (show b1.toNat % 128 < 2 ^ 16 by omega),
    Nat.mod_eq_of_lt (show b1.toNat % 128 < 2 ^ 32 by omega),
    Nat.mod_eq_of_lt (show b0.toNat % 128 * 2 ^ 7 < 2 ^ 32 by omega), ← hor]
  exact Nat.mod_eq_of_lt (by omega)

/-- The packing agrees with the reply word on values of at most seven bits. -/
theorem parseEncoder_reply (v : BitVec 14) :
    parseEncoderFromTwoBytes ((replyWord v).extractLsb' 8 8) ((replyWord v).extractLsb' 0 8) =
      v.setWidth 16 ↔ v.toNat < 128 := by
  have hword : (replyWord v).toNat = v.toNat := by
    rw [replyWord, BitVec.toNat_append]
    simp
  have hv := v.isLt
  rw [← BitVec.toNat_inj, parseEncoder_toNat, BitVec.extractLsb'_toNat, BitVec.extractLsb'_toNat,
    hword, BitVec.toNat_setWidth, Nat.shiftRight_eq_div_pow, Nat.shiftRight_eq_div_pow]
  omega

/-- **Encoder read round trip.** From an idle state and at six samples between rises the
host parses the encoder value exactly when it fits into seven bits. -/
theorem encoderRead_iff (s : Regs) (hs : s.CsIdle) (body : List Sample) (hbody : Selected body)
    (hgap : Gap rising 6 0 s.clkLevel body) (hrises : count rising s.clkLevel body = 16) :
    parseEncoderFromTwoBytes
        (rxBytes (masterReads clkProcess (fun t => t.core.spiPoci) s s.clkLevel body)).1
        (rxBytes (masterReads clkProcess (fun t => t.core.spiPoci) s s.clkLevel body)).2 =
      s.core.encoderValue.setWidth 16 ↔
    s.core.encoderValue.toNat < 128 := by
  have hreads := masterReads_reply hs.stage_zero hbody hgap
  rw [hrises] at hreads
  rw [hreads]
  change parseEncoderFromTwoBytes (rxBytes (msbBits (replyWord s.core.encoderValue))).1
    (rxBytes (msbBits (replyWord s.core.encoderValue))).2 = _ ↔ _
  rw [rxBytes_msbBits]
  exact parseEncoder_reply s.core.encoderValue

/-- Sixteen clocks, six samples a level, while the host sends zeros. -/
def readWave : List Sample := mode0 6 6 (List.replicate 16 false)

theorem encoderRead_small :
    parseEncoderFromTwoBytes
        (rxBytes (masterReads clkProcess (fun t => t.core.spiPoci) (.rest 0 clearedRegs 0x55)
          false readWave)).1
        (rxBytes (masterReads clkProcess (fun t => t.core.spiPoci) (.rest 0 clearedRegs 0x55)
          false readWave)).2 = 0x55 :=
  (encoderRead_iff (.rest 0 clearedRegs 0x55) rfl readWave (selected_mode0 6 6 _)
    (by decide +kernel) (by decide +kernel)).mpr (by decide)

/-- The placeholder 0x3333 that `encoder_value` is declared with comes back as 0x19B3. -/
theorem encoderRead_placeholder :
    parseEncoderFromTwoBytes
        (rxBytes (masterReads clkProcess (fun t => t.core.spiPoci)
          (.rest 0 clearedRegs encoderPlaceholder) false readWave)).1
        (rxBytes (masterReads clkProcess (fun t => t.core.spiPoci)
          (.rest 0 clearedRegs encoderPlaceholder) false readWave)).2 = 0x19B3 ∧
      (0x19B3 : BitVec 16) ≠ encoderPlaceholder.setWidth 16 := by
  decide +kernel

end EmSysLab.Assignment11
