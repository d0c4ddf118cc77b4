import EmSysLab.Assignment11.CommandParser

/-!
# What one transaction inherits from the traffic before it

CS high clears the bit counter, the pending command and the reply, but neither `byte_in`
nor the edge detector. Of `byte_in` only bit 0 survives into a decision: the first byte
of the next transaction is processed under it. Of the edge detector it is the level
sampled last, which decides whether the first sample with CS low can be a rise. Two idle
states that agree in both cannot be told apart; two that differ in either are told apart
by one motor command.
-/
namespace EmSysLab.Assignment11

open Serial Clocked

/-! ## The relation between two runs -/

/-- The registers the next edges depend on agree; of `byte_in` these are the bits not
yet pushed out by the end of the current byte. -/
structure Agree (c d : Core) : Prop where
  byteIn : ∀ i ≤ c.bitCount.toNat, c.byteIn.getLsbD i = d.byteIn.getLsbD i
  bitCount : c.bitCount = d.bitCount
  cmd : c.cmd = d.cmd
  spiClkPrev : c.spiClkPrev = d.spiClkPrev
  encoderValue : c.encoderValue = d.encoderValue
  misoShift : c.misoShift = d.misoShift
  spiPoci : c.spiPoci = d.spiPoci

/-- What CS high does not reset. -/
structure AgreeIdle (c d : Core) : Prop where
  carry : c.byteIn.getLsbD 0 = d.byteIn.getLsbD 0
  cmd : c.cmd.idle = d.cmd.idle
  encoderValue : c.encoderValue = d.encoderValue

theorem Agree.idle {c d : Core} (h : Agree c d) : AgreeIdle c d :=
  ⟨h.byteIn 0 (Nat.zero_le _), congrArg CommandRegs.idle h.cmd, h.encoderValue⟩

/-- An edge with CS high keeps them and clears the rest but for the edge detector. -/
theorem AgreeIdle.high {c d : Core} (h : AgreeIdle c d) {x y : Sample} (hx : x.cs = true)
    (hy : y.cs = true) :
    AgreeIdle (c.clkProcess x) (d.clkProcess y) ∧
      (c.clkProcess x).cmd = (d.clkProcess y).cmd ∧
      (c.clkProcess x).spiPoci = (d.clkProcess y).spiPoci := by
  rw [clkProcess_high c x hx, clkProcess_high d y hy]
  exact ⟨⟨h.carry, h.cmd, h.encoderValue⟩, h.cmd, rfl⟩

/-- With equal levels it makes all of them agree. -/
theorem AgreeIdle.agree {c d : Core} (h : AgreeIdle c d) {x y : Sample} (hx : x.cs = true)
    (hy : y.cs = true) (hxy : x.sclk = y.sclk) : Agree (c.clkProcess x) (d.clkProcess y) := by
  rw [clkProcess_high c x hx, clkProcess_high d y hy]
  refine ⟨fun i hi => ?_, rfl, h.cmd, hxy, h.encoderValue, ?_, rfl⟩
  · obtain rfl : i = 0 := Nat.le_zero.mp hi
    exact h.carry
  · rw [h.encoderValue]

theorem Agree.quiet {c d : Core} (h : Agree c d) {x : Sample} (hx : x.cs = false)
    (hr : rising c.spiClkPrev x = false) : Agree (c.clkProcess x) (d.clkProcess x) := by
  rw [clkProcess_quiet c x hx hr, clkProcess_quiet d x hx (h.spiClkPrev ▸ hr)]
  exact ⟨h.byteIn, h.bitCount, h.cmd, rfl, h.encoderValue, h.misoShift, by rw [h.misoShift]⟩

/-- A rise moves one more agreeing bit into the register. At the eighth all eight bits
that are processed agree. -/
theorem Agree.rise {c d : Core} (h : Agree c d) {x : Sample} (hx : x.cs = false)
    (hr : rising c.spiClkPrev x = true) : Agree (c.clkProcess x) (d.clkProcess x) := by
  rw [clkProcess_rise c x hx hr, clkProcess_rise d x hx (h.spiClkPrev ▸ hr)]
  have hcmd : (if c.bitCount = 7 then processByte c.cmd c.byteIn else c.cmd) =
      if d.bitCount = 7 then processByte d.cmd d.byteIn else d.cmd := by
    rw [← h.bitCount, ← h.cmd]
    by_cases h7 : c.bitCount = 7
    · have hbyte : c.byteIn = d.byteIn := by
        apply BitVec.eq_of_getLsbD_eq
        intro i hi
        refine h.byteIn i ?_
        rw [h7, show (7 : BitVec 3).toNat = 7 from rfl]
        omega
      rw [hbyte]
    · rw [if_neg h7, if_neg h7]
  refine ⟨fun i hi => ?_, by rw [h.bitCount], hcmd, rfl, h.encoderValue, by rw [h.misoShift],
    by rw [h.misoShift]⟩
  rw [BitVec.getLsbD_shiftConcat, BitVec.getLsbD_shiftConcat]
  by_cases h0 : i = 0
  · rw [if_pos h0, if_pos h0]
  · have hle : (c.bitCount + 1).toNat ≤ c.bitCount.toNat + 1 := by
      rw [BitVec.toNat_add, show (1 : BitVec 3).toNat = 1 from rfl]
      exact Nat.mod_le _ _
    have hi' : i ≤ (c.bitCount + 1).toNat := hi
    rw [if_neg h0, if_neg h0, h.byteIn (i - 1) (by omega)]

theorem Agree.step {c d : Core} (h : Agree c d) (x : Sample) :
    Agree (c.clkProcess x) (d.clkProcess x) := by
  cases hx : x.cs with
  | true => exact h.idle.agree hx hx rfl
  | false =>
    cases hr : rising c.spiClkPrev x with
    | true => exact h.rise hx hr
    | false => exact h.quiet hx hr

theorem Agree.run {c d : Core} (h : Agree c d) (w : List Sample) :
    Agree (run Core.clkProcess c w) (run Core.clkProcess d w) := by
  induction w generalizing c d with
  | nil => exact h
  | cons x w ih => exact ih (h.step x)

/-! ## Idle states -/

/-- CS has been high for three samples and no bit or command is pending. -/
structure Regs.Idle (s : Regs) : Prop where
  cs : s.CsIdle
  cleared : s.core.Cleared

/-- The registers of the clk process that leave the slave, and the encoder value. -/
def Regs.observe (s : Regs) :
    (BitVec 5 × Bool × Bool × Bool × Bool) × BitVec 14 × Bool :=
  (s.core.cmd.outputs, s.core.encoderValue, s.core.spiPoci)

theorem observe_eq {s t : Regs} {c d : Core} (hs : s.core = c) (ht : t.core = d)
    (hcmd : c.cmd = d.cmd) (henc : c.encoderValue = d.encoderValue)
    (hpoci : c.spiPoci = d.spiPoci) : s.observe = t.observe := by
  simp only [Regs.observe, hs, ht, hcmd, henc, hpoci]

/-- From idle states that agree in the carried bit and the level the two runs agree after
every edge: two edges clear what is cleared, the third takes over the level. -/
theorem observe_run {s t : Regs} (hs : s.Idle) (ht : t.Idle) (h : AgreeIdle s.core t.core)
    (hlevel : s.clkLevel = t.clkLevel) (x : Sample) (w : List Sample) :
    (run clkProcess s (x :: w)).observe = (run clkProcess t (x :: w)).observe := by
  have hcs : ∀ u : Regs, u.CsIdle → ∀ i < 3, (u.stage i).cs = true := by
    intro u hu i hi
    have hall : ∀ i < 3, (0b111#3).getLsbD i = true := by decide
    have hu' : u.spiCsSync = 0b111#3 := hu
    rw [Regs.stage, hu']
    exact hall i hi
  have hseen : ∀ u : Regs, (run clkProcess u (x :: w)).core =
      run Core.clkProcess u.core
        (u.stage 2 :: (u.stage 1 :: u.stage 0 :: x :: w).take w.length) := fun u => core_run u (x :: w)
  obtain ⟨h2, hcmd2, hpoci2⟩ := h.high (hcs s hs.cs 2 (by decide)) (hcs t ht.cs 2 (by decide))
  obtain ⟨h1, hcmd1, hpoci1⟩ := h2.high (hcs s hs.cs 1 (by decide)) (hcs t ht.cs 1 (by decide))
  have h0 := h1.agree (hcs s hs.cs 0 (by decide)) (hcs t ht.cs 0 (by decide)) hlevel
  match w with
  | [] => exact observe_eq (hseen s) (hseen t) hcmd2 h2.encoderValue hpoci2
  | [y] => exact observe_eq (hseen s) (hseen t) hcmd1 h1.encoderValue hpoci1
  | y :: z :: w =>
    have hrun := h0.run ((x :: y :: z :: w).take w.length)
    exact observe_eq (hseen s) (hseen t) hrun.cmd hrun.encoderValue hrun.spiPoci

/-! ## Telling two states apart -/

/-- A motor payload whose latched reading flips the enable register. -/
def flipEnable (enable : Bool) : BitVec 8 := if enable then 0x00 else 0x80

/-- The motor command 0x02 with that payload, as it must be sent to be latched as
0x01. -/
def probe (s : Regs) : List (BitVec 8) := [0x02, flipEnable s.core.cmd.pwmEnable]

/-- After a carried zero the probe flips the enable register; after a carried one it
leaves it alone. -/
theorem probe_enable (r : CommandRegs) (carry : Bool) :
    ((latched carry [0x02, flipEnable r.pwmEnable]).foldl processByte r.idle).pwmEnable =
      (r.pwmEnable != !carry) := by
  rw [← start_regs, foldl_processByte]
  change ((({ Parser.start r with pending := .ofByte (latch carry 0x02) } : Parser).feed
    (latch ((0x02 : BitVec 8).getLsbD 0) (flipEnable r.pwmEnable))).regs).pwmEnable = _
  cases carry with
  | false =>
    have hcmd : Pending.ofByte (latch false 0x02) = .motor1 := by decide
    have hbit : ∀ e, (latch ((0x02 : BitVec 8).getLsbD 0) (flipEnable e)).getLsbD 6 =
        (e != !false) := by decide
    rw [hcmd]
    exact hbit r.pwmEnable
  | true =>
    have hcmd : Pending.ofByte (latch true 0x02) = .none := by decide
    rw [hcmd]
    exact (Bool.bne_false _).symm

theorem probe_run {s : Regs} (hs : s.Idle) :
    (run clkProcess s (Transaction.plain s hs.cs ((probe s).flatMap msbBits)).pins).core.cmd.pwmEnable =
      (s.core.cmd.pwmEnable != !s.core.byteIn.getLsbD 0) := by
  have h := congrArg (fun d => d.cmd.pwmEnable)
    ((Transaction.plain s hs.cs ((probe s).flatMap msbBits)).decoder_run (.inr hs.cleared))
  rw [(run_bytes _ rfl (probe s)).1] at h
  exact h.trans (probe_enable s.core.cmd _)

/-- If no waveform tells the states apart, the probe finds the same carried bit. -/
theorem carry_eq {s t : Regs} (hs : s.Idle) (ht : t.Idle) (hcmd : s.core.cmd = t.core.cmd)
    (h : ∀ (x : Sample) (w : List Sample),
      (run clkProcess s (x :: w)).observe = (run clkProcess t (x :: w)).observe) :
    s.core.byteIn.getLsbD 0 = t.core.byteIn.getLsbD 0 := by
  have hpins : (Transaction.plain s hs.cs ((probe s).flatMap msbBits)).pins =
      (Transaction.plain t ht.cs ((probe t).flatMap msbBits)).pins := by
    simp only [Transaction.plain, probe, hcmd]
  have hs' := probe_run hs
  have ht' := probe_run ht
  rw [← hpins] at ht'
  obtain ⟨x, w, hxw⟩ := List.exists_cons_of_ne_nil
    (show (Transaction.plain s hs.cs ((probe s).flatMap msbBits)).pins ≠ [] by
      simp [Transaction.plain])
  rw [hxw] at hs' ht'
  have henable := congrArg (fun o => o.1.2.2.1) (h x w)
  have heq : (s.core.cmd.pwmEnable != !s.core.byteIn.getLsbD 0) =
      (t.core.cmd.pwmEnable != !t.core.byteIn.getLsbD 0) := (hs'.symm.trans henable).trans ht'
  rw [hcmd] at heq
  revert heq
  cases t.core.cmd.pwmEnable <;> cases s.core.byteIn.getLsbD 0 <;>
    cases t.core.byteIn.getLsbD 0 <;> decide

/-- A zero byte before the probe. -/
def skewBits (enable : Bool) : List Bool :=
  ([0x00, 0x02, flipEnable enable] : List (BitVec 8)).flatMap msbBits

/-- These bits with SCLK high from the first sample on, so that the first of them arrives
only if SCLK was low before. -/
def skewBody (enable : Bool) : List Sample :=
  ⟨true, false, false⟩ :: mode0 1 1 (skewBits enable).tail

def skewWave (enable : Bool) : List Sample :=
  skewBody enable ++ List.replicate 3 ⟨false, false, false⟩

theorem risingBits_skewBody (enable : Bool) :
    risingBits false (skewBody enable) = skewBits enable ∧
      risingBits true (skewBody enable) = (skewBits enable).tail := by
  have htail := risingBits_mode0 0 0 true (skewBits enable).tail
  constructor
  · refine (congrArg (false :: ·) htail).trans ?_
    cases enable <;> rfl
  · exact htail

/-- The waveform as a transaction that carries what arrives. -/
def skewed {s : Regs} (hs : s.CsIdle) (enable : Bool) :
    Transaction s (risingBits s.clkLevel (skewBody enable)) where
  pins := skewWave enable
  idle := sync.flight s
  body := skewBody enable
  quiet := List.replicate 3 ⟨false, false, false⟩
  seen := rfl
  idle_high := flight_deselected hs
  body_low := selected_cons.mpr ⟨rfl, selected_mode0 1 1 _⟩
  body_bits := rfl
  quiet_low := Transaction.selected_quiet
  quiet_bits := risingBits_low 3 _ false
  drained := Transaction.length_quiet

theorem run_skewWave {s : Regs} (hs : s.Idle) (enable : Bool) :
    (run clkProcess s (skewWave enable)).core.cmd =
      (run Decoder.bit ⟨s.core.byteIn, 0, s.core.cmd.idle⟩
        (risingBits s.clkLevel (skewBody enable))).cmd :=
  congrArg Decoder.cmd ((skewed hs.cs enable).decoder_run (.inr hs.cleared))

theorem ofByte_latch_zero : ∀ carry, Pending.ofByte (latch carry 0x00) = .none := by decide

/-- With every bit read, the probe behind the zero byte flips the enable register. -/
theorem skew_low {s : Regs} (hs : s.Idle) (hlevel : s.clkLevel = false) :
    (run clkProcess s (skewWave s.core.cmd.pwmEnable)).core.cmd.pwmEnable =
      !s.core.cmd.pwmEnable := by
  rw [run_skewWave hs, hlevel, (risingBits_skewBody _).1, skewBits, (run_bytes _ rfl _).1, latched,
    List.foldl_cons, processByte_other rfl (ofByte_latch_zero _)]
  exact (probe_enable s.core.cmd false).trans (Bool.bne_true _)

/-- Without the first bit two bytes and seven bits arrive, and no payload among them. -/
theorem skew_high {s : Regs} (hs : s.Idle) (hlevel : s.clkLevel = true) :
    (run clkProcess s (skewWave s.core.cmd.pwmEnable)).core.cmd.pwmEnable =
      s.core.cmd.pwmEnable := by
  have hbytes : ∀ e, (skewBits e).tail.take (8 * ((skewBits e).tail.length / 8)) =
      ([0x00, if e then 0x04 else 0x05] : List (BitVec 8)).flatMap msbBits := by decide
  rw [run_skewWave hs, hlevel, (risingBits_skewBody _).2, Decoder.run_whole_bytes _ rfl, hbytes,
    (run_bytes _ rfl _).1, latched, List.foldl_cons, processByte_other rfl (ofByte_latch_zero _),
    latched, List.foldl_cons, latched, List.foldl_nil]
  have hout := processByte_outputs (r := s.core.cmd.idle) rfl
    (latch ((0x00 : BitVec 8).getLsbD 0) (if s.core.cmd.pwmEnable then 0x04 else 0x05))
  exact congrArg (fun o => o.2.2.1) hout

/-- The waveform tells states apart that differ in the level. -/
theorem skew_observe {s t : Regs} (hs : s.Idle) (ht : t.Idle)
    (hcmd : s.core.cmd = t.core.cmd) (hlow : s.clkLevel = false) (hhigh : t.clkLevel = true) :
    (run clkProcess s (skewWave s.core.cmd.pwmEnable)).observe ≠
      (run clkProcess t (skewWave s.core.cmd.pwmEnable)).observe := by
  intro h
  have henable := congrArg (fun o => o.1.2.2.1) h
  have hs' := skew_low hs hlow
  have ht' := skew_high ht hhigh
  rw [← hcmd] at ht'
  exact absurd (hs'.symm.trans (henable.trans ht')) (by cases s.core.cmd.pwmEnable <;> decide)

/-- **Independence of earlier traffic.** Two idle states with equal outputs and encoder
value agree after every edge of every waveform exactly when the last bit shifted into
`byte_in` and the SCLK level sampled last are the same in both. -/
theorem independent_iff (s t : Regs) (hs : s.Idle) (ht : t.Idle)
    (hout : s.core.cmd.outputs = t.core.cmd.outputs)
    (henc : s.core.encoderValue = t.core.encoderValue) :
    (∀ (x : Sample) (w : List Sample),
      (run clkProcess s (x :: w)).observe = (run clkProcess t (x :: w)).observe) ↔
    s.core.byteIn.getLsbD 0 = t.core.byteIn.getLsbD 0 ∧ s.clkLevel = t.clkLevel := by
  have hcmd : s.core.cmd = t.core.cmd := by
    simp only [CommandRegs.outputs, Prod.mk.injEq] at hout
    obtain ⟨hspeed, hdir, henable, hbrake, hled⟩ := hout
    obtain ⟨-, hpending⟩ := hs.cleared
    obtain ⟨-, hpending'⟩ := ht.cleared
    exact CommandRegs.ext (hpending.trans hpending'.symm) hspeed hdir henable hbrake hled
  constructor
  · intro h
    refine ⟨carry_eq hs ht hcmd h, ?_⟩
    cases hls : s.clkLevel <;> cases hlt : t.clkLevel
    · rfl
    · exact absurd (h _ _) (skew_observe hs ht hcmd hls hlt)
    · exact absurd (h _ _).symm (skew_observe ht hs hcmd.symm hlt hls)
    · rfl
  · rintro ⟨hcarry, hlevel⟩ x w
    exact observe_run hs ht ⟨hcarry, by rw [hcmd], henc⟩ hlevel x w

theorem idle_rest (byteIn : BitVec 8) (r : CommandRegs) (v : BitVec 14) :
    (Regs.rest byteIn r v).Idle := ⟨rfl, rfl, rfl⟩

/-- The bytes 0x02 and 0x80 on the wires. -/
def enableWave : List Sample :=
  mode0 1 1 (msbBits (0x02 : BitVec 8) ++ msbBits (0x80 : BitVec 8)) ++
    List.replicate 3 ⟨false, false, false⟩

theorem independent_even :
    (run clkProcess (.rest 0x00 clearedRegs encoderPlaceholder)
        (⟨false, true, true⟩ :: enableWave)).observe =
      (run clkProcess (.rest 0xA4 clearedRegs encoderPlaceholder)
        (⟨false, true, true⟩ :: enableWave)).observe :=
  (independent_iff (.rest 0x00 clearedRegs encoderPlaceholder)
    (.rest 0xA4 clearedRegs encoderPlaceholder) (idle_rest _ _ _) (idle_rest _ _ _)
    rfl rfl).mpr (by decide) _ _

/-- The slave after one byte and a stretch with CS high. -/
def afterByte (b : BitVec 8) : Regs :=
  run clkProcess (.rest 0 clearedRegs encoderPlaceholder)
    (mode0 1 1 (msbBits b) ++ List.replicate 6 ⟨false, false, true⟩)

theorem idle_afterByte : (afterByte 0x10).Idle ∧ (afterByte 0x11).Idle := by
  refine ⟨⟨?_, ?_, ?_⟩, ⟨?_, ?_, ?_⟩⟩ <;> decide +kernel

/-- The bytes 0x10 and 0x11 are both ignored, but only after the first of them does the
same waveform enable the motor. -/
theorem carried_bit_leaks :
    (afterByte 0x10).Idle ∧ (afterByte 0x11).Idle ∧
      (afterByte 0x10).observe = (afterByte 0x11).observe ∧
      (run clkProcess (afterByte 0x10) enableWave).observe ≠
        (run clkProcess (afterByte 0x11) enableWave).observe := by
  refine ⟨idle_afterByte.1, idle_afterByte.2, ?_, ?_⟩ <;> decide +kernel

end EmSysLab.Assignment11
