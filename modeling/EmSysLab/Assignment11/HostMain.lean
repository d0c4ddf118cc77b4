import EmSysLab.Assignment11.HostSession

/-!
# The host client run to its end

`main` of `main.c` against the slave, on a bus with two chip selects of which the slave is
connected to one. The client probes CE1 and then, if all it reads is zero, CE0; a slave that
is not selected drives its line low. Every transfer may have any waveform that keeps six
cycles between rises, and any pause before it, so the sleeps of the client are in the gaps.
-/
namespace EmSysLab.Assignment11

open Serial Clocked

inductive ChipSelect where
  | cs0
  | cs1
  deriving DecidableEq, Repr

/-- Where the slave is connected, and the waveforms of the transfers, numbered in order. -/
structure Bus where
  slave : ChipSelect
  wave : ℕ → (selected : Bool) → (q : Request) → Transfer 6 selected q.bits

/-- The client between two transfers, and the slave. -/
structure Client where
  slave : Regs
  chipSelect : ChipSelect
  transfers : ℕ

/-- `bcm2835_spi_chipSelect`. -/
def Client.select (c : Client) (cs : ChipSelect) : Client := { c with chipSelect := cs }

section Program

variable (bus : Bus)

def Client.selected (c : Client) : Bool := decide (c.chipSelect = bus.slave)

/-- The two bytes that come in while those of the request go out. -/
def xfer (q : Request) (c : Client) : (BitVec 8 × BitVec 8) × Client :=
  let wave := bus.wave c.transfers (c.selected bus) q
  (rxBytes (masterReads clkProcess (fun s => s.core.spiPoci) (run clkProcess c.slave wave.gap) false
      wave.body),
    { c with slave := run clkProcess c.slave wave.pins, transfers := c.transfers + 1 })

def ledOn (c : Client) : Client := (xfer bus (.led 1) c).2
def ledOff (c : Client) : Client := (xfer bus (.led 0) c).2

def blink : ℕ → Client → Client
  | 0, c => c
  | count + 1, c => blink count (ledOff bus (ledOn bus c))

/-- A probe loop: has any of its transfers brought a byte that is not zero? -/
def probeLoop : ℕ → Bool → Client → Bool × Client
  | 0, nonzero, c => (nonzero, c)
  | n + 1, nonzero, c =>
    let (rx, c) := xfer bus .readEncoder c
    probeLoop n (if rx.1 ≠ 0 ∨ rx.2 ≠ 0 then true else nonzero) c

/-- The read loop, with the values it prints. -/
def readEncoder : ℕ → Client → List (BitVec 16) × Client
  | 0, c => ([], c)
  | n + 1, c =>
    let (rx, c) := xfer bus .readEncoder c
    let (values, c) := readEncoder n c
    (parseEncoderFromTwoBytes rx.1 rx.2 :: values, c)

/-- What `main` has found and printed, and the state it leaves. -/
structure Outcome where
  nonzero : Bool
  encoder : List (BitVec 16)
  client : Client

def main (c : Client) : Outcome :=
  let (nonzero, c) := probeLoop bus 4 false (c.select .cs1)
  let (nonzero, c) :=
    if nonzero then (nonzero, c) else probeLoop bus 4 nonzero (c.select .cs0)
  let (encoder, c) := readEncoder bus 8 c
  ⟨nonzero, encoder, blink bus 5 c⟩

end Program

/-! ## The slave's line -/

/-- A slave that is not selected drives its line low. -/
theorem spiPoci_deselected (c : Core) {xs : List Sample} (hxs : Deselected xs) (hne : xs ≠ []) :
    (run Core.clkProcess c xs).spiPoci = false := by
  obtain ⟨ys, x, rfl⟩ := (List.eq_nil_or_concat' xs).resolve_left hne
  obtain ⟨-, hx⟩ := deselected_append.mp hxs
  rw [run_append, run_cons, run_nil, clkProcess_high _ x (hx x (List.mem_singleton_self x))]

theorem masterReads_deselected (s : Regs) {bits : List Bool} (t : Transfer 6 false bits) :
    masterReads clkProcess (fun s => s.core.spiPoci) (run clkProcess s t.gap) false t.body =
      List.replicate bits.length false := by
  rw [masterReads_eq clkProcess _ 0 (f := fun _ => false), t.count_body, List.map_const',
    List.length_range']
  intro u x v huv hx
  obtain ⟨hlen, -⟩ := Gap.quiet (huv ▸ t.timed) hx
  have hu : Deselected u := fun y hy => t.deselected_body y (by
    rw [huv]
    exact List.mem_append_left _ hy)
  have hpins : (t.gap ++ u).length = (sync.flight s).length + ((t.gap ++ u).length - 3) := by
    rw [List.length_append]
    change _ = 3 + _
    omega
  have hcore : (run clkProcess s (t.gap ++ u)).core =
      run Core.clkProcess (sync.drained s) ((t.gap ++ u).take ((t.gap ++ u).length - 3)) :=
    sync.view_run_flight s _ hpins
  rw [← run_append, hcore]
  apply spiPoci_deselected
  · intro y hy
    exact deselected_append.mpr ⟨t.gap_high, hu⟩ y (List.mem_of_mem_take hy)
  · apply List.ne_nil_of_length_pos
    rw [List.length_take, List.length_append]
    omega

theorem masterReads_selected (s : Regs) {bits : List Bool} (t : Transfer 6 true bits) :
    masterReads clkProcess (fun s => s.core.spiPoci) (run clkProcess s t.gap) false t.body =
      (List.range bits.length).map (replyWord s.core.encoderValue).getMsbD := by
  obtain ⟨ys, x, hgap⟩ := (List.eq_nil_or_concat' t.gap).resolve_left t.gap_ne
  have hcs : ((run clkProcess s t.gap).stage 0).cs = true := by
    have hx := t.gap_high x (by rw [hgap]; exact List.mem_append_right ys (List.mem_singleton_self x))
    rw [hgap, run_append, run_cons, run_nil]
    simp [clkProcess, Regs.stage, hx]
  have hlevel : (run clkProcess s t.gap).clkLevel = false := by
    have hlow := t.gap_low
    rw [hgap, lastLevel_append] at hlow
    rw [hgap, run_append, run_cons, run_nil]
    simp only [clkProcess, Regs.clkLevel]
    simpa using hlow
  have hencoder : (run clkProcess s t.gap).core.encoderValue = s.core.encoderValue := by
    rw [core_run, run_encoderValue]
  have h := masterReads_reply hcs t.selected_body (by rw [hlevel]; exact t.timed)
  rw [hlevel, t.count_body, hencoder] at h
  exact h

/-! ## What a transfer does -/

section Equations

variable (bus : Bus)

theorem probeLoop_succ (n : ℕ) (nonzero : Bool) (c : Client) : probeLoop bus (n + 1) nonzero c =
    probeLoop bus n (if (xfer bus .readEncoder c).1.1 ≠ 0 ∨ (xfer bus .readEncoder c).1.2 ≠ 0 then true
      else nonzero) (xfer bus .readEncoder c).2 := rfl

theorem readEncoder_succ (n : ℕ) (c : Client) : readEncoder bus (n + 1) c =
    (parseEncoderFromTwoBytes (xfer bus .readEncoder c).1.1 (xfer bus .readEncoder c).1.2 ::
      (readEncoder bus n (xfer bus .readEncoder c).2).1,
      (readEncoder bus n (xfer bus .readEncoder c).2).2) := rfl

theorem blink_succ (n : ℕ) (c : Client) :
    blink bus (n + 1) c = blink bus n (ledOff bus (ledOn bus c)) := rfl

end Equations

namespace Client

/-- The slave once its synchronisers have drained. -/
def core (c : Client) : Core := sync.drained c.slave

def outputs (c : Client) : BitVec 5 × Bool × Bool × Bool × Bool := c.core.cmd.outputs

/-- The bit left in `byte_in`, above which the next byte is read. -/
def carry (c : Client) : Bool := c.core.byteIn.getLsbD 0

/-- The two bytes that hold the encoder value. -/
def reply (v : BitVec 14) : BitVec 8 × BitVec 8 :=
  ((replyWord v).extractLsb' 8 8, (replyWord v).extractLsb' 0 8)

theorem reply_zero : reply 0 = (0, 0) := by decide

/-- A reply of two zero bytes means the value zero. -/
theorem reply_ne_zero {v : BitVec 14} : ((reply v).1 ≠ 0 ∨ (reply v).2 ≠ 0) ↔ v ≠ 0 := by
  constructor
  · rintro h rfl
    rw [reply_zero] at h
    exact h.elim (absurd rfl) (absurd rfl)
  · intro hv
    by_contra hzero
    obtain ⟨hhigh, hlow⟩ := not_or.mp hzero
    rw [not_not] at hhigh hlow
    apply hv
    have hword : (replyWord v).toNat = v.toNat := by
      rw [replyWord, BitVec.toNat_append]
      simp
    have h0 := congrArg BitVec.toNat hhigh
    have h1 := congrArg BitVec.toNat hlow
    rw [reply, BitVec.extractLsb'_toNat, hword, Nat.shiftRight_eq_div_pow] at h0 h1
    have hlt := v.isLt
    apply BitVec.eq_of_toNat_eq
    rw [show (0 : BitVec 8).toNat = 0 from rfl] at h0 h1
    rw [show (0 : BitVec 14).toNat = 0 from rfl]
    omega

end Client

open Client

section Steps

variable (bus : Bus) (q : Request) (c : Client)

theorem xfer_rx : (xfer bus q c).1 =
    reply (if c.selected bus then c.slave.core.encoderValue else 0) := by
  unfold xfer
  dsimp only
  generalize bus.wave c.transfers (c.selected bus) q = wave
  revert wave
  cases c.selected bus with
  | false =>
    intro wave
    rw [masterReads_deselected, q.length_bits, if_neg Bool.false_ne_true, reply_zero]
    decide
  | true =>
    intro wave
    rw [masterReads_selected, q.length_bits, if_pos rfl]
    exact rxBytes_msbBits (replyWord c.slave.core.encoderValue)

theorem xfer_encoderValue :
    (xfer bus q c).2.slave.core.encoderValue = c.slave.core.encoderValue := by
  unfold xfer
  dsimp only
  rw [core_run, run_encoderValue]

/-- The slave takes the transfer in as one of the client's. -/
theorem xfer_core :
    (xfer bus q c).2.outputs =
        (if c.selected bus && q.brakes c.carry then c.core.cmd.braked else c.core.cmd).outputs ∧
      (xfer bus q c).2.carry = if c.selected bus then q.lastBit else c.carry := by
  have hcore : (xfer bus q c).2.core = run Core.clkProcess c.core
      (HostTransfer.pins ⟨c.selected bus, q, bus.wave c.transfers (c.selected bus) q⟩) :=
    sync.drained_run _ _
  obtain ⟨houtputs, hcarry⟩ :=
    HostTransfer.run_pins c.core ⟨c.selected bus, q, bus.wave c.transfers (c.selected bus) q⟩
  rw [← hcore] at houtputs hcarry
  exact ⟨houtputs, hcarry⟩

end Steps

/-- After one or more encoder reads. -/
structure Reads (bus : Bus) (c c' : Client) : Prop where
  chipSelect : c'.chipSelect = c.chipSelect
  encoderValue : c'.slave.core.encoderValue = c.slave.core.encoderValue
  outputs : c'.outputs = c.outputs
  carry : c.selected bus = true → c'.carry = false

namespace Reads

variable {bus : Bus} {c c' c'' : Client}

theorem selected (h : Reads bus c c') : c'.selected bus = c.selected bus := by
  rw [Client.selected, h.chipSelect, Client.selected]

theorem xfer (c : Client) : Reads bus c (xfer bus .readEncoder c).2 where
  chipSelect := rfl
  encoderValue := xfer_encoderValue bus .readEncoder c
  outputs := by
    obtain ⟨houtputs, -⟩ := xfer_core bus .readEncoder c
    rw [houtputs, Request.brakes, Bool.and_false, if_neg Bool.false_ne_true]
    rfl
  carry := by
    obtain ⟨-, hcarry⟩ := xfer_core bus .readEncoder c
    intro hselected
    rw [hcarry, if_pos hselected]
    rfl

theorem trans (h : Reads bus c c') (h' : Reads bus c' c'') : Reads bus c c'' where
  chipSelect := h'.chipSelect.trans h.chipSelect
  encoderValue := h'.encoderValue.trans h.encoderValue
  outputs := h'.outputs.trans h.outputs
  carry := fun hselected => h'.carry (h.selected.trans hselected)

/-- What a read brings: the encoder value, if it is this slave that is read. -/
def value (bus : Bus) (c : Client) : BitVec 14 :=
  if c.selected bus then c.slave.core.encoderValue else 0

theorem value_eq (h : Reads bus c c') : value bus c' = value bus c := by
  rw [value, value, h.selected, h.encoderValue]

/-- **The probe loop** finds something exactly if the slave it reads has a value to show. -/
theorem probeLoop (n : ℕ) (nonzero : Bool) (c : Client) :
    (probeLoop bus (n + 1) nonzero c).1 = (nonzero || decide (value bus c ≠ 0)) ∧
      Reads bus c (probeLoop bus (n + 1) nonzero c).2 := by
  have hread : Reads bus c (Assignment11.xfer bus .readEncoder c).2 := xfer c
  have hfound : ((Assignment11.xfer bus .readEncoder c).1.1 ≠ 0 ∨
      (Assignment11.xfer bus .readEncoder c).1.2 ≠ 0) ↔ value bus c ≠ 0 := by
    rw [xfer_rx]
    exact reply_ne_zero
  have hstep : (if (Assignment11.xfer bus .readEncoder c).1.1 ≠ 0 ∨
      (Assignment11.xfer bus .readEncoder c).1.2 ≠ 0 then true else nonzero) =
        (nonzero || decide (value bus c ≠ 0)) := by
    rw [if_congr hfound rfl rfl]
    by_cases hv : value bus c ≠ 0
    · rw [if_pos hv, decide_eq_true hv, Bool.or_true]
    · rw [if_neg hv, decide_eq_false hv, Bool.or_false]
  rw [probeLoop_succ, hstep]
  cases n with
  | zero => exact ⟨rfl, hread⟩
  | succ n =>
    obtain ⟨hnext, hreads⟩ := probeLoop n (nonzero || decide (value bus c ≠ 0))
      (Assignment11.xfer bus .readEncoder c).2
    refine ⟨hnext.trans ?_, hread.trans hreads⟩
    rw [hread.value_eq, Bool.or_assoc, Bool.or_self]

/-- **The read loop** prints what the host makes of the encoder value, every time. -/
theorem readEncoder (n : ℕ) (c : Client) :
    (readEncoder bus (n + 1) c).1 = List.replicate (n + 1)
        (parseEncoderFromTwoBytes (reply (value bus c)).1 (reply (value bus c)).2) ∧
      Reads bus c (readEncoder bus (n + 1) c).2 := by
  have hread : Reads bus c (Assignment11.xfer bus .readEncoder c).2 := xfer c
  have hrx : (Assignment11.xfer bus .readEncoder c).1 = reply (value bus c) := xfer_rx bus _ c
  rw [readEncoder_succ, hrx]
  cases n with
  | zero => exact ⟨rfl, hread⟩
  | succ n =>
    obtain ⟨hvalues, hreads⟩ := readEncoder n (Assignment11.xfer bus .readEncoder c).2
    refine ⟨?_, hread.trans hreads⟩
    rw [hvalues, hread.value_eq]
    rfl

end Reads

/-! ## Blinking -/

section Blink

variable (bus : Bus) (c : Client)

/-- With the other chip select on, the slave hears nothing. -/
theorem blink_deselected (hselected : c.selected bus = false) (n : ℕ) :
    (blink bus n c).outputs = c.outputs := by
  have hxfer : ∀ (q : Request) (c : Client), c.selected bus = false →
      (xfer bus q c).2.outputs = c.outputs := by
    intro q c hc
    obtain ⟨houtputs, -⟩ := xfer_core bus q c
    rw [houtputs, hc, Bool.false_and, if_neg Bool.false_ne_true]
    rfl
  induction n generalizing c with
  | zero => rfl
  | succ n ih =>
    rw [blink_succ]
    have hon : (ledOn bus c).selected bus = false := hselected
    refine (ih (ledOff bus (ledOn bus c)) hon).trans ?_
    exact (hxfer (.led 0) (ledOn bus c) hon).trans (hxfer (.led 1) c hselected)

/-- One blink after a zero brakes the motor and leaves a zero behind. -/
theorem blink_once (hselected : c.selected bus = true) (hcarry : c.carry = false) :
    (ledOff bus (ledOn bus c)).outputs = c.core.cmd.braked.outputs ∧
      (ledOff bus (ledOn bus c)).carry = false := by
  obtain ⟨hon, hcarryOn⟩ := xfer_core bus (.led 1) c
  obtain ⟨hoff, hcarryOff⟩ := xfer_core bus (.led 0) (ledOn bus c)
  have hstill : (ledOn bus c).selected bus = true := hselected
  rw [hselected, if_pos rfl] at hcarryOn
  rw [hselected, hcarry] at hon
  rw [hstill, if_pos rfl] at hcarryOff
  rw [hstill, show (ledOn bus c).carry = true from hcarryOn] at hoff
  exact ⟨hoff.trans hon, hcarryOff⟩

theorem blink_selected (hselected : c.selected bus = true) (hcarry : c.carry = false) (n : ℕ) :
    (blink bus (n + 1) c).outputs = c.core.cmd.braked.outputs := by
  obtain ⟨houtputs, hcarry'⟩ := blink_once bus c hselected hcarry
  induction n generalizing c with
  | zero => exact houtputs
  | succ n ih =>
    obtain ⟨houtputs', hcarry''⟩ := blink_once bus (ledOff bus (ledOn bus c)) hselected hcarry'
    rw [blink_succ]
    refine (ih (ledOff bus (ledOn bus c)) hselected hcarry' houtputs' hcarry'').trans ?_
    have htwice := outputs_braked (r := (ledOff bus (ledOn bus c)).core.cmd) houtputs
    exact htwice

theorem blink_chipSelect (n : ℕ) : (blink bus n c).chipSelect = c.chipSelect := by
  induction n generalizing c with
  | zero => rfl
  | succ n ih => exact ih (ledOff bus (ledOn bus c))

end Blink

/-! ## The whole program -/

/-- What `main` finds, prints and leaves behind, when the encoder value is `v`. -/
structure MainRuns (bus : Bus) (c : Client) (v : BitVec 14) : Prop where
  /-- The warning is printed exactly if the value is zero. -/
  nonzero : (main bus c).nonzero = true ↔ v ≠ 0
  /-- A value other than zero shows where the slave is. -/
  chipSelect : (main bus c).client.chipSelect = if v ≠ 0 then bus.slave else .cs0
  /-- Every line shows the value as the host packs it, zero from the wrong chip select. -/
  encoder : (main bus c).encoder =
    List.replicate 8 (parseEncoderFromTwoBytes (reply v).1 (reply v).2)
  /-- Blinking has braked the motor if it was heard at all, and done nothing else. -/
  outputs : (main bus c).client.outputs =
    (if v ≠ 0 ∨ bus.slave = .cs0 then c.core.cmd.braked else c.core.cmd).outputs

/-- Both probes, as `main` makes them. -/
def probes (bus : Bus) (c : Client) : Bool × Client :=
  let first := probeLoop bus 4 false (c.select .cs1)
  if first.1 then first else probeLoop bus 4 first.1 (first.2.select .cs0)

theorem main_eq (bus : Bus) (c : Client) : main bus c =
    ⟨(probes bus c).1, (readEncoder bus 8 (probes bus c).2).1,
      blink bus 5 (readEncoder bus 8 (probes bus c).2).2⟩ := rfl

/-- What is read at a chip select. -/
theorem value_of (bus : Bus) {c : Client} {v : BitVec 14} (hv : c.slave.core.encoderValue = v) :
    Reads.value bus c = if c.chipSelect = bus.slave then v else 0 := by
  rw [Reads.value, hv, Client.selected]
  exact if_congr decide_eq_true_iff rfl rfl

/-- After the probes a slave with a value to show is selected. -/
structure Probed (bus : Bus) (c : Client) (v : BitVec 14) (p : Bool × Client) : Prop where
  nonzero : p.1 = true ↔ v ≠ 0
  chipSelect : p.2.chipSelect = if v ≠ 0 then bus.slave else .cs0
  encoderValue : p.2.slave.core.encoderValue = v
  outputs : p.2.outputs = c.outputs

theorem probes_probed (bus : Bus) (c : Client) :
    Probed bus c c.slave.core.encoderValue (probes bus c) := by
  obtain ⟨hfound, hreads⟩ := @Reads.probeLoop bus 3 false (c.select .cs1)
  have hvalue : Reads.value bus (c.select .cs1) =
      if ChipSelect.cs1 = bus.slave then c.slave.core.encoderValue else 0 := value_of bus rfl
  rw [hvalue, Bool.false_or] at hfound
  unfold probes
  dsimp only
  generalize probeLoop bus 4 false (c.select .cs1) = first at hfound hreads ⊢
  have hencoder : first.2.slave.core.encoderValue = c.slave.core.encoderValue := hreads.encoderValue
  have houtputs : first.2.outputs = c.outputs := hreads.outputs
  generalize c.slave.core.encoderValue = v at hvalue hfound hencoder ⊢
  by_cases hhere : ChipSelect.cs1 = bus.slave ∧ v ≠ 0
  · obtain ⟨hslave, hv⟩ := hhere
    rw [if_pos hslave, decide_eq_true hv] at hfound
    rw [hfound, if_pos rfl]
    refine ⟨iff_of_true hfound hv, ?_, hencoder, houtputs⟩
    rw [if_pos hv, ← hslave]
    exact hreads.chipSelect
  · have hnone : (if ChipSelect.cs1 = bus.slave then v else 0) = 0 := by
      split
      · rename_i hslave
        by_contra hv
        exact hhere ⟨hslave, hv⟩
      · rfl
    rw [hnone, decide_eq_false (not_not_intro rfl)] at hfound
    rw [hfound, if_neg Bool.false_ne_true]
    obtain ⟨hfound', hreads'⟩ :=
      @Reads.probeLoop bus 3 false (first.2.select .cs0)
    have hvalue : Reads.value bus (first.2.select .cs0) =
        if ChipSelect.cs0 = bus.slave then v else 0 := value_of bus hencoder
    rw [hvalue, Bool.false_or] at hfound'
    change (probeLoop bus 4 _ _).1 = _ at hfound'
    refine ⟨?_, ?_, hreads'.encoderValue.trans hencoder, hreads'.outputs.trans houtputs⟩
    · rw [hfound', decide_eq_true_iff]
      split
      · exact Iff.rfl
      · rename_i hslave
        refine iff_of_false (not_not_intro rfl) fun hv => hhere ⟨?_, hv⟩
        revert hslave
        cases bus.slave <;> decide
    · refine hreads'.chipSelect.trans ?_
      split
      · rename_i hv
        change ChipSelect.cs0 = bus.slave
        have hslave : ChipSelect.cs1 ≠ bus.slave := fun hslave => hhere ⟨hslave, hv⟩
        revert hslave
        cases bus.slave <;> decide
      · rfl

end EmSysLab.Assignment11
