import EmSysLab.Assignment11.Abort
import EmSysLab.Assignment11.EncoderRead
import EmSysLab.Assignment11.MotorCommand
import EmSysLab.Serial.Transfer

/-!
# The host client on the wires

`main.c` sends two kinds of transfers, two zero bytes to read the encoder and the two bytes
of an LED command, on either of two chip selects. The slave reads the LED command one place
too low: after a last bit of one it means nothing, after a zero it is the motor command with
the payload 0x80. So no session lights the LED or drives the motor, and what a session does
at most is to brake.
-/
namespace EmSysLab.Assignment11

open Serial Clocked

/-! ## One transfer -/

section Transfer

variable {bits : List Bool}

/-- The slave that is selected takes the bits in, with nothing pending from before. -/
theorem run_transfer (c : Core) (t : Transfer 6 true bits) (k : ℕ) :
    (run Core.clkProcess c (t.gap ++ t.body.take k)).decoder =
      run Decoder.bit ⟨c.byteIn, 0, c.cmd.idle⟩ (risingBits false (t.body.take k)) := by
  rw [run_append, run_selected _ (t.selected_body.take k), run_spiClkPrev, t.lastLevel_gap,
    run_deselected c t.gap_high (.inl t.gap_ne)]

theorem run_transfer_pins (c : Core) (t : Transfer 6 true bits) :
    (run Core.clkProcess c t.pins).decoder =
      run Decoder.bit ⟨c.byteIn, 0, c.cmd.idle⟩ bits := by
  have h := run_transfer c t t.body.length
  rwa [List.take_length, t.body_bits] at h

/-- In a transfer of two bytes no output changes but at its last clock. -/
theorem outputs_transfer (c : Core) (t : Transfer 6 true bits) (hbits : bits.length = 16) (k : ℕ) :
    (run Core.clkProcess c (t.pins.take k)).cmd.outputs = c.cmd.outputs ∨
      (run Core.clkProcess c (t.pins.take k)).cmd.outputs =
        (run Core.clkProcess c t.pins).cmd.outputs := by
  rw [Transfer.pins, List.take_append]
  by_cases hgap : k < t.gap.length
  · left
    rw [show k - t.gap.length = 0 by omega, List.take_zero, List.append_nil]
    exact outputs_deselected c fun x hx => t.gap_high x (List.mem_of_mem_take hx)
  · rw [List.take_of_length_le (by omega)]
    have hpart := run_transfer c t (k - t.gap.length)
    have hle := count_take_le rising false t.body (k - t.gap.length)
    rw [t.count_body, hbits, ← length_risingBits] at hle
    by_cases hlast : (risingBits false (t.body.take (k - t.gap.length))).length < 16
    · left
      have hfew := outputs_few_bits ⟨c.byteIn, 0, c.cmd.idle⟩ rfl rfl _ hlast
      rw [← hpart] at hfew
      exact hfew
    · right
      -- the samples left out carry no bit
      have hsplit := risingBits_append false (t.body.take (k - t.gap.length))
        (t.body.drop (k - t.gap.length))
      rw [List.take_append_drop] at hsplit
      have hlength := congrArg List.length hsplit
      rw [List.length_append, length_risingBits, t.count_body, hbits] at hlength
      have hnil := List.length_eq_zero_iff.mp
        (show (risingBits (lastLevel false (t.body.take (k - t.gap.length)))
          (t.body.drop (k - t.gap.length))).length = 0 by omega)
      rw [hnil, List.append_nil] at hsplit
      have hwhole := run_transfer c t t.body.length
      rw [List.take_length, hsplit, ← hpart] at hwhole
      exact congrArg (fun d => d.cmd.outputs) hwhole.symm

end Transfer

/-! ## The transfers of the client -/

/-- What the client transfers: two zero bytes, or an LED command. -/
inductive Request where
  | readEncoder
  | led (on : BitVec 8)
  deriving DecidableEq

namespace Request

def tx : Request → List (BitVec 8)
  | .readEncoder => [0x00, 0x00]
  | .led on => sendLedCommand on

def bits (q : Request) : List Bool := q.tx.flatMap msbBits

theorem length_bits (q : Request) : q.bits.length = 16 := by
  cases q <;> rfl

/-- The last bit on the wire, which stays in `byte_in`. -/
def lastBit : Request → Bool
  | .readEncoder => false
  | .led on => decide (on ≠ 0)

theorem carryAfter_tx (carry : Bool) (q : Request) : carryAfter carry q.tx = q.lastBit := by
  cases q with
  | readEncoder => rfl
  | led on =>
    change (if on ≠ 0 then (1 : BitVec 8) else 0).getLsbD 0 = decide (on ≠ 0)
    by_cases hon : on = 0
    · rw [if_neg (not_not_intro hon), decide_eq_false (not_not_intro hon)]
      decide
    · rw [if_pos hon, decide_eq_true hon]
      decide

/-- The slave brakes on an LED command that follows a zero. -/
def brakes (carry : Bool) : Request → Bool
  | .readEncoder => false
  | .led _ => !carry

end Request

/-- The motor registers as the payload 0x80 sets them. -/
def CommandRegs.braked (r : CommandRegs) : CommandRegs :=
  { r with pwmSpeed := 0, pwmDir := false, pwmEnable := false, pwmBrake := true }

theorem latched_readEncoder (carry : Bool) :
    ∀ b ∈ latched carry Request.readEncoder.tx, Pending.ofByte b = .none := by
  cases carry <;> decide

/-- **How the slave reads the client.** -/
theorem processByte_request (r : CommandRegs) (hr : r.currentCommand = 0) (carry : Bool)
    (q : Request) : (latched carry q.tx).foldl processByte r =
      if q.brakes carry then r.braked else r := by
  have hignored : ∀ bs : List (BitVec 8), (∀ b ∈ bs, Pending.ofByte b = .none) →
      bs.foldl processByte r = r := by
    intro bs hbs
    induction bs with
    | nil => rfl
    | cons b bs ih =>
      rw [List.foldl_cons, processByte_other hr (hbs b List.mem_cons_self)]
      exact ih fun b hb => hbs b (List.mem_cons_of_mem _ hb)
  cases q with
  | readEncoder => exact hignored _ (latched_readEncoder carry)
  | led on =>
    have hpayload : latch true (if on ≠ 0 then 1 else 0) = 0x80 := by
      split <;> decide
    have htx : latched carry (Request.led on).tx = [latch carry 0x03, 0x80] :=
      congrArg (fun b => [latch carry 0x03, b]) hpayload
    rw [htx]
    cases carry with
    | true => exact hignored _ (by decide)
    | false =>
      -- the command byte is read as 0x01
      have hcmd : processByte r (latch false 0x03) = { r with currentCommand := motor1Command } := by
        rw [show latch false 0x03 = motor1Command by decide, processByte, if_pos hr, if_pos rfl]
      rw [List.foldl_cons, hcmd]
      exact CommandRegs.ext hr.symm rfl rfl rfl rfl rfl

/-- A transfer of the client, to this slave or to the other chip select. -/
structure HostTransfer where
  selected : Bool
  request : Request
  wave : Transfer 6 selected request.bits

namespace HostTransfer

def pins (t : HostTransfer) : List Sample := t.wave.pins

/-- The bit left in `byte_in` by what came before and this transfer. -/
def carry (t : HostTransfer) (before : Bool) : Bool :=
  if t.selected then t.request.lastBit else before

def brakes (t : HostTransfer) (before : Bool) : Bool := t.selected && t.request.brakes before

/-- One transfer, as the slave takes it in. -/
theorem run_pins (c : Core) (t : HostTransfer) :
    (run Core.clkProcess c t.pins).cmd.outputs =
        (if t.brakes (c.byteIn.getLsbD 0) then c.cmd.braked else c.cmd).outputs ∧
      (run Core.clkProcess c t.pins).byteIn.getLsbD 0 = t.carry (c.byteIn.getLsbD 0) := by
  obtain ⟨selected, q, wave⟩ := t
  cases selected with
  | false =>
    have h := run_deselected c wave.deselected_pins (.inl wave.pins_ne)
    exact ⟨congrArg (fun d => d.cmd.outputs) h, congrArg (fun d => d.byteIn.getLsbD 0) h⟩
  | true =>
    have h := run_transfer_pins c wave
    obtain ⟨hcmd, -, hcarry⟩ := run_bytes ⟨c.byteIn, 0, c.cmd.idle⟩ rfl q.tx
    change _ = run Decoder.bit _ (q.tx.flatMap msbBits) at h
    rw [processByte_request c.cmd.idle rfl, ← h] at hcmd
    rw [Request.carryAfter_tx, ← h] at hcarry
    refine ⟨?_, hcarry⟩
    change (run Core.clkProcess c wave.pins).decoder.cmd.outputs = _
    rw [hcmd]
    change _ = (if q.brakes (c.byteIn.getLsbD 0) then c.cmd.braked else c.cmd).outputs
    cases q.brakes (c.byteIn.getLsbD 0) <;> rfl

end HostTransfer

theorem outputs_braked {r r' : CommandRegs} (h : r.outputs = r'.outputs) :
    r.braked.outputs = r'.braked.outputs :=
  congrArg (fun o => (0, false, false, true, o.2.2.2.2)) h

/-- Whether a session brakes the motor, from the bit that is left in `byte_in` before it. -/
def brakesIn : Bool → List HostTransfer → Bool
  | _, [] => false
  | carry, t :: ts => t.brakes carry || brakesIn (t.carry carry) ts

/-- What a whole session leaves in the outputs. -/
theorem outputs_session (c : Core) (ts : List HostTransfer) :
    (run Core.clkProcess c (ts.flatMap HostTransfer.pins)).cmd.outputs =
      (if brakesIn (c.byteIn.getLsbD 0) ts then c.cmd.braked else c.cmd).outputs := by
  induction ts generalizing c with
  | nil => rfl
  | cons t ts ih =>
    obtain ⟨hcmd, hcarry⟩ := t.run_pins c
    rw [List.flatMap_cons, run_append, ih, hcarry, brakesIn]
    rw [apply_ite CommandRegs.outputs] at hcmd ⊢
    cases hfirst : t.brakes (c.byteIn.getLsbD 0) with
    | false =>
      rw [hfirst, if_neg Bool.false_ne_true] at hcmd
      rw [Bool.false_or, outputs_braked hcmd, hcmd, ← apply_ite CommandRegs.outputs]
    | true =>
      rw [hfirst, if_pos rfl] at hcmd
      rw [Bool.true_or, if_pos rfl, outputs_braked hcmd, hcmd]
      exact ite_self _

/-- At every moment of a session the outputs are as before it, or braked. -/
theorem outputs_session_take (c : Core) (ts : List HostTransfer) (k : ℕ) :
    (run Core.clkProcess c ((ts.flatMap HostTransfer.pins).take k)).cmd.outputs = c.cmd.outputs ∨
      (run Core.clkProcess c ((ts.flatMap HostTransfer.pins).take k)).cmd.outputs =
        c.cmd.braked.outputs := by
  induction ts generalizing c k with
  | nil =>
    rw [List.flatMap_nil, List.take_nil]
    exact .inl rfl
  | cons t ts ih =>
    have hlast : (run Core.clkProcess c t.pins).cmd.outputs = c.cmd.outputs ∨
        (run Core.clkProcess c t.pins).cmd.outputs = c.cmd.braked.outputs := by
      obtain ⟨hcmd, -⟩ := t.run_pins c
      rw [hcmd]
      cases t.brakes (c.byteIn.getLsbD 0) with
      | false => exact .inl rfl
      | true => exact .inr rfl
    rw [List.flatMap_cons, List.take_append]
    by_cases hk : k < t.pins.length
    · rw [show k - t.pins.length = 0 by omega, List.take_zero, List.append_nil]
      obtain ⟨selected, q, wave⟩ := t
      cases selected with
      | false =>
        exact .inl (outputs_deselected c fun x hx => wave.deselected_pins x (List.mem_of_mem_take hx))
      | true =>
        rcases outputs_transfer c wave q.length_bits k with hsame | hdone
        · exact .inl hsame
        · exact hdone ▸ hlast
    · rw [List.take_of_length_le (by omega), run_append]
      rcases ih (run Core.clkProcess c t.pins) (k - t.pins.length) with hsame | hbraked
      · exact hsame ▸ hlast
      · right
        rcases hlast with hlast | hlast
        · exact hbraked.trans (outputs_braked hlast)
        · have htwice := outputs_braked hlast
          exact hbraked.trans htwice

/-! ## The device in a session -/

/-- The registers of the slave at any moment of a session that finds CS high. -/
theorem outputs_host (s : Regs) (hs : s.CsIdle) (ts : List HostTransfer) {xs : List Sample}
    (hxs : xs <+: ts.flatMap HostTransfer.pins) :
    (run clkProcess s xs).core.cmd.outputs = s.core.cmd.outputs ∨
      (run clkProcess s xs).core.cmd.outputs = s.core.cmd.braked.outputs := by
  have hflight := flight_deselected hs
  by_cases hfew : xs.length < 3
  · left
    rw [core_run, Delayed.seen, List.take_append_of_le_length (Nat.le_of_lt hfew)]
    exact outputs_deselected _ fun x hx => hflight x (List.mem_of_mem_take hx)
  · have hlen : xs.length = (sync.flight s).length + (xs.length - 3) := by
      change xs.length = 3 + (xs.length - 3)
      omega
    have hcore : (run clkProcess s xs).core =
        run Core.clkProcess (sync.drained s) (xs.take (xs.length - 3)) := sync.view_run_flight s xs hlen
    have hidle : (sync.drained s).cmd.outputs = s.core.cmd.outputs := outputs_deselected _ hflight
    have hprefix : ∀ k, xs.take k = (ts.flatMap HostTransfer.pins).take (min k xs.length) := by
      intro k
      conv_lhs => rw [List.prefix_iff_eq_take.mp hxs, List.take_take]
    rw [hcore, hprefix]
    rcases outputs_session_take (sync.drained s) ts (min (xs.length - 3) xs.length) with h | h
    · exact .inl (h.trans hidle)
    · exact .inr (h.trans (outputs_braked hidle))

/-- What the client can do to the device. -/
structure Harmless (s t : TopEntity) : Prop where
  led : t.regs.core.cmd.ledLatch = s.regs.core.cmd.ledLatch
  motor : t.regs.core.cmd.outputs = s.regs.core.cmd.outputs ∨
    t.regs.core.cmd.outputs = s.regs.core.cmd.braked.outputs
  /-- A motor that is disabled stays off, one edge on. -/
  off : s.regs.core.cmd.pwmEnable = false → ∀ x : Pins, (t.posedgeClk x).pitchDirA = false ∧
    (t.posedgeClk x).pitchDirB = false ∧ (t.posedgeClk x).pitchPwmVal = false

/-- A disabled driver has all its pins low after every edge. -/
theorem PwmMotordriver.off (d : PwmMotordriver {}) (rstN : Bool) {i : PwmInput}
    (hi : i.enable = false) : (d.posedgeClk rstN i).dirA = false ∧
      (d.posedgeClk rstN i).dirB = false ∧ (d.posedgeClk rstN i).pwmOut = false := by
  cases rstN with
  | false => exact ⟨rfl, rfl, rfl⟩
  | true =>
    rw [posedgeClk_true, hi]
    exact ⟨rfl, rfl, rfl⟩

/-- **The client never lights the LED nor drives the motor**: in every session of encoder reads
and LED commands, to either chip select and with any timing of at least six cycles between
rises, at every edge. When the synchronisers have drained, the motor has been braked if and
only if an LED command to this slave came after a zero. -/
theorem host_harmless (s : TopEntity) (hs : s.regs.CsIdle) (ts : List HostTransfer) :
    (∀ xs : List Pins, xs.map Pins.spi <+: ts.flatMap HostTransfer.pins →
      Harmless s (run TopEntity.posedgeClk s xs)) ∧
    (sync.drained (run clkProcess s.regs (ts.flatMap HostTransfer.pins))).cmd.outputs =
      (if brakesIn (s.regs.core.byteIn.getLsbD 0) ts then s.regs.core.cmd.braked
        else s.regs.core.cmd).outputs := by
  constructor
  · intro xs hxs
    have hregs := outputs_host s.regs hs ts hxs
    rw [← TopEntity.run_regs s xs] at hregs
    refine ⟨?_, hregs, fun henable x => ?_⟩
    · rcases hregs with h | h
      · exact congrArg (fun o => o.2.2.2.2) h
      · exact congrArg (fun o => o.2.2.2.2) h
    · have hdisabled : (run TopEntity.posedgeClk s xs).regs.core.cmd.pwmEnable = false := by
        rcases hregs with h | h
        · exact (congrArg (fun o => o.2.2.1) h).trans henable
        · exact congrArg (fun o => o.2.2.1) h
      exact PwmMotordriver.off _ _ hdisabled
  · have hflight := flight_deselected hs
    have hidle := run_deselected s.regs.core hflight (.inl (List.cons_ne_nil _ _))
    have houtputs : (sync.drained s.regs).cmd.outputs = s.regs.core.cmd.outputs :=
      congrArg (fun d => d.cmd.outputs) hidle
    have hcarry : (sync.drained s.regs).byteIn.getLsbD 0 = s.regs.core.byteIn.getLsbD 0 :=
      congrArg (fun d => d.byteIn.getLsbD 0) hidle
    rw [sync.drained_run, outputs_session, hcarry]
    cases brakesIn (s.regs.core.byteIn.getLsbD 0) ts with
    | false => exact houtputs
    | true => exact outputs_braked houtputs

/-- Two blinks at the slave's own pace, after one read. -/
def blinking : List HostTransfer :=
  [⟨true, .readEncoder, .plain 5 true _⟩, ⟨true, .led 1, .plain 5 true _⟩,
    ⟨true, .led 0, .plain 5 true _⟩, ⟨true, .led 1, .plain 5 true _⟩, ⟨true, .led 0, .plain 5 true _⟩]

/-- The motor runs before the session. Afterwards it is braked, and the LED was never lit. -/
theorem host_harmless_blinking :
    let s := TopEntity.rest ⟨0, 10, true, true, false, false⟩
    (∀ xs : List Pins, xs.map Pins.spi <+: blinking.flatMap HostTransfer.pins →
      (run TopEntity.posedgeClk s xs).regs.core.cmd.ledLatch = false) ∧
    (sync.drained (run clkProcess s.regs (blinking.flatMap HostTransfer.pins))).cmd.outputs =
      (0, false, false, true, false) := by
  obtain ⟨hsafe, hend⟩ :=
    host_harmless (.rest ⟨0, 10, true, true, false, false⟩) rfl blinking
  exact ⟨fun xs hxs => (hsafe xs hxs).led, hend.trans rfl⟩

end EmSysLab.Assignment11
