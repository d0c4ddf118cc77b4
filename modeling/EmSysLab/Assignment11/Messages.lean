import EmSysLab.Assignment11.MotorCommand
import EmSysLab.Serial.Message

/-!
# What the slave makes of the wire

A byte is processed before its last bit has come in, so the slave reads the bits in bytes that
begin one bit early, with the last bit of the message before in front. `Listener` is that
reading, a message at a time. A master that leaves out the first bit is read as it means.
-/
namespace EmSysLab.Assignment11

open Serial Clocked

/-- What is left of the messages so far. -/
structure Listener where
  carry : Bool
  parser : Parser
  deriving DecidableEq, Repr

namespace Listener

/-- One message, whose last bits may be left over. -/
def hear (l : Listener) (bits : List Bool) : Listener where
  carry := bits.getLastD l.carry
  parser :=
    { (bytesOf (bits.length / 8) (l.carry :: bits)).foldl Parser.feed l.parser with
      pending := .none }

def hearAll (l : Listener) (messages : List (List Bool)) : Listener := messages.foldl hear l

end Listener

def Decoder.listener (d : Decoder) : Listener := ⟨d.byteIn.getLsbD 0, .start d.cmd⟩

def Core.listener (c : Core) : Listener := c.decoder.listener

/-! ## The bits of one message -/

namespace Decoder

theorem run_byteIn (d : Decoder) (bits : List Bool) :
    (run bit d bits).byteIn = shiftIn d.byteIn bits := by
  induction bits generalizing d with
  | nil => rfl
  | cons b bits ih => rw [run_cons, ih, shiftIn_cons, bit]

/-- Whole bytes are processed as they stand with the bit before them in front. -/
theorem run_bytesOf (d : Decoder) (hd : d.bitCount = 0) (n : ℕ) {bits : List Bool}
    (h : bits.length = 8 * n) : (run bit d bits).cmd =
      (bytesOf n (d.byteIn.getLsbD 0 :: bits)).foldl processByte d.cmd := by
  induction n generalizing d bits with
  | zero =>
    obtain rfl := List.length_eq_zero_iff.mp h
    rfl
  | succ n ih =>
    have hseven : (bits.take 7).length = 7 := by
      rw [List.length_take]
      omega
    have hsplit : bits.take 7 ++ [bits[7]] ++ bits.drop 8 = bits := by
      rw [List.take_append_getElem, List.take_append_drop]
    have hbyte := run_eight d hd (bits.take 7) bits[7] hseven
    have hrest : (bits.drop 8).length = 8 * n := by
      rw [List.length_drop]
      omega
    rw [bytesOf_succ, List.take_succ_cons, List.drop_succ_cons, List.foldl_cons,
      ← shiftIn_eq_assemble _ hseven]
    conv_lhs => rw [← hsplit, run_append, hbyte, ih _ rfl hrest]
    rw [getLsbD_zero_shiftIn (by decide), List.getLastD_concat]
    congr 2
    exact (List.drop_eq_getElem_cons _).symm

/-- **A message is heard as its bits.** -/
theorem listener_run (byteIn : BitVec 8) (p : Parser) (bits : List Bool) :
    (run bit ⟨byteIn, 0, p.regs⟩ bits).listener = (Listener.mk (byteIn.getLsbD 0) p).hear bits := by
  have hlength : (bits.take (8 * (bits.length / 8))).length = 8 * (bits.length / 8) := by
    rw [List.length_take]
    omega
  have hcmd : (run bit ⟨byteIn, 0, p.regs⟩ bits).cmd =
      ((bytesOf (bits.length / 8) (byteIn.getLsbD 0 :: bits)).foldl Parser.feed p).regs := by
    rw [run_whole_bytes _ rfl, run_bytesOf _ rfl _ hlength, ← List.take_succ_cons,
      bytesOf_take (Nat.le_succ _), foldl_processByte]
  rw [listener, hcmd, run_byteIn, getLsbD_zero_shiftIn (by decide)]
  rfl

end Decoder

/-! ## The waveform of a session -/

theorem listener_deselected (c : Core) {xs : List Sample} (hxs : Deselected xs) :
    (run Core.clkProcess c xs).listener = c.listener := by
  by_cases hne : xs = []
  · rw [hne]
    rfl
  · rw [Core.listener, run_deselected c hxs (.inl hne)]
    rfl

theorem listener_message (c : Core) (m : Message) :
    (run Core.clkProcess c m.pins).listener = c.listener.hear m.bits := by
  have hdecoder : (run Core.clkProcess c m.pins).decoder =
      run Decoder.bit ⟨c.byteIn, 0, (Parser.start c.cmd).regs⟩ m.bits := by
    rw [Message.pins, run_append, run_selected _ m.body_low, run_spiClkPrev, m.lastLevel_gap,
      run_deselected c m.gap_high (.inl m.gap_ne)]
    rfl
  rw [Core.listener, hdecoder, Decoder.listener_run]
  rfl

theorem listener_messages (c : Core) (ms : List Message) :
    (run Core.clkProcess c (ms.flatMap Message.pins)).listener =
      c.listener.hearAll (ms.map Message.bits) := by
  induction ms generalizing c with
  | nil => rfl
  | cons m ms ih => rw [List.flatMap_cons, run_append, ih, listener_message]; rfl

/-- The messages that the core has seen, whole or in part, when the pins have carried `xs`. -/
def TopEntity.Sees (s : TopEntity) (xs : List Pins) (ms : List Message) : Prop :=
  ms.flatMap Message.pins = (sync.seen s.regs (xs.map Pins.spi)).take xs.length

/-- **The slave refines the listener**, at every edge of every waveform. -/
theorem session_refines (s : TopEntity) (hs : (s.regs.stage 2).cs = true) (xs : List Pins) :
    (∃ ms, s.Sees xs ms) ∧ ∀ ms, s.Sees xs ms →
      (run TopEntity.posedgeClk s xs).regs.core.listener =
        s.regs.core.listener.hearAll (ms.map Message.bits) := by
  constructor
  · refine Message.exists_messages _ fun x hx => ?_
    cases hlen : xs.length with
    | zero =>
      rw [hlen] at hx
      exact absurd hx (Option.not_mem_none x)
    | succ n =>
      rw [hlen] at hx
      obtain rfl : s.regs.stage 2 = x := Option.some.inj hx
      exact hs
  · intro ms hms
    rw [TopEntity.run_regs, core_run, List.length_map, ← hms, listener_messages]

/-- The LED command with both bytes doubled, and three samples more. -/
def doubledLed : List Pins :=
  ((Message.plain ([0x06#8, 0x02#8].flatMap msbBits)).pins ++
    List.replicate 3 (⟨false, false, false⟩ : Sample)).map fun x => ⟨x, true, false⟩

/-- It turns the LED on. -/
theorem session_refines_doubled :
    (run TopEntity.posedgeClk (.rest clearedRegs) doubledLed).regs.core.listener =
      ⟨false, .none, 0, false, false, false, true⟩ := by
  obtain ⟨-, hlistener⟩ := session_refines (.rest clearedRegs) rfl doubledLed
  rw [hlistener (List.replicate 3 (Message.pause ⟨false, false, true⟩ rfl) ++
    [Message.plain ([0x06#8, 0x02#8].flatMap msbBits)]) rfl]
  decide

/-! ## A master that leaves out the first bit -/

/-- A command and its payload, as the command branches take them. -/
inductive Command where
  | motor1 (payload : BitVec 8)
  | motor2 (payload : BitVec 8)
  | led (payload : BitVec 8)
  deriving DecidableEq, Repr

namespace Command

def bytes : Command → List (BitVec 8)
  | .motor1 payload => [motor1Command, payload]
  | .motor2 payload => [motor2Command, payload]
  | .led payload => [ledCommand, payload]

/-- What the command is for. -/
def apply (p : Parser) : Command → Parser
  | .motor1 payload =>
    { p with
      speed := payload.extractLsb' 0 5
      dir := payload.getLsbD 5
      enable := payload.getLsbD 6
      brake := payload.getLsbD 7 }
  | .motor2 _ => p
  | .led payload => { p with led := payload.getLsbD 0 }

theorem apply_pending (p : Parser) (c : Command) : (apply p c).pending = p.pending := by
  cases c <;> rfl

theorem foldl_apply_pending (p : Parser) (cs : List Command) :
    (cs.foldl apply p).pending = p.pending := by
  induction cs generalizing p with
  | nil => rfl
  | cons c cs ih => rw [List.foldl_cons, ih, apply_pending]

theorem foldl_feed_bytes {p : Parser} (hp : p.pending = .none) (cs : List Command) :
    (cs.flatMap bytes).foldl Parser.feed p = cs.foldl apply p := by
  induction cs generalizing p with
  | nil => rfl
  | cons c cs ih =>
    have hfeed : c.bytes.foldl Parser.feed p = apply p c := by
      obtain ⟨pending, speed, dir, enable, brake, led⟩ := p
      obtain rfl : pending = .none := hp
      cases c <;> rfl
    rw [List.flatMap_cons, List.foldl_append, hfeed, List.foldl_cons]
    exact ih ((apply_pending p c).trans hp)

/-- The bytes of the commands but for the first bit, and a zero behind them. -/
def early (cs : List Command) : List Bool := ((cs.flatMap bytes).flatMap msbBits).tail ++ [false]

/-- No command byte has its first bit set. -/
theorem cons_early (cs : List Command) (hcs : cs ≠ []) :
    false :: early cs = (cs.flatMap bytes).flatMap msbBits ++ [false] := by
  obtain ⟨c, cs, rfl⟩ := List.exists_cons_of_ne_nil hcs
  cases c <;> rfl

theorem length_early (cs : List Command) (hcs : cs ≠ []) :
    (early cs).length = 8 * (cs.flatMap bytes).length := by
  have hlength := congrArg List.length (cons_early cs hcs)
  have hbits : ((cs.flatMap bytes).flatMap msbBits).length = 8 * (cs.flatMap bytes).length := by
    generalize cs.flatMap bytes = bs
    induction bs with
    | nil => rfl
    | cons b bs ih =>
      rw [List.flatMap_cons, List.length_append, ih, length_msbBits, List.length_cons]
      omega
  rw [List.length_cons, List.length_append, hbits, List.length_singleton] at hlength
  exact Nat.succ.inj hlength

end Command

namespace Listener

/-- **Commands that are sent early are heard as they are meant.** -/
theorem hear_early {p : Parser} (hp : p.pending = .none) (cs : List Command) :
    hear ⟨false, p⟩ (Command.early cs) = ⟨false, cs.foldl Command.apply p⟩ := by
  have hpending : ∀ q : Parser, q.pending = .none → { q with pending := .none } = q := by
    rintro ⟨pending, speed, dir, enable, brake, led⟩ rfl
    rfl
  have hcarry : (Command.early cs).getLastD false = false := List.getLastD_concat
  by_cases hcs : cs = []
  · subst hcs
    rw [hear, hcarry]
    exact congrArg (Listener.mk false) (hpending p hp)
  · have hfold := (Command.foldl_apply_pending p cs).trans hp
    rw [hear, hcarry, Command.cons_early cs hcs, Command.length_early cs hcs,
      Nat.mul_div_cancel_left _ (by decide), bytesOf_flatMap_msbBits, Command.foldl_feed_bytes hp,
      hpending _ hfold]

theorem hearAll_early {p : Parser} (hp : p.pending = .none) (css : List (List Command)) :
    hearAll ⟨false, p⟩ (css.map Command.early) = ⟨false, css.flatten.foldl Command.apply p⟩ := by
  induction css generalizing p with
  | nil => rfl
  | cons cs css ih =>
    rw [List.map_cons, hearAll, List.foldl_cons, hear_early hp, List.flatten_cons,
      List.foldl_append]
    exact ih ((Command.foldl_apply_pending p cs).trans hp)

/-- A message of a single zero clears whatever bit was left over. -/
theorem hear_zero {l : Listener} (hl : l.parser.pending = .none) :
    l.hear [false] = ⟨false, l.parser⟩ := by
  obtain ⟨carry, pending, speed, dir, enable, brake, led⟩ := l
  obtain rfl : pending = .none := hl
  rfl

end Listener

/-- A single zero, any number of messages of early commands, and then CS and btn1 high for
good. -/
structure EarlySession (css : List (List Command)) where
  messages : List Message
  messages_bits : messages.map Message.bits = [false] :: css.map Command.early
  pins : List Pins
  pins_spi : pins.map Pins.spi = messages.flatMap Message.pins
  rest : ℕ → Pins
  rest_high : ∀ k, (rest k).spi.cs = true
  rest_btn1 : ∀ k, (rest k).btn1 = true ∧ (rest k).btn1Fell = false

namespace EarlySession

variable {s : TopEntity} {css : List (List Command)} (t : EarlySession css)

/-- The device `s` before the `k`-th edge after the session. -/
def cycle (s : TopEntity) (k : ℕ) : TopEntity :=
  before TopEntity.posedgeClk (run TopEntity.posedgeClk s t.pins) t.rest k

theorem cycle_eq_run (k : ℕ) : t.cycle s k =
    run TopEntity.posedgeClk s (t.pins ++ (List.range k).map t.rest) := by
  rw [cycle, before_eq_run, ← run_append]

/-- Three edges after the session the command registers are what the commands make of them. -/
theorem listener_cycle (hcs : s.regs.CsIdle) (k : ℕ) :
    (t.cycle s (k + 3)).regs.core.listener =
      ⟨false, css.flatten.foldl Command.apply (.start s.regs.core.cmd)⟩ := by
  have hflight : (sync.flight s.regs).length = 3 := rfl
  have hrest : Deselected ((List.range k).map fun j => (t.rest j).spi) := by
    intro x hx
    obtain ⟨j, -, rfl⟩ := List.mem_map.mp hx
    exact t.rest_high j
  have htake : ((t.pins ++ (List.range (k + 3)).map t.rest).map Pins.spi).take
      (t.pins.length + k) = t.messages.flatMap Message.pins ++
        (List.range k).map fun j => (t.rest j).spi := by
    have hsplit : (t.pins ++ (List.range (k + 3)).map t.rest).map Pins.spi =
        (t.messages.flatMap Message.pins ++ (List.range k).map fun j => (t.rest j).spi) ++
          (List.range 3).map fun j => (t.rest (k + j)).spi := by
      rw [List.range_add]
      simp only [List.map_append, List.map_map, t.pins_spi, List.append_assoc]
      rfl
    rw [hsplit]
    apply List.take_left'
    rw [List.length_append, ← t.pins_spi, List.length_map, List.length_map, List.length_range]
  have hcore : (t.cycle s (k + 3)).regs.core = run Core.clkProcess (sync.drained s.regs)
      (t.messages.flatMap Message.pins ++ (List.range k).map fun j => (t.rest j).spi) := by
    rw [cycle_eq_run, TopEntity.run_regs, ← htake]
    apply sync.view_run_flight s.regs
    rw [hflight, List.length_map, List.length_append, List.length_map, List.length_range]
    omega
  have hidle : (sync.drained s.regs).listener = s.regs.core.listener :=
    listener_deselected s.regs.core (flight_deselected hcs)
  rw [hcore, run_append, listener_deselected _ hrest, listener_messages, hidle, t.messages_bits,
    Listener.hearAll, List.foldl_cons, Listener.hear_zero rfl]
  exact Listener.hearAll_early rfl css

theorem held (hs : s.Reachable) (hcs : s.regs.CsIdle) : TopEntity.Held (t.cycle s)
    (css.flatten.foldl Command.apply (.start s.regs.core.cmd)).regs where
  inPeriod := by
    rw [cycle_eq_run]
    exact run_invariant TopEntity.inPeriod_posedgeClk hs.inPeriod _
  next := by
    intro k hk
    obtain ⟨k, rfl⟩ := Nat.exists_eq_add_of_le' hk
    obtain ⟨hbtn1, hfell⟩ := t.rest_btn1 (k + 3)
    have hparser := congrArg Listener.parser (t.listener_cycle hcs k)
    rw [← hbtn1, ← congrArg (fun p => TopEntity.pwmInput p.regs) hparser]
    conv_lhs => rw [cycle, before_succ]
    unfold TopEntity.posedgeClk
    rw [hfell]
    rfl

/-- The pins do what the last motor command asks for, and the LED what the last LED command. -/
structure Obeyed (s : TopEntity) (p : Parser) : Prop where
  led : ∀ k ≥ 3, (t.cycle s k).regs.core.cmd.ledLatch = p.led
  dirA : ∀ k ≥ 4, (t.cycle s k).pitchDirA = (p.enable && !p.brake && p.dir)
  dirB : ∀ k ≥ 4, (t.cycle s k).pitchDirB = (p.enable && !p.brake && !p.dir)
  duty : ∀ a, ((Finset.range 600).filter fun j =>
    (t.cycle s (5 + a + j)).pitchPwmVal = true).card = if p.enable then 6 * p.speed.toNat else 0

/-- With btn1 released. -/
def released (x : Sample) : Pins := ⟨x, true, false⟩

theorem released_spi (xs : List Sample) : (xs.map released).map Pins.spi = xs := by
  rw [List.map_map]
  exact List.map_id _

theorem released_btn1 (x : Sample) : (released x).btn1 = true ∧ (released x).btn1Fell = false :=
  ⟨rfl, rfl⟩

def plainMessages (css : List (List Command)) : List Message :=
  ([false] :: css.map Command.early).map Message.plain

theorem plainMessages_bits (css : List (List Command)) :
    (plainMessages css).map Message.bits = [false] :: css.map Command.early := by
  rw [plainMessages, List.map_map]
  exact (List.map_congr_left fun bits _ => Message.bits_plain bits).trans (List.map_id _)

def idle : Sample := ⟨false, false, true⟩

theorem idle_high : (released idle).spi.cs = true := rfl

/-- The session at the slave's own pace. -/
def plain (css : List (List Command)) : EarlySession css where
  messages := plainMessages css
  messages_bits := plainMessages_bits css
  pins := ((plainMessages css).flatMap Message.pins).map released
  pins_spi := released_spi _
  rest := fun _ => released idle
  rest_high := fun _ => idle_high
  rest_btn1 := fun _ => released_btn1 idle

end EarlySession

end EmSysLab.Assignment11
