import EmSysLab.Assignment10.Reply
import EmSysLab.Assignment10.Receiver
import Mathlib.Data.Int.Notation
import Mathlib.Data.Nat.Count

/-!
# The host program of assignment_10

`main.c`: its messages are a byte that is alternately 0 and 255 with zeros behind it, and
every line it prints shows what went out and what came in. It takes no notice of a message
that fails, whose line shows the bytes of the one before once more.
-/
namespace EmSysLab.Assignment10

open Serial Clocked

/-! ## The program -/

/-- A message that carries the given bits. -/
structure Carrier (bits : List Bool) extends BusMessage where
  carries : risingBits false body = bits

inductive Call where
  | openDevice (spiChan : ℕ)
  | wrMode (spiMode : ℕ)
  | wrBitsPerWord (spiBits : ℕ)
  | wrMaxSpeedHz (spiBaud : ℤ)
  | message (txBuf : List (BitVec 8))
  | close
  deriving DecidableEq, Repr

/-- The bytes that a call sends. -/
def Call.tx : Call → Option (List (BitVec 8))
  | .message txBuf => some txBuf
  | _ => none

/-- What the calls come back with, and the waveform of each message that does not fail. -/
structure Device where
  fd : ℤ
  wrMode : Bool
  wrBitsPerWord : Bool
  wrMaxSpeedHz : Bool
  message : ℕ → (txBuf : List (BitVec 8)) → Option (Carrier (txBuf.flatMap msbBits))

def spiOpen (d : Device) (spiChan : ℕ) (spiBaud : ℤ) (spiFlags : ℕ) : ℤ × List Call :=
  let spiMode := spiFlags &&& 3
  let spiBits := 8
  if d.fd < 0 then (-1, [.openDevice spiChan])
  else if !d.wrMode then (-2, [.openDevice spiChan, .wrMode spiMode, .close])
  else if !d.wrBitsPerWord then
    (-3, [.openDevice spiChan, .wrMode spiMode, .wrBitsPerWord spiBits, .close])
  else if !d.wrMaxSpeedHz then
    (-4, [.openDevice spiChan, .wrMode spiMode, .wrBitsPerWord spiBits, .wrMaxSpeedHz spiBaud, .close])
  else (d.fd, [.openDevice spiChan, .wrMode spiMode, .wrBitsPerWord spiBits, .wrMaxSpeedHz spiBaud])

/-- A setting out of its range takes the default, which need not be in the range. -/
def setting (low high default value : ℤ) : ℤ :=
  if value < low ∨ value > high then default else value

structure Settings where
  bytes : ℤ
  speed : ℤ
  loops : ℤ
  deriving DecidableEq, Repr

def maxSpiBufsiz : ℕ := 8192

/-- The settings, from the arguments as `atoi` reads them. -/
def settings (args : List ℤ) : Settings where
  bytes := setting 1 maxSpiBufsiz 3 (args.getD 0 3)
  speed := setting 32000 250000000 1000 (args.getD 1 1000)
  loops := setting 1 10000000 10000 (args.getD 2 10000)

structure Line where
  tx : List (BitVec 8)
  rx : List (BitVec 8)
  deriving DecidableEq, Repr

/-- The program between two messages, and the slave. -/
structure Host where
  rxBuf : List (BitVec 8)
  lines : List Line
  calls : List Call
  slave : TopEntity

/-- `TXBuf` in round `i`. -/
def txBuf (bytes i : ℕ) : List (BitVec 8) :=
  (List.replicate bytes 0).set 0 (if i % 2 ≠ 0 then 255 else 0)

def spiXfer (d : Device) (bytes i : ℕ) (h : Host) : Host :=
  let h := { h with calls := h.calls ++ [.message (txBuf bytes i)] }
  match d.message i (txBuf bytes i) with
  | none => h
  | some m =>
    { h with
      rxBuf := bytesOf bytes (m.reads h.slave) ++ h.rxBuf.drop bytes
      slave := run TopEntity.posedgeClk h.slave m.pins }

/-- The body of the loop. -/
def round (d : Device) (bytes i : ℕ) (h : Host) : Host :=
  let h := spiXfer d bytes i h
  { h with lines := h.lines ++ [⟨txBuf bytes i, h.rxBuf.take bytes⟩] }

def loop (d : Device) (bytes : ℕ) : ℕ → Host → Host
  | 0, h => h
  | i + 1, h => round d bytes i (loop d bytes i h)

def main (args : List ℤ) (d : Device) (slave : TopEntity) : ℕ × Host :=
  let s := settings args
  let (fd, calls) := spiOpen d 1 s.speed 0
  let h : Host := ⟨List.replicate maxSpiBufsiz 0, [], calls, slave⟩
  if fd < 0 then (1, h)
  else
    let h := loop d s.bytes.toNat s.loops.toNat h
    (0, { h with calls := h.calls ++ [.close] })

/-! ## What led2 is going to show -/

namespace Core

/-- The level of led2 after the next sample. -/
def ledNext (c : Core) : Bool := if c.byteReceived then c.byteDataReceived.getLsbD 0 else c.led2

/-- The last bit of the last whole byte. -/
def lastBit (led : Bool) (bits : List Bool) : Bool :=
  (bits.take (8 * (bits.length / 8))).getLastD led

theorem led2_act (c : Core) (x : Sample) : (c.act x).led2 = c.ledNext := rfl

theorem ledNext_high (c : Core) {x : Sample} (hcs : x.cs = true) :
    (c.act x).ledNext = c.ledNext := by
  have hreceived : (c.act x).byteReceived = false := by
    simp [Core.act, hcs]
  rw [ledNext, hreceived, if_neg Bool.false_ne_true, led2_act]

theorem ledNext_deselected (c : Core) {xs : List Sample} (hxs : Deselected xs) :
    (run Core.act c xs).ledNext = c.ledNext := by
  have hkeep : ∀ (d : Core) (x : Sample), x.cs = true → (d.act x).ledNext = d.ledNext :=
    fun d _ hx => d.ledNext_high hx
  exact run_frame ledNext hkeep c hxs

/-- The core after the samples `u` of a message that finds `led` to be shown. -/
structure Receiving (led : Bool) (u : List Sample) (c : Core) : Prop where
  clkPrev : c.clkPrev = lastLevel false u
  bitcnt : c.bitcnt = BitVec.ofNat 3 (risingBits false u).length
  ledNext : c.ledNext = lastBit led (risingBits false u)

theorem receiving_nil {n : BitVec 8} {c : Core} (h : Waiting n c) : Receiving c.ledNext [] c :=
  ⟨h.clkPrev, h.bitcnt, rfl⟩

/-- A whole byte is complete with its eighth bit, and its last bit is the one to be shown. -/
theorem lastBit_concat (led : Bool) (bits : List Bool) (b : Bool) :
    lastBit led (bits ++ [b]) = if bits.length % 8 = 7 then b else lastBit led bits := by
  unfold lastBit
  rw [List.length_append, List.length_singleton]
  by_cases hlast : bits.length % 8 = 7
  · rw [if_pos hlast, List.take_of_length_le, List.getLastD_concat]
    rw [List.length_append, List.length_singleton]
    omega
  · have hdiv : (bits.length + 1) / 8 = bits.length / 8 := by omega
    rw [if_neg hlast, hdiv, List.take_append_of_le_length (by omega)]

/-- **One sample of a message.** -/
theorem Receiving.act {led : Bool} {u : List Sample} {c : Core} (h : Receiving led u c)
    {x : Sample} (hcs : x.cs = false) : Receiving led (u ++ [x]) (c.act x) := by
  have hbits : risingBits false (u ++ [x]) =
      if rising (lastLevel false u) x then risingBits false u ++ [x.pico]
      else risingBits false u := by
    rw [risingBits_append, risingBits_cons, risingBits]
    split
    · rfl
    · exact List.append_nil _
  have hreceived : (c.act x).byteReceived =
      (rising (lastLevel false u) x && c.bitcnt == 0b111#3) := by
    simp only [Core.act, hcs, h.clkPrev, Bool.not_false, Bool.true_and]
    rfl
  refine ⟨by rw [lastLevel_append]; rfl, ?_, ?_⟩
  · rw [hbits]
    simp only [Core.act, hcs, h.clkPrev, h.bitcnt, Bool.false_eq_true, if_false]
    cases rising (lastLevel false u) x <;> simp [BitVec.ofNat_add]
  · rw [Core.ledNext, hreceived, led2_act, h.ledNext, hbits]
    cases hrise : rising (lastLevel false u) x with
    | false => rfl
    | true =>
      have hcount : (c.bitcnt == 0b111#3) = decide ((risingBits false u).length % 8 = 7) := by
        rw [h.bitcnt, Bool.eq_iff_iff, beq_iff_eq, decide_eq_true_iff, BitVec.toNat_eq,
          BitVec.toNat_ofNat]
        rfl
      have hdata : (c.act x).byteDataReceived.getLsbD 0 = x.pico := by
        simp [Core.act, hcs, h.clkPrev, hrise]
      rw [if_pos rfl, lastBit_concat, hdata, Bool.true_and, hcount]
      by_cases hlast : (risingBits false u).length % 8 = 7
      · rw [if_pos hlast, decide_eq_true hlast, if_pos rfl]
      · rw [if_neg hlast, decide_eq_false hlast, if_neg Bool.false_ne_true]

theorem Receiving.run {led : Bool} {u v : List Sample} {c : Core} (h : Receiving led u c)
    (hv : Selected v) : Receiving led (u ++ v) (run Core.act c v) := by
  induction v generalizing u c with
  | nil => rwa [List.append_nil]
  | cons x v ih =>
    obtain ⟨hx, hv⟩ := selected_cons.mp hv
    have hrun := ih (h.act hx) hv
    rw [List.append_assoc] at hrun
    exact hrun

/-- What a whole message leaves to be shown. -/
theorem ledNext_pins {bits : List Bool} (m : Carrier bits) (c : Core) :
    (Clocked.run Core.act c m.pins).ledNext = lastBit c.ledNext bits := by
  have hwait := run_gap c m.gap_ne m.gap_high m.gap_low
  have hbody := ((receiving_nil hwait).run m.body_low).ledNext
  rw [BusMessage.pins, run_append, hbody, List.nil_append, m.carries,
    ledNext_deselected c m.gap_high]

end Core

/-! ## The bytes of a message -/

theorem length_txBuf (bytes i : ℕ) : (txBuf bytes i).length = bytes := by
  simp [txBuf]

theorem length_bits (bs : List (BitVec 8)) : (bs.flatMap msbBits).length = 8 * bs.length := by
  induction bs with
  | nil => rfl
  | cons b bs ih =>
    rw [List.flatMap_cons, List.length_append, ih, length_msbBits, List.length_cons]
    omega

/-- Only a message of one byte can light the LED. -/
theorem lastBit_txBuf (led : Bool) {bytes : ℕ} (hbytes : 0 < bytes) (i : ℕ) :
    Core.lastBit led ((txBuf bytes i).flatMap msbBits) = decide (bytes = 1 ∧ i % 2 = 1) := by
  obtain ⟨n, rfl⟩ := Nat.exists_eq_add_of_le' hbytes
  have hall : Core.lastBit led ((txBuf (n + 1) i).flatMap msbBits) =
      ((txBuf (n + 1) i).flatMap msbBits).getLastD led := by
    rw [Core.lastBit, length_bits, Nat.mul_div_cancel_left _ (by decide),
      List.take_of_length_le (Nat.le_of_eq (length_bits _))]
  rw [hall]
  cases n with
  | zero =>
    refine (getLastD_flatMap_msbBits [] _ led).trans ?_
    rcases Nat.mod_two_eq_zero_or_one i with hi | hi
    · rw [hi]
      decide
    · rw [hi]
      decide
  | succ n =>
    have hsplit : txBuf (n + 1 + 1) i =
        ((List.replicate (n + 1) (0 : BitVec 8)).set 0 (if i % 2 ≠ 0 then 255 else 0)) ++ [0] := by
      rw [txBuf, List.replicate_succ' (n := n + 1), List.set_append_left]
      simp
    rw [hsplit, getLastD_flatMap_msbBits]
    rw [decide_eq_false (by omega)]
    decide

/-! ## The loop -/

section Loop

variable (d : Device) (bytes : ℕ)

def succeeds (i : ℕ) : Bool := (d.message i (txBuf bytes i)).isSome

/-- The messages of the first `k` rounds that do not fail. -/
def sent (k : ℕ) : ℕ := Nat.count (fun i => succeeds d bytes i = true) k

/-- What `RXBuf` holds after `m` messages to a slave whose counter stood at `cnt`. -/
def answer (cnt : BitVec 8) : ℕ → List (BitVec 8)
  | 0 => List.replicate bytes 0
  | m + 1 => (List.replicate bytes 0).set 0 (cnt + BitVec.ofNat 8 m)

/-- What led2 shows after `k` rounds. -/
def ledRound (led : Bool) : ℕ → Bool
  | 0 => led
  | i + 1 => if succeeds d bytes i then decide (bytes = 1 ∧ i % 2 = 1) else ledRound led i

/-- The line of round `i`. -/
def line (cnt : BitVec 8) (i : ℕ) : Line :=
  ⟨txBuf bytes i, answer bytes cnt (sent d bytes (i + 1))⟩

theorem sent_succ (i : ℕ) :
    sent d bytes (i + 1) = sent d bytes i + if succeeds d bytes i then 1 else 0 :=
  Nat.count_succ _ _

/-- The program and the slave `s` after `k` rounds. -/
structure Rounds (s : TopEntity) (calls : List Call) (k : ℕ) (h : Host) : Prop where
  rxBuf : h.rxBuf.take bytes = answer bytes s.cnt (sent d bytes k)
  lines : h.lines = (List.range k).map (line d bytes s.cnt)
  calls : h.calls = calls ++ (List.range k).map fun i => .message (txBuf bytes i)
  /-- The slave has seen the messages that did not fail, and nothing else. -/
  slave : ∃ ms : List BusMessage, ms.length = sent d bytes k ∧
    h.slave = run TopEntity.posedgeClk s (ms.flatMap BusMessage.pins) ∧
    (run Core.act (run Core.act s.core (sync.flight s)) (ms.flatMap BusMessage.pins)).ledNext =
      ledRound d bytes s.led2 k

variable {d bytes} {s : TopEntity} {calls : List Call} {h : Host}

/-- The two idle samples in flight do not touch the LED. -/
theorem ledNext_flight (hs : s.Idle) :
    (run Core.act s.core (sync.flight s)).ledNext = s.led2 := by
  have hcs : ∀ i < 3, s.spiCsr.getLsbD i = true := by
    rw [hs.spiCsr]
    decide
  have hflight : Deselected (sync.flight s) := by
    intro x hx
    rcases List.mem_pair.mp hx with rfl | rfl
    · exact hcs 1 (by decide)
    · exact hcs 0 (by decide)
  rw [Core.ledNext_deselected _ hflight, Core.ledNext]
  exact if_neg (by rw [show s.core.byteReceived = false from hs.byteReceived]; decide)

theorem rounds_zero (hs : s.Idle) (hbytes : bytes ≤ maxSpiBufsiz) :
    Rounds d bytes s calls 0 ⟨List.replicate maxSpiBufsiz 0, [], calls, s⟩ where
  rxBuf := by
    rw [List.take_replicate, Nat.min_eq_left hbytes]
    rfl
  lines := rfl
  calls := (List.append_nil calls).symm
  slave := ⟨[], rfl, rfl, ledNext_flight hs⟩

/-- **One round.** -/
theorem Rounds.next {k : ℕ} (hs : s.Idle) (hbytes : 0 < bytes) (hr : Rounds d bytes s calls k h) :
    Rounds d bytes s calls (k + 1) (round d bytes k h) := by
  have hcalls : (calls ++ (List.range k).map fun i => Call.message (txBuf bytes i)) ++
      [Call.message (txBuf bytes k)] =
        calls ++ (List.range (k + 1)).map fun i => Call.message (txBuf bytes i) := by
    rw [List.range_succ, List.map_append, List.map_singleton, List.append_assoc]
  have hlines : ∀ rx, rx = answer bytes s.cnt (sent d bytes (k + 1)) →
      h.lines ++ [⟨txBuf bytes k, rx⟩] = (List.range (k + 1)).map (line d bytes s.cnt) := by
    rintro rx rfl
    rw [List.range_succ, List.map_append, List.map_singleton, hr.lines]
    rfl
  have hsent := sent_succ d bytes k
  obtain ⟨ms, hlen, hslave, hled⟩ := hr.slave
  unfold round spiXfer
  dsimp only
  cases hm : d.message k (txBuf bytes k) with
  | none =>
    have hfail : succeeds d bytes k = false := by
      rw [succeeds, hm]
      rfl
    rw [hfail, if_neg Bool.false_ne_true, Nat.add_zero] at hsent
    have hrx : h.rxBuf.take bytes = answer bytes s.cnt (sent d bytes (k + 1)) := by
      rw [hsent]
      exact hr.rxBuf
    refine ⟨hrx, hlines _ hrx, ?_, ms, hlen.trans hsent.symm, hslave, ?_⟩
    · rw [← hcalls, ← hr.calls]
    · rw [ledRound, hfail]
      exact hled
  | some m =>
    have hdone : succeeds d bytes k = true := by
      rw [succeeds, hm]
      rfl
    rw [hdone, if_pos rfl] at hsent
    have hcount : count rising false m.body = 8 * bytes := by
      rw [← length_risingBits, m.carries, length_bits, length_txBuf]
    have hreads : bytesOf bytes (m.reads h.slave) = answer bytes s.cnt (sent d bytes (k + 1)) := by
      have hsettled : s.Settled := TopEntity.CsIdle.settled hs.spiCsr
      rw [hslave, m.toBusMessage.reads_eq hsettled, hcount, bytesOf_getMsbD, hlen, hsent]
      rfl
    have hrx : (bytesOf bytes (m.reads h.slave) ++ h.rxBuf.drop bytes).take bytes =
        answer bytes s.cnt (sent d bytes (k + 1)) := by
      rw [List.take_left' (length_bytesOf _ _), hreads]
    refine ⟨hrx, hlines _ hrx, ?_, ms ++ [m.toBusMessage], ?_, ?_, ?_⟩
    · rw [← hcalls, ← hr.calls]
    · rw [List.length_append, hlen, hsent]
      rfl
    · rw [List.flatMap_append, List.flatMap_singleton, run_append, ← hslave]
    · rw [List.flatMap_append, List.flatMap_singleton, run_append, Core.ledNext_pins, hled,
        lastBit_txBuf _ hbytes, ledRound, hdone, if_pos rfl]

theorem rounds_loop (hs : s.Idle) (hpos : 0 < bytes) (hbytes : bytes ≤ maxSpiBufsiz) (k : ℕ) :
    Rounds d bytes s calls k
      (loop d bytes k ⟨List.replicate maxSpiBufsiz 0, [], calls, s⟩) := by
  induction k with
  | zero => exact rounds_zero hs hbytes
  | succ k ih => exact ih.next hs hpos

end Loop

/-! ## The whole program -/

/-- A setting lies in its range or is the default. -/
theorem setting_cases (low high default value : ℤ) :
    setting low high default value = default ∨
      low ≤ setting low high default value ∧ setting low high default value ≤ high := by
  unfold setting
  split
  · exact .inl rfl
  · exact .inr (by omega)

/-- Buffers of the settings' size fit, and there is at least one round. -/
structure Settings.Fits (s : Settings) : Prop where
  bytes_pos : 0 < s.bytes.toNat
  bytes_le : s.bytes.toNat ≤ maxSpiBufsiz
  loops_pos : 0 < s.loops.toNat

theorem fits_settings (args : List ℤ) : (settings args).Fits := by
  have hbytes := setting_cases 1 maxSpiBufsiz 3 (args.getD 0 3)
  have hloops := setting_cases 1 10000000 10000 (args.getD 2 10000)
  unfold maxSpiBufsiz at hbytes
  constructor
  · change 0 < (setting 1 maxSpiBufsiz 3 (args.getD 0 3)).toNat
    unfold maxSpiBufsiz
    omega
  · change (setting 1 maxSpiBufsiz 3 (args.getD 0 3)).toNat ≤ maxSpiBufsiz
    unfold maxSpiBufsiz
    omega
  · change 0 < (setting 1 10000000 10000 (args.getD 2 10000)).toNat
    omega

/-- The rounds leave the slave so, once CS has been high for three samples. -/
theorem Rounds.led2 {d : Device} {bytes : ℕ} {s : TopEntity} {calls : List Call} {k : ℕ} {h : Host}
    (hs : s.Idle) (hr : Rounds d bytes s calls k h) {idle : List Sample} (hidle : Deselected idle)
    (hlen : 3 ≤ idle.length) :
    (run TopEntity.posedgeClk h.slave idle).led2 = ledRound d bytes s.led2 k ∧
      (run TopEntity.posedgeClk h.slave idle).cnt = s.cnt + BitVec.ofNat 8 (sent d bytes k) := by
  obtain ⟨ms, hms, hslave, hled⟩ := hr.slave
  have hflight : (sync.flight s).length = 2 := rfl
  have hsettled : s.Settled := TopEntity.CsIdle.settled hs.spiCsr
  -- the core has seen all but two of the idle samples
  have hseen : (ms.flatMap BusMessage.pins ++ idle).take
      ((ms.flatMap BusMessage.pins).length + (idle.length - 2)) =
        ms.flatMap BusMessage.pins ++ idle.take (idle.length - 2) := List.take_length_add_append _
  have hcore : (run TopEntity.posedgeClk h.slave idle).core =
      run Core.act (run Core.act (sync.drained s) (ms.flatMap BusMessage.pins))
        (idle.take (idle.length - 2)) := by
    rw [hslave, ← run_append, ← run_append, ← hseen]
    apply sync.view_run_flight s
    rw [hflight, List.length_append]
    omega
  have hne : idle.take (idle.length - 2) ≠ [] := by
    apply List.ne_nil_of_length_pos
    rw [List.length_take]
    omega
  have hhigh : Deselected (idle.take (idle.length - 2)) :=
    fun x hx => hidle x (List.mem_of_mem_take hx)
  constructor
  · obtain ⟨ys, x, hys⟩ := (List.eq_nil_or_concat' (idle.take (idle.length - 2))).resolve_left hne
    rw [hys] at hhigh hcore
    obtain ⟨hyshigh, -⟩ := deselected_append.mp hhigh
    rw [show (run TopEntity.posedgeClk h.slave idle).led2 =
      (run TopEntity.posedgeClk h.slave idle).core.led2 from rfl, hcore, run_append, run_cons, run_nil,
      Core.led2_act, Core.ledNext_deselected _ hyshigh]
    exact hled
  · rw [show (run TopEntity.posedgeClk h.slave idle).cnt =
      (run TopEntity.posedgeClk h.slave idle).core.cnt from rfl, hcore, run_cnt_high _ hhigh,
      BusMessage.run_cnt_all, hms]
    exact congrArg (· + BitVec.ofNat 8 (sent d bytes k)) (run_cnt_flight hsettled)

/-- The device can be opened and set up. -/
def Device.ready (d : Device) : Bool :=
  decide (0 ≤ d.fd) && d.wrMode && d.wrBitsPerWord && d.wrMaxSpeedHz

/-- What opening the device gives, and whether it has been closed again. -/
theorem spiOpen_cases (d : Device) (spiChan spiFlags : ℕ) (spiBaud : ℤ) :
    (0 ≤ (spiOpen d spiChan spiBaud spiFlags).1 ↔ d.ready = true) ∧
      (spiOpen d spiChan spiBaud spiFlags).2.count .close =
        if 0 ≤ d.fd ∧ d.ready = false then 1 else 0 := by
  unfold spiOpen Device.ready
  by_cases hfd : d.fd < 0
  · simp [hfd, Int.not_le.mpr hfd]
  · have hfd' : 0 ≤ d.fd := by omega
    cases d.wrMode with
    | false => simp [hfd, hfd']
    | true =>
      cases d.wrBitsPerWord with
      | false => simp [hfd, hfd']
      | true => cases d.wrMaxSpeedHz <;> simp [hfd, hfd']

/-- Opening the device sends nothing. -/
theorem tx_spiOpen (d : Device) (spiChan spiFlags : ℕ) (spiBaud : ℤ) :
    (spiOpen d spiChan spiBaud spiFlags).2.filterMap Call.tx = [] := by
  unfold spiOpen
  dsimp only
  split_ifs <;> rfl

/-- The rounds that are made. -/
def rounds (args : List ℤ) (d : Device) : ℕ := if d.ready then (settings args).loops.toNat else 0

/-- What a run of the program prints and leaves behind. -/
structure MainRuns (args : List ℤ) (d : Device) (s : TopEntity) : Prop where
  fits : (settings args).Fits
  status : (main args d s).1 = if d.ready then 0 else 1
  /-- Each line shows the byte sent and the number of the last message that did not fail. -/
  lines : (main args d s).2.lines =
    (List.range (rounds args d)).map (line d (settings args).bytes.toNat s.cnt)
  /-- Every round sends its message, so nothing is sent if the device is not ready. -/
  messages : (main args d s).2.calls.filterMap Call.tx =
    (List.range (rounds args d)).map (txBuf (settings args).bytes.toNat)
  /-- What has been opened is closed, once. -/
  closed : (main args d s).2.calls.count .close = if 0 ≤ d.fd then 1 else 0
  /-- The LED shows the last message, if that has only one byte, and is off otherwise. -/
  slave : ∀ idle, Deselected idle → 3 ≤ idle.length →
    (run TopEntity.posedgeClk (main args d s).2.slave idle).led2 =
        ledRound d (settings args).bytes.toNat s.led2 (rounds args d) ∧
      (run TopEntity.posedgeClk (main args d s).2.slave idle).cnt =
        s.cnt + BitVec.ofNat 8 (sent d (settings args).bytes.toNat (rounds args d))

/-- The bits at four samples a level. -/
def Carrier.plain (bits : List Bool) : Carrier bits where
  toBusMessage := .plain bits
  carries := by
    rw [BusMessage.plain, risingBits_append, risingBits_mode0]
    generalize lastLevel _ _ = prev
    cases prev <;> simp [risingBits, rising, List.replicate]

/-- A device whose second message fails. -/
def faulty : Device where
  fd := 3
  wrMode := true
  wrBitsPerWord := true
  wrMaxSpeedHz := true
  message := fun i tx => if i = 1 then none else some (.plain (tx.flatMap msbBits))

end EmSysLab.Assignment10
