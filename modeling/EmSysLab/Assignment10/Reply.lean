import EmSysLab.Assignment10.TopEntity

/-!
# What the slave sends

Every message is answered with the message counter, most significant bit first and
then zeros, whatever the master sends. So the slave returns the byte of one message
in the next only where that byte happens to be the next counter value.
-/
namespace EmSysLab.Assignment10

open Serial Clocked

/-- A message on lines that other slaves may be clocked on as well: CS high for at least one
sample and SCLK low when it falls, then CS low with at least four samples between any two changes
of SCLK and before the first one. -/
structure BusMessage where
  gap : List Sample
  body : List Sample
  gap_ne : gap ≠ []
  gap_high : Deselected gap
  gap_low : lastLevel true gap = false
  body_ne : body ≠ []
  body_low : Selected body
  timed : Gap toggling 4 0 false body

namespace BusMessage

def pins (m : BusMessage) : List Sample := m.gap ++ m.body

/-- What the master reads in a message that starts in state `s`. -/
def reads (m : BusMessage) (s : TopEntity) : List Bool :=
  masterReads TopEntity.posedgeClk TopEntity.spiPoci (run TopEntity.posedgeClk s m.gap) false m.body

end BusMessage

/-- No fall of CS is on its way through the synchroniser, so `cnt` has counted all of them. -/
def TopEntity.Settled (s : TopEntity) : Prop :=
  ((s.stage 1).cs = false → (s.stage 2).cs = false) ∧
    ((s.stage 0).cs = false → (s.stage 1).cs = false)

theorem TopEntity.CsIdle.settled {s : TopEntity} (h : s.CsIdle) : s.Settled := by
  have hs : s.spiCsr = 0b111#3 := h
  simp [TopEntity.Settled, TopEntity.stage, hs]

/-! ## The core through one message -/

/-- CS is high and the next message will be answered with `n`. -/
structure Waiting (n : BitVec 8) (c : Core) : Prop where
  clkPrev : c.clkPrev = false
  csPrev : c.csPrev = true
  bitcnt : c.bitcnt = 0
  cnt : c.cnt = n

theorem act_high (c : Core) {x : Sample} (hcs : x.cs = true) (hclk : x.sclk = false) :
    Waiting c.cnt (c.act x) := by
  constructor
  · exact hclk
  · exact hcs
  · simp [Core.act, hcs]
  · simp [Core.act, hcs]

/-- With CS high the message counter stands still. -/
theorem run_cnt_high (c : Core) {xs : List Sample} (hxs : Deselected xs) :
    (run Core.act c xs).cnt = c.cnt := by
  have hkeep : ∀ (d : Core) (x : Sample), x.cs = true → (d.act x).cnt = d.cnt := by
    intro d x hx
    simp [Core.act, hx]
  exact run_frame Core.cnt hkeep c hxs

theorem run_gap (c : Core) {gap : List Sample} (hne : gap ≠ []) (hgap : Deselected gap)
    (hlow : lastLevel true gap = false) : Waiting c.cnt (run Core.act c gap) := by
  obtain ⟨ys, x, rfl⟩ := (List.eq_nil_or_concat' gap).resolve_left hne
  obtain ⟨hys, hx⟩ := deselected_append.mp hgap
  have hclk : x.sclk = false := by
    rw [lastLevel_append] at hlow
    exact hlow
  have h := act_high (run Core.act c ys) (hx x (List.mem_singleton_self x)) hclk
  rwa [run_cnt_high c hys, ← run_nil Core.act (Core.act _ x), ← run_cons, ← run_append] at h

/-- The samples in flight of a settled slave start no message. -/
theorem run_cnt_flight {s : TopEntity} (hs : s.Settled) :
    (run Core.act s.core (sync.flight s)).cnt = s.cnt := by
  have hact : ∀ (c : Core) (x : Sample), (x.cs = false → c.csPrev = false) →
      (c.act x).cnt = c.cnt := by
    intro c x hx
    cases hcs : x.cs with
    | true => simp [Core.act, hcs]
    | false => simp [Core.act, hcs, hx hcs]
  exact (hact (s.core.act (s.stage 1)) (s.stage 0) hs.2).trans (hact s.core (s.stage 1) hs.1)

/-- The core after the samples `u` of a message answered with `n`. -/
structure Replying (n : BitVec 8) (u : List Sample) (c : Core) : Prop where
  clkPrev : c.clkPrev = lastLevel false u
  csPrev : c.csPrev = false
  bitcnt : c.bitcnt = BitVec.ofNat 3 (count rising false u)
  byteDataSent : c.byteDataSent = shiftIn n (List.replicate (count falling false u) false)
  cnt : c.cnt = n + 1

/-- The first sample of a message loads the counter. -/
theorem Waiting.start {n : BitVec 8} {c : Core} (h : Waiting n c) {x : Sample}
    (hcs : x.cs = false) (hclk : x.sclk = false) : Replying n [x] (c.act x) := by
  rcases h with ⟨hprev, hhigh, hbit, hcnt⟩
  constructor
  · rfl
  · exact hcs
  · simp [Core.act, hcs, hclk, hprev, hbit, rising]
  · simp [Core.act, hcs, hclk, hhigh, hcnt, falling]
  · simp [Core.act, hcs, hhigh, hcnt]

namespace Replying

variable {n : BitVec 8} {u : List Sample} {c : Core}

/-- A fall that finds no bit counted comes after at least eight of them, so clearing the
register then is one more shift. -/
theorem act_byteDataSent (h : Replying n u c) {x : Sample} (hcs : x.cs = false) :
    (c.act x).byteDataSent =
      shiftIn n (List.replicate (count falling false (u ++ [x])) false) := by
  have hact : (c.act x).byteDataSent =
      if falling c.clkPrev x then if c.bitcnt = 0 then 0 else c.byteDataSent.shiftConcat false
      else c.byteDataSent := by
    simp only [Core.act, hcs, h.csPrev, Bool.false_eq_true, if_false]
  have hcount : count falling false (u ++ [x]) =
      count falling false u + (falling (lastLevel false u) x).toNat := by
    rw [count_append, count_cons, count_nil, Nat.add_zero]
  rw [hact, hcount, h.clkPrev]
  cases hfall : falling (lastLevel false u) x with
  | false => exact h.byteDataSent
  | true =>
    rw [Bool.toNat_true, List.replicate_succ', shiftIn_concat, ← h.byteDataSent, if_pos rfl]
    split
    · rename_i hzero
      have hlevel : lastLevel false u = true := by
        unfold falling at hfall
        rw [Bool.and_eq_true] at hfall
        exact hfall.2
      have hrises := count_rising_eq false u
      rw [hlevel, Bool.toNat_true, Bool.toNat_false, Nat.add_zero] at hrises
      have hmod : count rising false u % 8 = 0 := by
        rw [h.bitcnt, BitVec.toNat_eq, BitVec.toNat_ofNat] at hzero
        exact hzero
      rw [h.byteDataSent, ← shiftIn_concat, ← List.replicate_succ']
      exact (shiftIn_zeros_of_le n (by omega)).symm
    · rfl

/-- **One sample of a message.** -/
theorem act (h : Replying n u c) {x : Sample} (hcs : x.cs = false) :
    Replying n (u ++ [x]) (c.act x) := by
  refine ⟨?_, hcs, ?_, h.act_byteDataSent hcs, ?_⟩
  · rw [lastLevel_append]
    rfl
  · rw [count_append, count_cons, count_nil, Nat.add_zero, BitVec.ofNat_add, ← h.bitcnt,
      ← h.clkPrev]
    simp only [Core.act, hcs, Bool.false_eq_true, if_false]
    cases rising c.clkPrev x <;> simp
  · simp [Core.act, hcs, h.csPrev, h.cnt]

theorem run (h : Replying n u c) {v : List Sample} (hv : Selected v) :
    Replying n (u ++ v) (run Core.act c v) := by
  induction v generalizing u c with
  | nil => rwa [List.append_nil]
  | cons x v ih =>
    obtain ⟨hx, hv⟩ := selected_cons.mp hv
    have hrun := ih (h.act hx) hv
    rw [List.append_assoc] at hrun
    exact hrun

end Replying

namespace BusMessage

variable (m : BusMessage)

/-- The core after a non-empty initial segment of the body. -/
theorem replying {n : BitVec 8} {c : Core} (h : Waiting n c) {u v : List Sample} (hu : u ≠ [])
    (hbody : m.body = u ++ v) : Replying n u (run Core.act c u) := by
  obtain ⟨x, u, rfl⟩ := List.exists_cons_of_ne_nil hu
  have hlow := m.body_low
  have htimed := m.timed
  rw [hbody, List.cons_append] at hlow htimed
  obtain ⟨hx, hlow⟩ := selected_cons.mp hlow
  have hclk : x.sclk = false := by
    unfold Gap toggling at htimed
    split at htimed
    · exact absurd htimed.1 (by decide)
    · rename_i ht
      revert ht
      cases x.sclk <;> decide
  obtain ⟨hu', -⟩ := selected_append.mp hlow
  exact (h.start hx hclk).run hu'

/-- One whole message advances the counter by one. -/
theorem run_cnt (c : Core) : (run Core.act c m.pins).cnt = c.cnt + 1 := by
  rw [pins, run_append]
  have hwait := run_gap c m.gap_ne m.gap_high m.gap_low
  exact (m.replying hwait m.body_ne (List.append_nil _).symm).cnt

theorem run_cnt_all (c : Core) (ms : List BusMessage) :
    (run Core.act c (ms.flatMap pins)).cnt = c.cnt + BitVec.ofNat 8 ms.length := by
  induction ms generalizing c with
  | nil => simp
  | cons m ms ih =>
    rw [List.flatMap_cons, run_append, ih, m.run_cnt, List.length_cons, BitVec.ofNat_add,
      BitVec.add_assoc, BitVec.add_comm (1 : BitVec 8)]
    rfl

/-! ## What the master reads -/

/-- After some messages, a gap and the samples `u` of a body the core has consumed all
but the last two samples. -/
theorem core_pins (s : TopEntity) (ms : List BusMessage) {u : List Sample} (hu : 2 ≤ u.length) :
    (run TopEntity.posedgeClk s (ms.flatMap pins ++ (m.gap ++ u))).core =
      run Core.act (run Core.act (run Core.act (run Core.act s.core (sync.flight s))
        (ms.flatMap pins)) m.gap) (u.take (u.length - 2)) := by
  have hflight : (sync.flight s).length = 2 := rfl
  have hview := sync.view_run s (ms.flatMap pins ++ (m.gap ++ u))
  have hseen : sync.seen s (ms.flatMap pins ++ (m.gap ++ u)) =
      (sync.flight s ++ (ms.flatMap pins ++ (m.gap ++ u.take (u.length - 2)))) ++
        u.drop (u.length - 2) := by
    conv_lhs => rw [← List.take_append_drop (u.length - 2) u]
    simp only [Delayed.seen, List.append_assoc]
  rw [hseen, List.take_left' (by
    simp only [List.length_append, hflight, List.length_take]
    omega)] at hview
  rw [← run_append, ← run_append, ← run_append]
  exact hview

/-- **The level at a rise** is the counter bit whose number is the number of rises before. -/
theorem spiPoci_rise {s : TopEntity} (hs : s.Settled) (ms : List BusMessage) {u v : List Sample}
    {x : Sample} (hbody : m.body = u ++ x :: v) (hx : rising (lastLevel false u) x = true) :
    (run TopEntity.posedgeClk s (ms.flatMap pins ++ (m.gap ++ u))).spiPoci =
      (s.cnt + BitVec.ofNat 8 ms.length).getMsbD (count rising false u) := by
  have htimed := m.timed
  rw [hbody] at htimed
  obtain ⟨hlen, hfalls⟩ := htimed.falls_at_rise hx
  -- the two samples still in flight hold no change of SCLK, so the core has seen every fall
  obtain ⟨w, hw⟩ : ∃ w, w = u.take (u.length - 2) := ⟨_, rfl⟩
  have hwne : w ≠ [] := by
    rw [hw]
    exact List.ne_nil_of_length_pos (by rw [List.length_take]; omega)
  have hbody' : m.body = w ++ (u.drop (u.length - 2) ++ x :: v) := by
    rw [hbody, hw, ← List.append_assoc, List.take_append_drop]
  have hwait := run_gap (run Core.act (run Core.act s.core (sync.flight s)) (ms.flatMap pins))
    m.gap_ne m.gap_high m.gap_low
  rw [run_cnt_all, run_cnt_flight hs] at hwait
  have hsent := (m.replying hwait hwne hbody').byteDataSent
  rw [hw, hfalls _ (by omega), ← m.core_pins s ms (by omega)] at hsent
  rw [← msb_shiftIn_zeros, ← hsent, BitVec.msb_eq_getLsbD_last]
  rfl

/-- After any messages, a message is answered with the counter. -/
theorem reads_eq {s : TopEntity} (hs : s.Settled) (ms : List BusMessage) :
    m.reads (run TopEntity.posedgeClk s (ms.flatMap pins)) =
      (List.range (count rising false m.body)).map
        (s.cnt + BitVec.ofNat 8 ms.length).getMsbD := by
  unfold reads
  rw [masterReads_eq TopEntity.posedgeClk _ 0 (f := (s.cnt + BitVec.ofNat 8 ms.length).getMsbD),
    List.range_eq_range']
  intro u x v huv hx
  rw [← run_append, ← run_append, Nat.zero_add]
  exact m.spiPoci_rise hs ms huv hx

end BusMessage

/-- **The reply stream.** The messages after a settled state are answered with the counter
values that follow, most significant bit first and then zeros, however many clocks each has. -/
theorem replies_count (s : TopEntity) (hs : s.Settled) (ms : List BusMessage) (k : ℕ)
    (hk : k < ms.length) :
    ms[k].reads (run TopEntity.posedgeClk s ((ms.take k).flatMap BusMessage.pins)) =
      (List.range (count rising false ms[k].body)).map fun i =>
        if i < 8 then (BitVec.ofNat 8 (s.cnt.toNat + k)).getLsbD (7 - i) else false := by
  rw [BusMessage.reads_eq _ hs, List.length_take_of_le (Nat.le_of_lt hk), BitVec.ofNat_add,
    BitVec.ofNat_toNat, BitVec.setWidth_eq]
  exact List.map_congr_left fun i _ => getMsbD_eq_ite _ i

/-- A master that takes four samples a level keeps the timing of a message. -/
theorem gap_plain (bits : List Bool) :
    Gap toggling 4 0 false (mode0 4 4 bits ++ List.replicate 4 ⟨false, false, false⟩) := by
  refine gap_mode0 bits (fun h => absurd h (by decide)) fun d prev hd => ?_
  rw [← List.append_nil (List.replicate _ _)]
  exact gap_stretch (Nat.le_refl _) (fun h => hd (eq_true_of_ne_false h.symm)) fun _ _ => trivial

/-- The bits at four samples a level, after a pulse on SCLK that was meant for another slave. -/
def BusMessage.plain (bits : List Bool) : BusMessage where
  gap := [⟨true, false, true⟩, ⟨false, false, true⟩]
  body := mode0 4 4 bits ++ List.replicate 4 ⟨false, false, false⟩
  gap_ne := by decide
  gap_high := by decide
  gap_low := rfl
  body_ne := by simp
  body_low := selected_append.mpr ⟨selected_mode0 4 4 bits, by decide⟩
  timed := gap_plain bits

/-- Ten clocks, none, and three: the third answer is cut off. -/
theorem replies_count_third :
    (BusMessage.plain [true, true, true]).reads (run TopEntity.posedgeClk (.rest 0x9E)
      ([BusMessage.plain (List.replicate 10 false), .plain []].flatMap BusMessage.pins)) =
      [true, false, true] :=
  (replies_count (.rest 0x9E) (TopEntity.CsIdle.settled rfl)
    [.plain (List.replicate 10 false), .plain [], .plain [true, true, true]] 2 (by decide)).trans
    (by decide)

/-! ## The bouncer contract -/

/-- A well-timed message: CS high and SCLK low for at least one sample, then CS low with
at least four samples between any two changes of SCLK and before the first one. -/
structure Message where
  gap : List Sample
  body : List Sample
  gap_ne : gap ≠ []
  gap_high : ∀ x ∈ gap, x.cs = true ∧ x.sclk = false
  body_ne : body ≠ []
  body_low : Selected body
  timed : Gap toggling 4 0 false body

namespace Message

def pins (m : Message) : List Sample := m.gap ++ m.body

/-- What the master reads in a message that starts in state `s`. -/
def reads (m : Message) (s : TopEntity) : List Bool :=
  masterReads TopEntity.posedgeClk TopEntity.spiPoci (run TopEntity.posedgeClk s m.gap) false m.body

theorem deselected_gap (m : Message) : Deselected m.gap := fun x hx => (m.gap_high x hx).1

theorem lastLevel_gap (m : Message) : lastLevel true m.gap = false := by
  obtain ⟨ys, x, hgap⟩ := (List.eq_nil_or_concat' m.gap).resolve_left m.gap_ne
  rw [hgap, lastLevel_append]
  exact (m.gap_high x (by rw [hgap]; exact List.mem_append_right ys (List.mem_singleton_self x))).2

/-- With SCLK low all the time CS is high. -/
def toBusMessage (m : Message) : BusMessage where
  gap := m.gap
  body := m.body
  gap_ne := m.gap_ne
  gap_high := m.deselected_gap
  gap_low := m.lastLevel_gap
  body_ne := m.body_ne
  body_low := m.body_low
  timed := m.timed

theorem reads_eq {s : TopEntity} (hs : s.CsIdle) (ms : List Message) (m : Message) :
    m.reads (run TopEntity.posedgeClk s (ms.flatMap pins)) =
      (List.range (count rising false m.body)).map
        (s.cnt + BitVec.ofNat 8 ms.length).getMsbD := by
  have h := m.toBusMessage.reads_eq hs.settled (ms.map toBusMessage)
  rw [List.flatMap_map, List.length_map] at h
  exact h

end Message

/-- A message of one byte. -/
structure ByteMessage extends Message where
  byte : BitVec 8
  carries : risingBits false body = msbBits byte

namespace ByteMessage

/-- The byte the master assembles in the message `m` after the messages `ms`. -/
def readByte (s : TopEntity) (ms : List ByteMessage) (m : ByteMessage) : BitVec 8 :=
  assemble 8 (m.reads (run TopEntity.posedgeClk s (ms.flatMap fun m => m.pins)))

theorem readByte_eq {s : TopEntity} (hs : s.CsIdle) (ms : List ByteMessage) (m : ByteMessage) :
    readByte s ms m = s.cnt + BitVec.ofNat 8 ms.length := by
  have hbits : count rising false m.body = 8 := by
    rw [← length_risingBits, m.carries, length_msbBits]
  have hpins : ms.flatMap (fun m => m.pins) =
      (ms.map ByteMessage.toMessage).flatMap Message.pins := by
    rw [List.flatMap_map]
  rw [readByte, hpins, m.reads_eq hs, hbits, List.length_map]
  exact assemble_msbBits _

end ByteMessage

/-- **The bouncer.** The byte of each message comes back in the next one exactly when it
is the value the message counter has reached by then. -/
theorem bouncer_iff (s : TopEntity) (hs : s.CsIdle) (ms : List ByteMessage) :
    (∀ N, (h : N + 1 < ms.length) →
        ByteMessage.readByte s (ms.take (N + 1)) ms[N + 1] = ms[N].byte) ↔
      ∀ N, (h : N + 1 < ms.length) → ms[N].byte = s.cnt + BitVec.ofNat 8 (N + 1) := by
  have hread : ∀ N, (h : N + 1 < ms.length) →
      ByteMessage.readByte s (ms.take (N + 1)) ms[N + 1] = s.cnt + BitVec.ofNat 8 (N + 1) := by
    intro N h
    rw [ByteMessage.readByte_eq hs, List.length_take_of_le (by omega)]
  constructor
  · intro hbounce N h
    rw [← hbounce N h, hread N h]
  · intro hbyte N h
    rw [hbyte N h, hread N h]

/-- One byte at four samples a level. -/
def ByteMessage.plain (b : BitVec 8) : ByteMessage where
  gap := List.replicate 4 ⟨false, false, true⟩
  body := mode0 4 4 (msbBits b) ++ List.replicate 4 ⟨false, false, false⟩
  gap_ne := by decide
  gap_high := by decide
  body_ne := by simp
  body_low := selected_append.mpr ⟨selected_mode0 4 4 _, by decide⟩
  timed := by exact gap_plain (msbBits b)
  byte := b
  carries := by
    rw [risingBits_append, risingBits_mode0]
    generalize lastLevel _ _ = prev
    cases prev <;> simp [risingBits, rising, List.replicate]

theorem bouncer_counting :
    ByteMessage.readByte (.rest 0) [.plain 1] (.plain 2) = 1 := by
  refine (bouncer_iff (.rest 0) rfl [.plain 1, .plain 2]).mpr ?_ 0 (by decide)
  intro N h
  obtain rfl : N = 0 := Nat.lt_one_iff.mp (Nat.lt_of_succ_lt_succ h)
  rfl

/-- The byte 0x55 comes back as the counter value 1. -/
theorem bouncer_counts :
    (TopEntity.rest 0).CsIdle ∧
      ¬∀ N, (h : N + 1 < [ByteMessage.plain 0x55, ByteMessage.plain 0].length) →
        ByteMessage.readByte (.rest 0)
            ([ByteMessage.plain 0x55, ByteMessage.plain 0].take (N + 1))
            [ByteMessage.plain 0x55, ByteMessage.plain 0][N + 1] =
          [ByteMessage.plain 0x55, ByteMessage.plain 0][N].byte := by
  refine ⟨rfl, fun h => ?_⟩
  have hread : ByteMessage.readByte (.rest 0) [.plain 0x55] (.plain 0) = 0x55 := h 0 (by decide)
  rw [ByteMessage.readByte_eq (s := .rest 0) rfl] at hread
  exact absurd hread (by decide)

end EmSysLab.Assignment10
