import EmSysLab.Assignment10.TopEntity

/-!
# What the slave receives

The specification reads the pins alone: bits arrive at rises of SCLK with CS low, a
sample with CS high forgets the bits so far, and every eighth bit completes a group.
The receiver reports each group three samples after its last bit and shows that bit
on led2 one sample later, for any waveform whatever.
-/
namespace EmSysLab.Assignment10

open Serial Clocked

/-! ## Groups of eight bits -/

section Groups

variable (x : ℕ → Sample)

/-- SCLK at the sample before sample `k`; it idles low before the first one. -/
def clkBefore : ℕ → Bool
  | 0 => false
  | k + 1 => (x k).sclk

/-- The bit that arrives at sample `k`. -/
def bitAt (k : ℕ) : Option Bool :=
  if (x k).cs = false ∧ (x k).sclk = true ∧ clkBefore x k = false then some (x k).pico else none

/-- The bits that arrived at samples below `k` since the last one with CS high. -/
def bitsSince : ℕ → List Bool
  | 0 => []
  | k + 1 => if (x k).cs then [] else bitsSince k ++ (bitAt x k).toList

/-- The group that sample `k` completes. -/
def completed (k : ℕ) : Option (List Bool) :=
  if (bitAt x k).isSome ∧ 8 ∣ (bitsSince x (k + 1)).length then
    some ((bitsSince x (k + 1)).drop ((bitsSince x (k + 1)).length - 8))
  else none

/-- The most recent group completed at a sample below `k`. -/
def lastCompleted : ℕ → Option (List Bool)
  | 0 => none
  | k + 1 => (completed x k).or (lastCompleted k)

/-- The group completed at the sample before sample `k`. -/
def justCompleted : ℕ → Option (List Bool)
  | 0 => none
  | k + 1 => completed x k

end Groups

/-- The last bit of the group, or the initial level of the LED. -/
def ledAfter (led : Bool) : Option (List Bool) → Bool
  | none => led
  | some g => g.getLastD led

variable {x : ℕ → Sample}

theorem bitAt_eq (k : ℕ) : bitAt x k =
    if !(x k).cs && rising (clkBefore x k) (x k) then some (x k).pico else none := by
  unfold bitAt rising
  cases (x k).cs <;> cases (x k).sclk <;> cases clkBefore x k <;> rfl

theorem bitsSince_succ (k : ℕ) : bitsSince x (k + 1) =
    if (x k).cs then [] else
      if rising (clkBefore x k) (x k) then bitsSince x k ++ [(x k).pico] else bitsSince x k := by
  rw [bitsSince, bitAt_eq]
  cases (x k).cs <;> cases rising (clkBefore x k) (x k) <;> simp

/-- A completed group stands at the end of at least eight bits. -/
theorem completed_eq_some {k : ℕ} {g : List Bool} (h : completed x k = some g) :
    8 ≤ (bitsSince x (k + 1)).length ∧
      g = (bitsSince x (k + 1)).drop ((bitsSince x (k + 1)).length - 8) := by
  unfold completed at h
  split at h
  · rename_i hdone
    rcases hdone with ⟨hbit, m, hm⟩
    rw [Option.some.injEq] at h
    refine ⟨?_, h.symm⟩
    rw [bitAt_eq] at hbit
    have hpos : 0 < (bitsSince x (k + 1)).length := by
      split at hbit
      · rename_i hr
        rw [Bool.and_eq_true, Bool.not_eq_true'] at hr
        rw [bitsSince_succ, hr.1, hr.2]
        simp
      · exact absurd hbit (by decide)
    omega
  · exact absurd h (by simp)

/-! ## The core -/

/-- The core after the samples below `k`. -/
structure Receives (x : ℕ → Sample) (led : Bool) (k : ℕ) (c : Core) : Prop where
  clkPrev : c.clkPrev = clkBefore x k
  bitcnt : c.bitcnt = BitVec.ofNat 3 (bitsSince x k).length
  data : ∃ r, c.byteDataReceived = shiftIn r (bitsSince x k)
  received : c.byteReceived = (justCompleted x k).isSome
  led2 : c.led2 = ledAfter led (lastCompleted x (k - 1))

namespace Receives

variable {led : Bool} {k : ℕ} {c : Core}

/-- While `byte_received` is set, the data register holds the group. -/
theorem group (h : Receives x led k c) {g : List Bool} (hg : justCompleted x k = some g) :
    msbBits c.byteDataReceived = g := by
  cases k with
  | zero => exact absurd hg (by simp [justCompleted])
  | succ k =>
    obtain ⟨hlen, rfl⟩ := completed_eq_some hg
    obtain ⟨r, hr⟩ := h.data
    rw [hr, msbBits_shiftIn r hlen]

theorem act_bitcnt (h : Receives x led k c) :
    (c.act (x k)).bitcnt = BitVec.ofNat 3 (bitsSince x (k + 1)).length := by
  rw [bitsSince_succ]
  simp only [Core.act, h.clkPrev, h.bitcnt]
  cases (x k).cs <;> cases rising (clkBefore x k) (x k) <;> simp [BitVec.ofNat_add]

theorem act_data (h : Receives x led k c) :
    ∃ r, (c.act (x k)).byteDataReceived = shiftIn r (bitsSince x (k + 1)) := by
  obtain ⟨r, hr⟩ := h.data
  rw [bitsSince_succ]
  simp only [Core.act, h.clkPrev]
  cases hcs : (x k).cs with
  | true => exact ⟨c.byteDataReceived, rfl⟩
  | false =>
    cases rising (clkBefore x k) (x k) with
    | true => exact ⟨r, by rw [hr]; exact (shiftIn_concat r _ _).symm⟩
    | false => exact ⟨r, hr⟩

theorem act_received (h : Receives x led k c) :
    (c.act (x k)).byteReceived = (completed x k).isSome := by
  have hcount : (c.bitcnt == 0b111#3) = decide (8 ∣ (bitsSince x k).length + 1) := by
    rw [h.bitcnt, Bool.eq_iff_iff, beq_iff_eq, decide_eq_true_iff, BitVec.toNat_eq,
      BitVec.toNat_ofNat]
    change _ % 8 = 7 ↔ _
    omega
  have hact : (c.act (x k)).byteReceived =
      ((!(x k).cs && rising c.clkPrev (x k)) && c.bitcnt == 0b111#3) := rfl
  rw [hact, hcount, h.clkPrev]
  unfold completed
  rw [bitAt_eq, bitsSince_succ]
  cases (x k).cs with
  | true => simp
  | false =>
    cases rising (clkBefore x k) (x k) with
    | false => simp
    | true =>
      by_cases hdiv : 8 ∣ (bitsSince x k).length + 1
      · simp [hdiv]
      · simp [hdiv]

theorem act_led2 (h : Receives x led k c) :
    (c.act (x k)).led2 = ledAfter led (lastCompleted x k) := by
  have hact : (c.act (x k)).led2 =
      if c.byteReceived then c.byteDataReceived.getLsbD 0 else c.led2 := rfl
  rw [hact, h.received, h.led2]
  cases k with
  | zero => rfl
  | succ k =>
    rw [lastCompleted, Nat.add_sub_cancel]
    cases hg : completed x k with
    | none => rw [justCompleted, hg]; rfl
    | some g =>
      have hbits := h.group hg
      rw [justCompleted, hg, Option.isSome_some, if_pos rfl, ← hbits]
      exact (getLastD_msbBits c.byteDataReceived led).symm

/-- **One sample.** -/
theorem act (h : Receives x led k c) : Receives x led (k + 1) (c.act (x k)) :=
  ⟨rfl, h.act_bitcnt, h.act_data, h.act_received, h.act_led2⟩

theorem before (h : Receives x led 0 c) (k : ℕ) : Receives x led k (before Core.act c x k) := by
  induction k with
  | zero => exact h
  | succ k ih => exact ih.act

end Receives

/-! ## The slave -/

/-- The synchronisers are idle and no byte is being reported. -/
structure TopEntity.Idle (s : TopEntity) : Prop where
  spiCsr : s.spiCsr = 0b111
  spiClkr : s.spiClkr = 0b000
  byteReceived : s.byteReceived = false

namespace TopEntity.Idle

variable {s : TopEntity} (hs : s.Idle)

include hs

/-- The two idle samples in flight leave the core as it stands before any bit. -/
theorem receives (x : ℕ → Sample) :
    Receives x s.led2 0 (run Core.act s.core (sync.flight s)) := by
  rcases hs with ⟨hcs, hclk, hrec⟩
  have hcs' : ∀ i < 3, s.spiCsr.getLsbD i = true := by rw [hcs]; decide
  have hclk' : ∀ i, s.spiClkr.getLsbD i = false := by
    rw [hclk]
    exact fun _ => BitVec.getLsbD_zero
  have hflight : sync.flight s = [s.stage 1, s.stage 0] := rfl
  have h1 : (s.stage 1).cs = true := hcs' 1 (by decide)
  have h0 : (s.stage 0).cs = true := hcs' 0 (by decide)
  rw [hflight]
  refine ⟨hclk' 0, ?_, ⟨s.byteDataReceived, ?_⟩, ?_, ?_⟩
  · simp [Core.act, h0, bitsSince]
  · simp [Core.act, h0, h1, bitsSince, TopEntity.core]
  · simp [Core.act, h0, justCompleted]
  · simp [Core.act, h1, hrec, lastCompleted, ledAfter, TopEntity.core]

/-- Before the synchronisers have passed a sample nothing happens. -/
theorem posedgeClk (x : Sample) :
    (s.posedgeClk x).byteReceived = false ∧ (s.posedgeClk x).led2 = s.led2 := by
  constructor
  · simp [TopEntity.posedgeClk, TopEntity.spiCsActive, hs.spiCsr]
  · simp [TopEntity.posedgeClk, hs.byteReceived]

end TopEntity.Idle

/-- **The receiver is exact on every waveform.** Before edge `k` it reports a byte if and
only if sample `k - 3` completed a group, the byte is that group, and led2 shows the last
bit of the latest group completed at or before sample `k - 4`. -/
theorem receiver_exact (s : TopEntity) (hs : s.Idle) (x : ℕ → Sample) (k : ℕ) :
    ((before TopEntity.posedgeClk s x k).byteReceived = true ↔
        3 ≤ k ∧ (completed x (k - 3)).isSome) ∧
      (3 ≤ k → ∀ g, completed x (k - 3) = some g →
        msbBits (before TopEntity.posedgeClk s x k).byteDataReceived = g) ∧
      (before TopEntity.posedgeClk s x k).led2 = ledAfter s.led2 (lastCompleted x (k - 3)) := by
  match k with
  | 0 =>
    rw [before_zero, hs.byteReceived]
    exact ⟨by simp, by simp, rfl⟩
  | 1 =>
    obtain ⟨hrec, hled⟩ := hs.posedgeClk (x 0)
    rw [before_succ, before_zero, hrec, hled]
    exact ⟨by simp, by simp, rfl⟩
  | m + 2 =>
    have h := (hs.receives x).before m
    have hcore : (before TopEntity.posedgeClk s x (m + 2)).core =
        before Core.act (run Core.act s.core (sync.flight s)) x m := sync.view_before s x m
    rw [← hcore] at h
    refine ⟨?_, ?_, h.led2⟩
    · rw [show (before TopEntity.posedgeClk s x (m + 2)).byteReceived = _ from h.received]
      cases m with
      | zero => simp [justCompleted]
      | succ j => simp [justCompleted]
    · intro hk g hg
      obtain ⟨j, rfl⟩ := Nat.exists_eq_add_of_le' (show 1 ≤ m by omega)
      exact h.group hg

/-- The byte 0xa5 on the wires, then CS high. -/
def byteWave (k : ℕ) : Sample := (mode0 1 1 (msbBits (0xa5 : BitVec 8))).getD k ⟨false, false, true⟩

theorem receiver_exact_byte :
    (before TopEntity.posedgeClk (.rest 0) byteWave 18).byteReceived = true ∧
      msbBits (before TopEntity.posedgeClk (.rest 0) byteWave 18).byteDataReceived =
        msbBits (0xa5 : BitVec 8) :=
  have h := receiver_exact (.rest 0) ⟨rfl, rfl, rfl⟩ byteWave 18
  ⟨h.1.mpr ⟨by decide, by decide⟩, h.2.1 (by decide) _ (by decide)⟩

end EmSysLab.Assignment10
