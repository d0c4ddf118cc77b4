import EmSysLab.Clocked.Run
import EmSysLab.Quadrature.Displacement

/-!
# A counting channel behind a synchroniser

Two registers synchronise the encoder bits, a third remembers the reading acted on
last, and a counter of `w` bits adds the step between the two unless it is reset. The
counter is then the sum of the steps between consecutive samples since the last
reset, whatever the samples are.
-/
namespace Quadrature

open Clocked

variable {w : ℕ}

structure Channel (w : ℕ) where
  sync0 : BitVec 2
  sync1 : BitVec 2
  prev : BitVec 2
  steps : BitVec w

namespace Channel

/-- One edge with a sample of the encoder bits and the reset level. -/
def step (c : Channel w) (x : BitVec 2 × Bool) : Channel w where
  sync0 := x.1
  sync1 := c.sync0
  prev := c.sync1
  steps := if x.2 then 0 else c.steps + BitVec.ofInt w (delta c.prev c.sync1)

/-- The samples as the counter meets them: the three register contents the channel
starts with stand before the first sample taken. -/
def samples (c : Channel w) (x : ℕ → BitVec 2 × Bool) : ℕ → BitVec 2
  | 0 => c.prev
  | 1 => c.sync1
  | 2 => c.sync0
  | k + 3 => (x k).1

/-- Before edge `k` the three registers hold consecutive samples. -/
theorem before_samples (c : Channel w) (x : ℕ → BitVec 2 × Bool) (k : ℕ) :
    (before step c x k).prev = c.samples x k ∧ (before step c x k).sync1 = c.samples x (k + 1) ∧
      (before step c x k).sync0 = c.samples x (k + 2) := by
  induction k with
  | zero => exact ⟨rfl, rfl, rfl⟩
  | succ k ih =>
    rcases ih with ⟨-, hsync1, hsync0⟩
    exact ⟨hsync1, hsync0, rfl⟩

/-- Before every edge `prev` and `sync1` hold consecutive samples. -/
structure Sampled (c : Channel w) (x : ℕ → BitVec 2 × Bool) (cs : ℕ → Channel w) : Prop where
  prev : ∀ j, (cs j).prev = c.samples x j
  sync1 : ∀ j, (cs j).sync1 = c.samples x (j + 1)

theorem sampled (c : Channel w) (x : ℕ → BitVec 2 × Bool) : Sampled c x (before step c x) where
  prev := fun j => (c.before_samples x j).1
  sync1 := fun j => (c.before_samples x j).2.1

/-- The edges below `k` with no reset at them or after them. -/
def counted (x : ℕ → BitVec 2 × Bool) (k : ℕ) : Finset ℕ :=
  (Finset.range k).filter fun j => ∀ i < k, j ≤ i → (x i).2 = false

theorem counted_reset {x : ℕ → BitVec 2 × Bool} {k : ℕ} (h : (x k).2 = true) :
    counted x (k + 1) = ∅ := by
  refine Finset.filter_eq_empty_iff.mpr fun j hj hall => ?_
  rw [Finset.mem_range] at hj
  have hk := hall k (Nat.lt_succ_self k) (Nat.le_of_lt_succ hj)
  rw [h] at hk
  exact absurd hk (by decide)

theorem counted_succ {x : ℕ → BitVec 2 × Bool} {k : ℕ} (h : (x k).2 = false) :
    counted x (k + 1) = insert k (counted x k) := by
  ext j
  simp only [counted, Finset.mem_filter, Finset.mem_range, Finset.mem_insert]
  constructor
  · rintro ⟨hj, hall⟩
    rcases Nat.lt_succ_iff_lt_or_eq.mp hj with hlt | heq
    · exact .inr ⟨hlt, fun i hi hji => hall i (by omega) hji⟩
    · exact .inl heq
  · rintro (rfl | ⟨hj, hall⟩)
    · refine ⟨Nat.lt_succ_self j, fun i hi hji => ?_⟩
      obtain rfl : i = j := by omega
      exact h
    · refine ⟨by omega, fun i hi hji => ?_⟩
      rcases Nat.lt_succ_iff_lt_or_eq.mp hi with hlt | rfl
      · exact hall i hlt hji
      · exact h

/-- The steps between consecutive samples, summed over the edges since the last reset. -/
def stepSum (c : Channel w) (x : ℕ → BitVec 2 × Bool) (k : ℕ) : ℤ :=
  ∑ j ∈ counted x k, delta (c.samples x j) (c.samples x (j + 1))

/-- **The counter is the sum of the steps since the last reset**, over its initial value
if there was none. -/
theorem before_steps (c : Channel w) (x : ℕ → BitVec 2 × Bool) (k : ℕ) :
    (before step c x k).steps = (if ∀ i < k, (x i).2 = false then c.steps else 0) +
      BitVec.ofInt w (c.stepSum x k) := by
  unfold stepSum
  induction k with
  | zero => simp [counted]
  | succ k ih =>
    obtain ⟨hprev, hsync1, -⟩ := c.before_samples x k
    rw [before_succ]
    cases hr : (x k).2 with
    | true =>
      have hsome : ¬∀ i < k + 1, (x i).2 = false := by
        intro h
        rw [h k (Nat.lt_succ_self k)] at hr
        exact absurd hr (by decide)
      rw [if_neg hsome, counted_reset hr]
      simp [step, hr]
    | false =>
      have hnone : (∀ i < k + 1, (x i).2 = false) ↔ ∀ i < k, (x i).2 = false := by
        rw [Nat.forall_lt_succ_right]
        exact and_iff_left hr
      have hnew : k ∉ counted x k := by
        simp [counted]
      rw [counted_succ hr, Finset.sum_insert hnew, BitVec.ofInt_add, if_congr hnone rfl rfl]
      simp only [step, hr, ih, hprev, hsync1]
      rw [BitVec.add_assoc, BitVec.add_comm (BitVec.ofInt w (delta _ _))]
      rfl

theorem before_steps_of_zero {c : Channel w} (h : c.steps = 0) (x : ℕ → BitVec 2 × Bool) (k : ℕ) :
    (before step c x k).steps = BitVec.ofInt w (c.stepSum x k) := by
  rw [before_steps, h, ite_self]
  exact BitVec.zero_add _

/-- The last reset is at edge `r`. -/
structure Released (x : ℕ → BitVec 2 × Bool) (r : ℕ) : Prop where
  reset : (x r).2 = true
  released : ∀ j > r, (x j).2 = false

/-- After the last reset the counter is the sum of the steps from there on. -/
theorem Released.before_steps {x : ℕ → BitVec 2 × Bool} {r : ℕ} (h : Released x r)
    (c : Channel w) {k : ℕ} (hk : r < k) : (before step c x k).steps =
      BitVec.ofInt w (∑ j ∈ Finset.Ico (r + 1) k, delta (c.samples x j) (c.samples x (j + 1))) := by
  obtain ⟨hreset, hafter⟩ := h
  have hsome : ¬∀ i < k, (x i).2 = false := by
    intro h
    rw [h r hk] at hreset
    exact absurd hreset (by decide)
  have hcounted : counted x k = Finset.Ico (r + 1) k := by
    ext j
    simp only [counted, Finset.mem_filter, Finset.mem_range, Finset.mem_Ico]
    constructor
    · rintro ⟨hj, hall⟩
      refine ⟨Nat.lt_of_not_le fun hle => ?_, hj⟩
      rw [hall r hk hle] at hreset
      exact absurd hreset (by decide)
    · rintro ⟨hrj, hj⟩
      exact ⟨hj, fun i _ hji => hafter i (by omega)⟩
  rw [Channel.before_steps, if_neg hsome, stepSum, hcounted]
  exact BitVec.zero_add _

/-- `P` is a trajectory with these samples from just after a reset at edge `r` on, which is
the last one. -/
structure Trajectory (c : Channel w) (x : ℕ → BitVec 2 × Bool) (r : ℕ) (P : ℕ → ℤ) : Prop where
  reset : (x r).2 = true
  released : ∀ j > r, (x j).2 = false
  phase : ∀ j > r, P j % 4 = phase (c.samples x j)
  step : ∀ j > r, |P (j + 1) - P j| ≤ 1

/-- **True displacement.** The counter is how far the trajectory has come since the
reset, modulo `2 ^ w`. -/
theorem Trajectory.before_steps {c : Channel w} {x : ℕ → BitVec 2 × Bool} {r : ℕ} {P : ℕ → ℤ}
    (h : Trajectory c x r P) {k : ℕ} (hk : r < k) :
    (before Channel.step c x k).steps = BitVec.ofInt w (P k - P (r + 1)) := by
  rcases h with ⟨hreset, hafter, hphase, hstep⟩
  rw [Released.before_steps ⟨hreset, hafter⟩ c hk, sum_delta hk hphase hstep]

/-! ## Samples that are skipped -/

/-- What the counter is worth in state `c k` of a run that was last reset at edge `r`,
whatever the samples are. -/
structure Accounted (c : ℕ → Channel w) (r k : ℕ) : Prop where
  /-- The counter is the change of phase plus two for every decoder step that saw both
  bits change. -/
  congruent : ((c k).steps.toNat : ℤ) ≡ Quadrature.phase (c k).prev -
    Quadrature.phase (c (r + 1)).prev +
      2 * ((Finset.Ico (r + 1) k).filter fun j => (c j).sync1 = ~~~(c j).prev).card [ZMOD 4]
  /-- So it is an even number of steps away from any position the samples may stand for. -/
  even_error : ∀ P : ℕ → ℤ, (∀ j > r, P j % 4 = Quadrature.phase (c j).prev) →
    2 ∣ ((c k).steps.toNat : ℤ) - (P k - P (r + 1))
  /-- With no sample skipped its two low bits are the phase relative to the reset. -/
  low_bits : (∀ j, r < j → j < k → (c j).sync1 ≠ ~~~(c j).prev) →
    ((c k).steps.toNat : ℤ) % 4 =
      (Quadrature.phase (c k).prev - Quadrature.phase (c (r + 1)).prev) % 4

theorem toNat_ofInt_modEq (hw : 2 ≤ w) (z : ℤ) : ((BitVec.ofInt w z).toNat : ℤ) ≡ z [ZMOD 4] := by
  have hpow : (4 : ℤ) ∣ ((2 ^ w : ℕ) : ℤ) := by
    obtain ⟨v, rfl⟩ := Nat.exists_eq_add_of_le' hw
    exact ⟨2 ^ v, by push_cast; ring⟩
  have hpos : (0 : ℤ) < ((2 ^ w : ℕ) : ℤ) := Int.natCast_pos.mpr (Nat.two_pow_pos w)
  rw [BitVec.toNat_ofInt, Int.toNat_of_nonneg (Int.emod_nonneg z (Int.ne_of_gt hpos))]
  exact Int.emod_emod_of_dvd z hpow

/-- **Missed samples.** -/
theorem Released.accounted (hw : 2 ≤ w) {x : ℕ → BitVec 2 × Bool} {r : ℕ} (h : Released x r)
    (c : Channel w) {k : ℕ} (hk : r < k) : Accounted (before step c x) r k := by
  have hsampled := c.sampled x
  have hskips : ((Finset.Ico (r + 1) k).filter fun j =>
      (before step c x j).sync1 = ~~~(before step c x j).prev).card =
        skips (c.samples x) (r + 1) k := by
    unfold skips
    congr 1
    refine Finset.filter_congr fun j _ => ?_
    rw [hsampled.prev, hsampled.sync1]
  have hcongruent := (toNat_ofInt_modEq hw _).trans (sum_delta_modEq (c.samples x) hk)
  rw [← h.before_steps c hk, ← hskips, ← hsampled.prev k, ← hsampled.prev (r + 1)] at hcongruent
  constructor
  · exact hcongruent
  · intro P hP
    have hk' := hP k hk
    have hr' := hP (r + 1) (Nat.lt_succ_self r)
    have hmod := hcongruent.eq
    omega
  · intro hnone
    have hempty : ((Finset.Ico (r + 1) k).filter fun j =>
        (before step c x j).sync1 = ~~~(before step c x j).prev) = ∅ := by
      refine Finset.filter_eq_empty_iff.mpr fun j hj => ?_
      rw [Finset.mem_Ico] at hj
      exact hnone j hj.1 hj.2
    rw [hempty, Finset.card_empty] at hcongruent
    have hmod := hcongruent.eq
    omega

/-! ## Motion that is retraced -/

/-- The readings of a run without reset, from the registers on. -/
def word (c : Channel w) (samples : List (BitVec 2)) : List (BitVec 2) :=
  c.prev :: c.sync1 :: c.sync0 :: samples

/-- Without a reset the counter adds up the steps along the readings, the last two of which
are still in the synchroniser. -/
theorem run_released (c : Channel w) (samples : List (BitVec 2)) :
    (run step c (samples.map fun a => (a, false))).steps =
        c.steps + BitVec.ofInt w (Path.travel delta ((c.word samples).take (samples.length + 1))) ∧
      (run step c (samples.map fun a => (a, false))).prev =
        ((c.word samples).take (samples.length + 1)).getLastD 0 := by
  induction samples generalizing c with
  | nil => exact ⟨by simp [word], rfl⟩
  | cons a l ih =>
    obtain ⟨hsteps, hprev⟩ := ih (c.step (a, false))
    have hword : (c.word (a :: l)).take (l.length + 2) =
        c.prev :: ((c.step (a, false)).word l).take (l.length + 1) := rfl
    rw [List.length_cons, List.map_cons, run_cons, hword]
    constructor
    · rw [hsteps]
      have htravel : Path.travel delta
            (c.prev :: ((c.step (a, false)).word l).take (l.length + 1)) =
          delta c.prev c.sync1 +
            Path.travel delta (((c.step (a, false)).word l).take (l.length + 1)) := rfl
      rw [htravel, BitVec.ofInt_add, ← BitVec.add_assoc]
      rfl
    · rw [hprev]
      rfl

/-- The samples `ys` are the samples `xs` with an excursion from a reading `a` put in that is
retraced to `a`; at least three more samples follow, and there is no reset. -/
def Bounced (xs ys : List (BitVec 2 × Bool)) : Prop :=
  ∃ (u : List (BitVec 2)) (a : BitVec 2) (excursion v t : List (BitVec 2)), 3 ≤ t.length ∧
    xs = (u ++ [a] ++ v ++ t).map (fun b => (b, false)) ∧
    ys = (u ++ [a] ++ excursion ++ excursion.reverse ++ [a] ++ v ++ t).map (fun b => (b, false))

/-- Without a reset the last two of the samples have not reached the counter. -/
theorem run_pending (c : Channel w) (samples : List (BitVec 2)) (y z : BitVec 2) :
    (run step c ((samples ++ [y, z]).map fun a => (a, false))).steps =
        c.steps + BitVec.ofInt w (Path.travel delta (c.word samples)) ∧
      (run step c ((samples ++ [y, z]).map fun a => (a, false))).prev =
        (c.word samples).getLastD 0 := by
  have htake : (c.word (samples ++ [y, z])).take ((samples ++ [y, z]).length + 1) =
      c.word samples := by
    have hsplit : c.word (samples ++ [y, z]) = c.word samples ++ [y, z] := rfl
    rw [hsplit]
    refine List.take_left' ?_
    simp [word]
  have hrun := c.run_released (samples ++ [y, z])
  rwa [htake] at hrun

/-- **Bounce immunity.** Once the synchroniser has drained, a retraced excursion has left no
trace. -/
theorem Bounced.run_eq {xs ys : List (BitVec 2 × Bool)} (h : Bounced xs ys) (c : Channel w) :
    (run step c ys).prev = (run step c xs).prev ∧ (run step c ys).steps = (run step c xs).steps := by
  obtain ⟨u, a, excursion, v, t, ht, rfl, rfl⟩ := h
  obtain ⟨t, b, y, z, rfl⟩ : ∃ t' b y z, t = t' ++ [b] ++ [y, z] := by
    obtain ⟨l, z, rfl⟩ := (List.eq_nil_or_concat' t).resolve_left (by rintro rfl; simp at ht)
    obtain ⟨l, y, rfl⟩ := (List.eq_nil_or_concat' l).resolve_left (by rintro rfl; simp at ht)
    obtain ⟨l, b, rfl⟩ := (List.eq_nil_or_concat' l).resolve_left (by rintro rfl; simp at ht)
    exact ⟨l, b, y, z, by simp⟩
  have hlast : ∀ l : List (BitVec 2), (c.word (l ++ [b])).getLastD 0 = b := by
    intro l
    have hconcat : (c.word l ++ [b]).getLastD 0 = b := List.getLastD_concat
    exact hconcat
  obtain ⟨hsteps, hprev⟩ := c.run_pending (u ++ [a] ++ v ++ t ++ [b]) y z
  obtain ⟨hsteps', hprev'⟩ :=
    c.run_pending (u ++ [a] ++ excursion ++ excursion.reverse ++ [a] ++ v ++ t ++ [b]) y z
  rw [hlast] at hprev hprev'
  have htravel := Path.travel_insert_retrace delta_self delta_back
    (c.word u) excursion (v ++ t ++ [b]) a
  have hword : c.word (u ++ [a] ++ v ++ t ++ [b]) = c.word u ++ a :: (v ++ t ++ [b]) := by
    simp [word]
  have hword' : c.word (u ++ [a] ++ excursion ++ excursion.reverse ++ [a] ++ v ++ t ++ [b]) =
      c.word u ++ a :: (excursion ++ (excursion.reverse ++ a :: (v ++ t ++ [b]))) := by
    simp [word]
  rw [hword] at hsteps
  rw [hword', htravel] at hsteps'
  simp only [← List.append_assoc] at *
  exact ⟨hprev'.trans hprev.symm, hsteps'.trans hsteps.symm⟩

end Channel

end Quadrature
