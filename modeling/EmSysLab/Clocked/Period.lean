import EmSysLab.Clocked.Run
import Mathlib.Data.Nat.Count
import Mathlib.Data.Nat.Periodic

/-!
# Counters that run through a period

A counter that steps through `0, …, P - 1` and wraps visits every value once in any
`P` consecutive steps, from whatever phase. A comparator on such a counter is
therefore high for exactly as many steps of a window as its threshold says.
-/
namespace Clocked

/-- A counter that starts below `P` and wraps at `P` is the step number shifted by its
first value. -/
theorem periodic_counter {P : ℕ} {c : ℕ → ℕ} (h0 : c 0 < P)
    (hc : ∀ k, c (k + 1) = (c k + 1) % P) (k : ℕ) : c k = (c 0 + k) % P := by
  induction k with
  | zero => exact (Nat.mod_eq_of_lt h0).symm
  | succ k ih => rw [hc, ih, Nat.mod_add_mod, Nat.add_assoc]

/-- Any window of `P` steps sees the counter below a threshold `D ≤ P` exactly `D` times. -/
theorem card_window_lt {P D : ℕ} (hD : D ≤ P) {c : ℕ → ℕ} (h0 : c 0 < P)
    (hc : ∀ k, c (k + 1) = (c k + 1) % P) (a : ℕ) :
    ((Finset.range P).filter fun j => c (a + j) < D).card = D := by
  have hper : Function.Periodic (fun k => k % P < D) P := fun k => by simp
  -- the window at the phase where the counter is zero counts the values below D
  have hcount : ∀ n, ((Finset.Ico n (n + P)).filter fun k => k % P < D).card = D := by
    intro n
    rw [Nat.filter_Ico_card_eq_of_periodic n P _ hper, Nat.count_eq_card_filter_range]
    have hset : (Finset.range P).filter (fun k => k % P < D) = Finset.range D := by
      ext k
      simp only [Finset.mem_filter, Finset.mem_range]
      constructor
      · rintro ⟨hk, hlt⟩
        rwa [Nat.mod_eq_of_lt hk] at hlt
      · intro hk
        exact ⟨by omega, by rwa [Nat.mod_eq_of_lt (by omega)]⟩
    rw [hset, Finset.card_range]
  refine Eq.trans (Finset.card_bij (fun j _ => c 0 + a + j) ?_ ?_ ?_) (hcount (c 0 + a))
  · intro j hj
    rw [Finset.mem_filter, Finset.mem_range] at hj
    rcases hj with ⟨hjP, hlt⟩
    rw [periodic_counter h0 hc (a + j), ← Nat.add_assoc] at hlt
    rw [Finset.mem_filter, Finset.mem_Ico]
    exact ⟨⟨by omega, by omega⟩, hlt⟩
  · intro j _ j' _ h
    omega
  · intro m hm
    rw [Finset.mem_filter, Finset.mem_Ico] at hm
    rcases hm with ⟨⟨hlo, hhi⟩, hlt⟩
    refine ⟨m - (c 0 + a), ?_, by omega⟩
    rw [Finset.mem_filter, Finset.mem_range, periodic_counter h0 hc (a + _), ← Nat.add_assoc,
      Nat.add_sub_cancel' hlo]
    exact ⟨by omega, hlt⟩

/-- However the threshold moves below a bound `D ≤ P`, one period sees the counter below it at
most `D` times. -/
theorem card_window_le {P D : ℕ} (hD : D ≤ P) {c d : ℕ → ℕ} (h0 : c 0 < P)
    (hc : ∀ k, k + 1 < P → c (k + 1) = (c k + 1) % P) (hd : ∀ k < P, d k ≤ D) :
    ((Finset.range P).filter fun j => c j < d j).card ≤ D := by
  have hphase : ∀ k < P, c k = (c 0 + k) % P := by
    intro k
    induction k with
    | zero => exact fun _ => (Nat.mod_eq_of_lt h0).symm
    | succ k ih =>
      intro hk
      rw [hc k hk, ih (Nat.lt_of_succ_lt hk), Nat.mod_add_mod, Nat.add_assoc]
  have hfixed : ((Finset.range P).filter fun j => (c 0 + (0 + j)) % P < D).card = D :=
    card_window_lt (c := fun k => (c 0 + k) % P) hD (Nat.mod_lt _ (Nat.zero_lt_of_lt h0))
      (fun k => by rw [Nat.mod_add_mod, Nat.add_assoc]) 0
  refine (Finset.card_le_card ?_).trans (Nat.le_of_eq hfixed)
  intro j hj
  rw [Finset.mem_filter, Finset.mem_range] at hj ⊢
  obtain ⟨hjP, hlt⟩ := hj
  rw [Nat.zero_add, ← hphase j hjP]
  exact ⟨hjP, Nat.lt_of_lt_of_le hlt (hd j hjP)⟩

/-! ## Counters and comparators on words -/

section Words

variable {w : ℕ}

/-- A word that is positive as a signed number. -/
theorem toNat_of_toInt_pos {v : BitVec w} (h : 0 < v.toInt) : 0 < v.toNat ∧ 2 * v.toNat < 2 ^ w := by
  have hint := BitVec.toInt_eq_toNat_cond v
  have hlt := v.isLt
  split at hint <;> omega

/-- Counting down from a positive word does not wrap. -/
theorem toNat_sub_one {v : BitVec w} (h : 0 < v.toNat) : (v - 1).toNat = v.toNat - 1 := by
  have hone : (1 : BitVec w).toNat = 1 := Nat.mod_eq_of_lt (Nat.lt_of_le_of_lt h v.isLt)
  rw [BitVec.toNat_sub_of_le (by rw [BitVec.le_def, hone]; exact h), hone]

/-- A counter that returns to zero after `P - 1` counts modulo `P`. -/
theorem toNat_wrap {P c : BitVec w} (hc : c.toNat < P.toNat) :
    (if P - 1 ≤ c then 0 else c + 1).toNat = (c.toNat + 1) % P.toNat := by
  have hP := P.isLt
  have hlarge : 1 < 2 ^ w := by omega
  have hone : (1 : BitVec w).toNat = 1 := Nat.mod_eq_of_lt hlarge
  have hpred : (P - 1).toNat = P.toNat - 1 := toNat_sub_one (by omega)
  split
  · rename_i hwrap
    rw [BitVec.le_def, hpred] at hwrap
    rw [show c.toNat + 1 = P.toNat by omega, Nat.mod_self]
    exact Nat.zero_mod _
  · rename_i hwrap
    rw [BitVec.le_def, hpred] at hwrap
    rw [BitVec.toNat_add, hone, Nat.mod_eq_of_lt (by omega), Nat.mod_eq_of_lt (by omega)]

/-- A comparator needs no case of its own for the threshold zero. -/
theorem comparator_eq (c threshold : BitVec w) :
    (if threshold = 0 then false else decide (c < threshold)) =
      decide (c.toNat < threshold.toNat) := by
  split
  · rename_i h
    rw [h]
    simp
  · rfl

end Words

end Clocked
