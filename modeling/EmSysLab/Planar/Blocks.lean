import Mathlib.Algebra.BigOperators.Ring.Finset
import Mathlib.Tactic.Common

/-!
# Planes at half resolution

A plane with one sample for every block of two by two pixels, stored row by row with `a`
samples in a row. Walking over all pixels of `2 * b` rows and `2 * a` columns visits every
sample four times, once for each pixel of its block.
-/
namespace Planar

/-- The sample of the pixel in row `y` and column `x`. -/
def blockIndex (a y x : ℕ) : ℕ := y / 2 * a + x / 2

variable {a b y x i : ℕ}

theorem blockIndex_lt (hy : y < 2 * b) (hx : x < 2 * a) : blockIndex a y x < b * a := by
  have hrow : y / 2 + 1 ≤ b := by omega
  have hcol : x / 2 < a := by omega
  calc y / 2 * a + x / 2 < y / 2 * a + a := Nat.add_lt_add_left hcol _
    _ = (y / 2 + 1) * a := (Nat.succ_mul _ _).symm
    _ ≤ b * a := Nat.mul_le_mul_right a hrow

/-- The block of a sample: its row and its column. -/
theorem blockIndex_eq_iff (hx : x < 2 * a) : blockIndex a y x = i ↔ y / 2 = i / a ∧ x / 2 = i % a := by
  have hcol : x / 2 < a := by omega
  unfold blockIndex
  constructor
  · rintro rfl
    rw [Nat.add_comm, Nat.add_mul_div_right _ _ (by omega), Nat.add_mul_mod_self_right,
      Nat.div_eq_of_lt hcol, Nat.mod_eq_of_lt hcol, Nat.zero_add]
    exact ⟨rfl, rfl⟩
  · intro hblock
    rw [hblock.1, hblock.2]
    exact Nat.div_add_mod' i a

/-- Half of a number is `r` for two of them. -/
theorem filter_div_two {n r : ℕ} (hr : 2 * r + 1 < n) :
    ((Finset.range n).filter fun k => k / 2 = r) = {2 * r, 2 * r + 1} := by
  apply Finset.ext
  intro k
  rw [Finset.mem_filter, Finset.mem_range, Finset.mem_insert, Finset.mem_singleton]
  omega

/-- The pixels of a sample are those of its block. -/
theorem filter_blockIndex (hi : i < b * a) :
    ((Finset.range (2 * b) ×ˢ Finset.range (2 * a)).filter fun q => blockIndex a q.1 q.2 = i) =
      ({2 * (i / a), 2 * (i / a) + 1} : Finset ℕ) ×ˢ {2 * (i % a), 2 * (i % a) + 1} := by
  have ha : 0 < a := Nat.pos_of_mul_pos_left (Nat.lt_of_le_of_lt (Nat.zero_le i) hi)
  have hrow : i / a < b := Nat.div_lt_of_lt_mul (by rwa [Nat.mul_comm])
  have hcol : i % a < a := Nat.mod_lt i ha
  rw [← filter_div_two (n := 2 * b) (by omega), ← filter_div_two (n := 2 * a) (by omega),
    ← Finset.filter_product]
  apply Finset.filter_congr
  intro q hq
  rw [Finset.mem_product, Finset.mem_range, Finset.mem_range] at hq
  exact blockIndex_eq_iff hq.2

/-! ## Sums over all pixels -/

section Sums

variable {M : Type*} [AddCommMonoid M]

/-- Every number is half of two. -/
theorem sum_range_div_two (g : ℕ → M) (n : ℕ) :
    ∑ k ∈ Finset.range (2 * n), g (k / 2) = 2 • ∑ r ∈ Finset.range n, g r := by
  induction n with
  | zero => simp
  | succ n ih =>
    have heven : 2 * n / 2 = n := by omega
    have hodd : (2 * n + 1) / 2 = n := by omega
    rw [Nat.mul_succ, Finset.sum_range_succ, Finset.sum_range_succ, ih, heven, hodd,
      Finset.sum_range_succ, nsmul_add, two_nsmul (g n), add_assoc]

/-- A plane is its rows. -/
theorem sum_range_rows (f : ℕ → M) (b a : ℕ) :
    ∑ i ∈ Finset.range (b * a), f i =
      ∑ r ∈ Finset.range b, ∑ c ∈ Finset.range a, f (r * a + c) := by
  induction b with
  | zero => simp
  | succ b ih => rw [Nat.succ_mul, Finset.sum_range_add, ih, Finset.sum_range_succ]

/-- **Four pixels a sample.** -/
theorem sum_blockIndex (f : ℕ → M) (b a : ℕ) :
    ∑ y ∈ Finset.range (2 * b), ∑ x ∈ Finset.range (2 * a), f (blockIndex a y x) =
      4 • ∑ i ∈ Finset.range (b * a), f i := by
  have hrow : ∀ y, ∑ x ∈ Finset.range (2 * a), f (blockIndex a y x) =
      2 • ∑ c ∈ Finset.range a, f (y / 2 * a + c) := fun y =>
    sum_range_div_two (fun c => f (y / 2 * a + c)) a
  calc ∑ y ∈ Finset.range (2 * b), ∑ x ∈ Finset.range (2 * a), f (blockIndex a y x)
      = ∑ y ∈ Finset.range (2 * b), 2 • ∑ c ∈ Finset.range a, f (y / 2 * a + c) :=
        Finset.sum_congr rfl fun y _ => hrow y
    _ = 2 • ∑ r ∈ Finset.range b, 2 • ∑ c ∈ Finset.range a, f (r * a + c) :=
        sum_range_div_two (fun r => 2 • ∑ c ∈ Finset.range a, f (r * a + c)) b
    _ = 4 • ∑ i ∈ Finset.range (b * a), f i := by
        rw [Finset.sum_nsmul, ← mul_nsmul', sum_range_rows]

end Sums

/-! ## Loops that count -/

/-- A loop whose every pass succeeds and adds `g k` to the counter. -/
theorem foldlM_range {step : ℕ → ℕ → Option ℕ} {g : ℕ → ℕ} {n : ℕ}
    (h : ∀ k < n, ∀ counter, step counter k = some (counter + g k)) (counter : ℕ) :
    (List.range n).foldlM step counter = some (counter + ∑ k ∈ Finset.range n, g k) := by
  induction n with
  | zero => rfl
  | succ n ih =>
    rw [List.range_succ, List.foldlM_append, ih fun k hk => h k (Nat.lt_succ_of_lt hk),
      Finset.sum_range_succ, ← Nat.add_assoc]
    change (step _ n).bind some = _
    rw [h n (Nat.lt_succ_self n)]
    rfl

end Planar
