import EmSysLab.Quadrature.Path
import Mathlib.Algebra.BigOperators.Intervals
import Mathlib.Algebra.Order.Group.Unbundled.Int
import Mathlib.Data.Int.ModEq
import Mathlib.Tactic.Ring

/-!
# Quadrature signals and displacement

A quadrature encoder shows its position modulo four as two bits that change one at a
time. The step between two readings is read off the bits; summed along a trajectory
that never moves more than one position at once, the steps telescope to the true
displacement, however often the direction changes. A change in both bits counts for no
step although the position has moved by two, one way or the other.
-/
namespace Quadrature

/-- The bits at the next position. -/
def next (s : BitVec 2) : BitVec 2 :=
  if s = 0b00 then 0b10 else if s = 0b10 then 0b11 else if s = 0b11 then 0b01 else 0b00

/-- The number of a position within its cycle of four. -/
def phase (s : BitVec 2) : ℤ :=
  if s = 0b00 then 0 else if s = 0b10 then 1 else if s = 0b11 then 2 else 3

/-- The step between two readings; a change in both bits counts for nothing. -/
def delta (a b : BitVec 2) : ℤ := if b = next a then 1 else if a = next b then -1 else 0

theorem cases_bits : ∀ a : BitVec 2, a = 0b00 ∨ a = 0b01 ∨ a = 0b10 ∨ a = 0b11 := by decide

theorem delta_eq : ∀ a b : BitVec 2, delta a b =
    if (phase b - phase a) % 4 = 1 then 1 else if (phase b - phase a) % 4 = 3 then -1 else 0 := by
  decide

/-- Readings of two neighbouring positions give the true step. -/
theorem delta_of_position {p q : ℤ} {a b : BitVec 2} (hp : p % 4 = phase a) (hq : q % 4 = phase b)
    (h : |q - p| ≤ 1) : delta a b = q - p := by
  have hmod : (phase b - phase a) % 4 = (q - p) % 4 := by
    rw [← hp, ← hq, ← Int.sub_emod]
  rw [delta_eq, hmod]
  rcases Int.abs_le_one_iff.mp h with h0 | h1 | h2
  · rw [h0]
    decide
  · rw [h1]
    decide
  · rw [h2]
    decide

/-- **Steps telescope.** -/
theorem sum_delta {x : ℕ → BitVec 2} {P : ℕ → ℤ} {a b : ℕ} (hab : a ≤ b)
    (hphase : ∀ j ≥ a, P j % 4 = phase (x j)) (hstep : ∀ j ≥ a, |P (j + 1) - P j| ≤ 1) :
    ∑ j ∈ Finset.Ico a b, delta (x j) (x (j + 1)) = P b - P a := by
  induction b, hab using Nat.le_induction with
  | base => simp
  | succ b hab ih =>
    rw [Finset.sum_Ico_succ_top hab, ih,
      delta_of_position (hphase b hab) (hphase (b + 1) (by omega)) (hstep b hab)]
    omega

theorem delta_self : ∀ a : BitVec 2, delta a a = 0 := by decide

/-- The step back undoes the step forth. -/
theorem delta_back : ∀ a b : BitVec 2, delta a b + delta b a = 0 := by decide

/-! ## Skipped readings -/

/-- How often both bits change between neighbouring readings. -/
def skips (x : ℕ → BitVec 2) (a b : ℕ) : ℕ := ((Finset.Ico a b).filter fun j => x (j + 1) = ~~~x j).card

theorem skips_succ (x : ℕ → BitVec 2) {a b : ℕ} (hab : a ≤ b) :
    skips x a (b + 1) = skips x a b + if x (b + 1) = ~~~x b then 1 else 0 := by
  unfold skips
  rw [← Finset.insert_Ico_right_eq_Ico_add_one hab, Finset.filter_insert]
  split
  · rw [Finset.card_insert_of_notMem (by simp)]
  · rfl

theorem delta_modEq : ∀ a b : BitVec 2,
    delta a b ≡ phase b - phase a + 2 * (if b = ~~~a then 1 else 0) [ZMOD 4] := by
  unfold Int.ModEq
  decide

/-- **Steps and phases agree modulo four**, counting two for every skipped reading. -/
theorem sum_delta_modEq (x : ℕ → BitVec 2) {a b : ℕ} (hab : a ≤ b) :
    ∑ j ∈ Finset.Ico a b, delta (x j) (x (j + 1)) ≡
      phase (x b) - phase (x a) + 2 * skips x a b [ZMOD 4] := by
  induction b, hab using Nat.le_induction with
  | base => simp [skips, Int.ModEq]
  | succ b hab ih =>
    have hstep := ih.add (delta_modEq (x b) (x (b + 1)))
    have hsum : phase (x b) - phase (x a) + 2 * (skips x a b : ℤ) +
          (phase (x (b + 1)) - phase (x b) + 2 * (if x (b + 1) = ~~~x b then 1 else 0)) =
        phase (x (b + 1)) - phase (x a) + 2 * (skips x a (b + 1) : ℤ) := by
      rw [skips_succ x hab]
      push_cast
      ring
    rw [Finset.sum_Ico_succ_top hab]
    rwa [hsum] at hstep

end Quadrature
