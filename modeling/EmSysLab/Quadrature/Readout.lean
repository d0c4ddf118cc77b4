import EmSysLab.Quadrature.Displacement
import Mathlib.Algebra.Order.Ring.Abs

/-!
# Reading a wrapping counter

A counter of `w` bits that is read some edges late still says where an axis has been, as long
as nobody asks for more than half its range: a reading gives the position relative to the
origin, and two readings the distance between them, however often the counter has wrapped.
-/
namespace Quadrature

variable {w : ℕ}

/-- A word that stands for an integer within half its range. -/
theorem toInt_ofInt_of_abs_lt (hw : 0 < w) {z : ℤ} (hz : |z| < 2 ^ (w - 1)) :
    (BitVec.ofInt w z).toInt = z := by
  obtain ⟨hlow, hhigh⟩ := abs_lt.mp hz
  exact BitVec.toInt_ofInt_eq_self hw (Int.le_of_lt hlow) hhigh

theorem ofInt_sub (a b : ℤ) : BitVec.ofInt w a - BitVec.ofInt w b = BitVec.ofInt w (a - b) := by
  rw [Int.sub_eq_add_neg, BitVec.ofInt_add, BitVec.ofInt_neg, BitVec.sub_eq_add_neg]

/-- An axis that moves at most one position an edge is at most as far away as the edges. -/
theorem abs_sub_le {P : ℕ → ℤ} {a : ℕ} (hstep : ∀ j ≥ a, |P (j + 1) - P j| ≤ 1) {j : ℕ}
    (hj : a ≤ j) (d : ℕ) : |P (j + d) - P j| ≤ d := by
  induction d with
  | zero => simp
  | succ d ih =>
    have hnext := hstep (j + d) (Nat.le_add_right_of_le hj)
    rw [← Nat.add_assoc]
    rw [abs_le] at ih hnext ⊢
    push_cast
    omega

/-- The readings at the edges `valid` show the position `d` edges before, less the origin. -/
structure Tracks (d : ℕ) (valid : ℕ → Prop) (read : ℕ → BitVec w) (P : ℕ → ℤ) (origin : ℤ) :
    Prop where
  exact : ∀ t, valid t → read t = BitVec.ofInt w (P (t - d) - origin)
  /-- The reading as a signed number. -/
  signed : ∀ t, valid t → |P (t - d) - origin| < 2 ^ (w - 1) →
    (read t).toInt = P (t - d) - origin
  /-- The distance between two readings, whatever the counter wrapped through. -/
  travelled : ∀ t u, valid t → valid u → |P (u - d) - P (t - d)| < 2 ^ (w - 1) →
    (read u - read t).toInt = P (u - d) - P (t - d)
  /-- The axis has moved on by at most one position for every edge of delay. -/
  recent : ∀ t, valid t → |P t - P (t - d)| ≤ d

theorem Tracks.of_exact (hw : 0 < w) {d a : ℕ} {valid : ℕ → Prop} {read : ℕ → BitVec w} {P : ℕ → ℤ}
    {origin : ℤ} (hlate : ∀ t, valid t → a + d ≤ t) (hstep : ∀ j ≥ a, |P (j + 1) - P j| ≤ 1)
    (hread : ∀ t, valid t → read t = BitVec.ofInt w (P (t - d) - origin)) :
    Tracks d valid read P origin where
  exact := hread
  signed := by
    intro t ht hrange
    rw [hread t ht, toInt_ofInt_of_abs_lt hw hrange]
  travelled := by
    intro t u ht hu hrange
    rw [hread t ht, hread u hu, ofInt_sub, sub_sub_sub_cancel_right,
      toInt_ofInt_of_abs_lt hw hrange]
  recent := by
    intro t ht
    have hd := hlate t ht
    have hfar := abs_sub_le hstep (Nat.le_sub_of_add_le hd) d
    rwa [Nat.sub_add_cancel (Nat.le_of_add_left_le hd)] at hfar

end Quadrature
