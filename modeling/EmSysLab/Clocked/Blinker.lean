import EmSysLab.Clocked.Enable
import EmSysLab.Clocked.Period
import Mathlib.Data.BitVec

/-!
# Counters that turn a level over

A counter that starts again when it has stood at its top value, and turns a level over at that
edge. It is a prescaler that is always enabled, so the level is a square wave whose half-period
is one edge more than the top value, whatever state the counter started in.
-/
namespace Clocked

variable {w : ℕ}

@[ext] structure Blinker (w : ℕ) where
  count : BitVec w
  level : Bool
  deriving DecidableEq, Repr

namespace Blinker

/-- One edge; there is no input. -/
def edge (top : BitVec w) (b : Blinker w) (_ : Unit) : Blinker w :=
  if b.count = top then ⟨0, !b.level⟩ else ⟨b.count + 1, b.level⟩

theorem edge_turn {top : BitVec w} {b : Blinker w} (h : b.count = top) (x : Unit) :
    b.edge top x = ⟨0, !b.level⟩ := if_pos h

theorem edge_count {top : BitVec w} {b : Blinker w} (h : b.count ≠ top) (x : Unit) :
    b.edge top x = ⟨b.count + 1, b.level⟩ := if_neg h

/-- The edges before the one that turns the level over. -/
def left (top : BitVec w) (b : Blinker w) : ℕ := (top - b.count).toNat

theorem left_eq_zero {top : BitVec w} {b : Blinker w} : b.left top = 0 ↔ b.count = top := by
  rw [left]
  constructor
  · intro h
    have hzero : top - b.count = 0 := BitVec.eq_of_toNat_eq h
    exact (sub_eq_zero.mp hzero).symm
  · rintro rfl
    rw [BitVec.sub_self]
    rfl

theorem left_turn {top : BitVec w} {b : Blinker w} (h : b.count = top) :
    (b.edge top ()).left top + 1 = top.toNat + 1 := by
  rw [edge_turn h, left, sub_zero]

theorem left_count {top : BitVec w} {b : Blinker w} (h : b.left top ≠ 0) :
    (b.edge top ()).left top + 1 = b.left top := by
  have hsub : top - (b.count + 1) = top - b.count - 1 := sub_add_eq_sub_sub _ _ _
  rw [edge_count fun heq => h (left_eq_zero.mpr heq)]
  change (top - (b.count + 1)).toNat + 1 = (top - b.count).toNat
  have hpos : 0 < (top - b.count).toNat := Nat.pos_of_ne_zero h
  rw [hsub, toNat_sub_one hpos]
  omega

section Run

variable (top : BitVec w) (b : Blinker w)

/-- The blinker before edge `k`. -/
def running (k : ℕ) : Blinker w := before (edge top) b (fun _ => ()) k

theorem running_succ (k : ℕ) : b.running top (k + 1) = (b.running top k).edge top () := rfl

theorem prescaler : Prescaler (top.toNat + 1) (fun _ => True)
    (fun k => (b.running top k).left top = 0) (fun k => (b.running top k).left top) where
  tick_iff := fun _ => ⟨fun h => ⟨trivial, h⟩, And.right⟩
  reload := fun _ h => left_turn (left_eq_zero.mp h)
  count := fun _ _ h => left_count h
  still := fun _ h => absurd trivial h

/-- Every tick turns the level over. -/
theorem level_running (k : ℕ) : (b.running top k).level =
    (b.level ^^ decide (Nat.count (fun k => (b.running top k).left top = 0) k % 2 = 1)) := by
  induction k with
  | zero => exact (Bool.xor_false _).symm
  | succ k ih =>
    rw [running_succ, Nat.count_succ]
    by_cases htick : (b.running top k).left top = 0
    · rw [edge_turn (left_eq_zero.mp htick), if_pos htick]
      change (!(b.running top k).level) = _
      rw [ih]
      generalize Nat.count (fun k => (b.running top k).left top = 0) k = ticks
      rcases Nat.mod_two_eq_zero_or_one ticks with h | h
      · have hodd : (ticks + 1) % 2 = 1 := by omega
        rw [h, hodd]
        cases b.level <;> rfl
      · have heven : (ticks + 1) % 2 = 0 := by omega
        rw [h, heven]
        cases b.level <;> rfl
    · rw [edge_count fun heq => htick (left_eq_zero.mpr heq), if_neg htick]
      exact ih

/-- **The square wave**, from any state of the counter. -/
theorem level_running_eq (k : ℕ) : (b.running top k).level = (b.level ^^
    decide ((if k ≤ b.left top then 0
      else (k - b.left top - 1) / (top.toNat + 1) + 1) % 2 = 1)) := by
  have hall : Nat.count (fun _ : ℕ => True) k = k := Nat.count_iff_forall.mpr fun _ _ => trivial
  have hticks := (b.prescaler top).count_tick k
  rw [hall] at hticks
  rw [level_running, hticks]
  rfl

/-- From zero, the first half-period is a whole one. -/
theorem level_running_zero (k : ℕ) : ((⟨0, b.level⟩ : Blinker w).running top k).level =
    (b.level ^^ decide (k / (top.toNat + 1) % 2 = 1)) := by
  have hleft : (⟨0, b.level⟩ : Blinker w).left top = top.toNat := by
    rw [left, sub_zero]
  rw [level_running_eq, hleft]
  congr 3
  split
  · rename_i hk
    rw [Nat.div_eq_of_lt (Nat.lt_succ_of_le hk)]
  · rename_i hk
    have hsplit : k = k - top.toNat - 1 + (top.toNat + 1) := by omega
    conv_rhs => rw [hsplit, Nat.add_div_right _ (Nat.succ_pos _)]

/-- From power-up, with the level low. -/
theorem level_running_low (k : ℕ) : ((⟨0, false⟩ : Blinker w).running top k).level =
    decide (k / (top.toNat + 1) % 2 = 1) := by
  have hlevel := level_running_zero top ⟨0, false⟩ k
  rwa [Bool.false_xor] at hlevel

end Run

end Blinker

end Clocked
