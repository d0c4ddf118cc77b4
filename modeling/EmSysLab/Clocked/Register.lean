import EmSysLab.Clocked.Run
import Mathlib.Tactic.Common

/-!
# Registers with an enable

A register that takes over an input whenever that is enabled holds what the last enabled
input brought. A word with one enable for each of its bytes is such a register bit by bit.
-/
namespace Clocked

variable {σ ι α : Type*}

/-- The last of the first `k` inputs that is enabled. -/
def lastInput (enabled : ι → Bool) (x : ℕ → ι) : ℕ → Option ι
  | 0 => none
  | k + 1 => if enabled (x k) then some (x k) else lastInput enabled x k

/-- What the last enabled input brought, before any the initial value. -/
def lastValue (enabled : ι → Bool) (value : ι → α) (init : α) (x : ℕ → ι) (k : ℕ) : α :=
  ((lastInput enabled x k).map value).getD init

theorem lastValue_succ (enabled : ι → Bool) (value : ι → α) (init : α) (x : ℕ → ι) (k : ℕ) :
    lastValue enabled value init x (k + 1) =
      if enabled (x k) then value (x k) else lastValue enabled value init x k := by
  simp only [lastValue, lastInput]
  split
  · rfl
  · rfl

/-- **A register holds its last enabled input.** -/
theorem before_eq_lastValue {step : σ → ι → σ} {f : σ → α} {enabled : ι → Bool} {value : ι → α}
    (hstep : ∀ s x, f (step s x) = if enabled x then value x else f s) (s : σ) (x : ℕ → ι) (k : ℕ) :
    f (before step s x k) = lastValue enabled value (f s) x k := by
  induction k with
  | zero => rfl
  | succ k ih => rw [before_succ, hstep, lastValue_succ, ih]

/-! ## Byte enables -/

/-- The bits of a word whose byte is enabled. -/
def byteMask : {l : ℕ} → BitVec l → BitVec (8 * l)
  | 0, _ => 0
  | l + 1, byteenable =>
    byteMask (byteenable.extractLsb' 1 l) ++ (if byteenable.getLsbD 0 then BitVec.allOnes 8 else 0)

theorem getLsbD_byteMask {l : ℕ} (byteenable : BitVec l) (i : ℕ) :
    (byteMask byteenable).getLsbD i = byteenable.getLsbD (i / 8) := by
  induction l generalizing i with
  | zero => simp
  | succ l ih =>
    unfold byteMask
    rw [BitVec.getLsbD_append]
    split
    · rename_i hlow
      rw [Nat.div_eq_of_lt hlow]
      split
      · rename_i henabled
        rw [henabled, BitVec.getLsbD_allOnes, decide_eq_true hlow]
      · rename_i henabled
        rw [eq_false_of_ne_true henabled]
        exact BitVec.getLsbD_zero
    · rename_i hhigh
      have hdiv : 1 + (i - 8) / 8 = i / 8 := by omega
      rw [ih, BitVec.getLsbD_extractLsb', hdiv]
      by_cases hl : (i - 8) / 8 < l
      · rw [decide_eq_true hl, Bool.true_and]
      · rw [decide_eq_false hl, Bool.false_and]
        exact (BitVec.getLsbD_of_ge _ _ (by omega)).symm

/-- Only the enabled bytes of the new word replace those of the old. -/
def mergeBytes {l w : ℕ} (byteenable : BitVec l) (old new : BitVec w) : BitVec w :=
  (old &&& ~~~(byteMask byteenable).setWidth w) ||| (new &&& (byteMask byteenable).setWidth w)

theorem getLsbD_mergeBytes {l w : ℕ} (byteenable : BitVec l) (old new : BitVec w) (i : ℕ) :
    (mergeBytes byteenable old new).getLsbD i =
      if byteenable.getLsbD (i / 8) then new.getLsbD i else old.getLsbD i := by
  unfold mergeBytes
  rw [BitVec.getLsbD_or, BitVec.getLsbD_and, BitVec.getLsbD_and, BitVec.getLsbD_not,
    BitVec.getLsbD_setWidth, getLsbD_byteMask]
  by_cases hi : i < w
  · rw [decide_eq_true hi, Bool.true_and, Bool.true_and]
    cases byteenable.getLsbD (i / 8) with
    | true => simp
    | false => simp
  · have hw : w ≤ i := Nat.le_of_not_lt hi
    rw [BitVec.getLsbD_of_ge old i hw, BitVec.getLsbD_of_ge new i hw]
    simp

end Clocked
