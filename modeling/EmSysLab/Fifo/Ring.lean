import Mathlib.Data.Fin.Basic
import Mathlib.Data.List.Basic
import Mathlib.Data.Nat.ModEq
import Mathlib.Tactic.Common

/-!
# Slots of a ring

The slots of a ring of `N` buffers are numbered by all naturals, modulo `N`. Any `N`
consecutive numbers name every slot once, so the content of a ring can be described
along such a window. `rotarySearch` looks at every slot once, from a given one on.
-/
namespace Fifo

variable {N : ℕ} [NeZero N]

/-- The slot with number `k`. -/
def slot (N : ℕ) [NeZero N] (k : ℕ) : Fin N := Fin.ofNat N k

@[simp] theorem slot_val (k : ℕ) : (slot N k).val = k % N := rfl

@[simp] theorem slot_fin (i : Fin N) : slot N i = i := Fin.ext (Nat.mod_eq_of_lt i.isLt)

theorem slot_slot_add (k i : ℕ) : slot N ((slot N k).val + i) = slot N (k + i) :=
  Fin.ext (Nat.mod_add_mod k N i)

theorem slot_add_self (k : ℕ) : slot N (k + N) = slot N k := Fin.ext (Nat.add_mod_right k N)

/-- Within a window of `N` numbers a slot has one number. -/
theorem slot_inj {d j k : ℕ} (hj : j < N) (hk : k < N) (h : slot N (d + j) = slot N (d + k)) :
    j = k := by
  have hmod : (d + j) % N = (d + k) % N := congrArg Fin.val h
  have heq : j % N = k % N := Nat.ModEq.add_left_cancel' d hmod
  rwa [Nat.mod_eq_of_lt hj, Nat.mod_eq_of_lt hk] at heq

theorem slot_ne {d j k : ℕ} (hj : j < N) (hk : k < N) (h : j ≠ k) :
    slot N (d + j) ≠ slot N (d + k) := fun heq => h (slot_inj hj hk heq)

/-- Every slot has a number in the window. -/
theorem exists_slot (d : ℕ) (i : Fin N) : ∃ k < N, slot N (d + k) = i := by
  have hN : 0 < N := Nat.pos_of_neZero N
  have hd : d % N < N := Nat.mod_lt d hN
  refine ⟨(i + (N - d % N)) % N, Nat.mod_lt _ hN, Fin.ext ?_⟩
  rw [slot_val, Nat.add_mod_mod, ← Nat.mod_add_mod, show d % N + (i + (N - d % N)) = i + N by omega,
    Nat.add_mod_right, Nat.mod_eq_of_lt i.isLt]

/-- The first slot with property `p` from `start` on, once around the ring. -/
def rotarySearch (p : Fin N → Bool) (start : Fin N) : Option (Fin N) :=
  ((List.range N).map fun i => slot N (start + i)).find? p

theorem rotarySearch_start {p : Fin N → Bool} {start : Fin N} (h : p start = true) :
    rotarySearch p start = some start := by
  obtain ⟨n, hn⟩ := Nat.exists_eq_succ_of_ne_zero (NeZero.ne N)
  have hrange : List.range N = 0 :: (List.range n).map Nat.succ := by
    rw [hn, List.range_succ_eq_map]
  have hslot : slot N (start + 0) = start := slot_fin start
  rw [rotarySearch, hrange, List.map_cons, hslot, List.find?_cons_of_pos h]

theorem rotarySearch_none {p : Fin N → Bool} (start : Fin N) (h : ∀ i, p i = false) :
    rotarySearch p start = none := by
  rw [rotarySearch, List.find?_eq_none]
  intro i _
  rw [h i]
  decide

/-- What is found has the property. -/
theorem rotarySearch_some {p : Fin N → Bool} {start i : Fin N} (h : rotarySearch p start = some i) :
    p i = true := List.find?_some h

/-- Nothing found: no slot has the property. -/
theorem rotarySearch_eq_none {p : Fin N → Bool} {start : Fin N} (h : rotarySearch p start = none)
    (i : Fin N) : p i = false := by
  rw [rotarySearch, List.find?_eq_none] at h
  obtain ⟨k, hk, rfl⟩ := exists_slot start i
  exact Bool.eq_false_of_not_eq_true
    (h _ (List.mem_map.mpr ⟨k, List.mem_range.mpr hk, rfl⟩))

end Fifo
