import EmSysLab.Clocked.Run
import Mathlib.Data.Nat.Nth

/-!
# Machines with a clock enable

A machine with a clock enable stands still at every edge at which it is not enabled, so the
edges without enable can be left out of a run. A prescaler counts enabled edges and ticks
when none is left to count. Every tick is paid for with the enabled edges of one period, and
that equation decides when there are ticks and how far they are apart.
-/
namespace Clocked

variable {σ ι : Type*}

/-- How often an event happens in a run. -/
def eventsIn (step : σ → ι → σ) (event : σ → ι → Bool) : σ → List ι → ℕ
  | _, [] => 0
  | s, x :: xs => (event s x).toNat + eventsIn step event (step s x) xs

/-- The edges without enable can be left out, and no event is lost with them. -/
theorem run_filter {step : σ → ι → σ} {event : σ → ι → Bool} {enabled : ι → Bool} {A : ι → Prop}
    (hstill : ∀ s x, A x → enabled x = false → step s x = s ∧ event s x = false) (s : σ)
    {xs : List ι} (hxs : ∀ x ∈ xs, A x) :
    run step s (xs.filter enabled) = run step s xs ∧
      eventsIn step event s (xs.filter enabled) = eventsIn step event s xs := by
  induction xs generalizing s with
  | nil => exact ⟨rfl, rfl⟩
  | cons x xs ih =>
    obtain ⟨hrun, hevents⟩ := ih (step s x) fun y hy => hxs y (List.mem_cons_of_mem x hy)
    cases henabled : enabled x with
    | true =>
      rw [List.filter_cons_of_pos henabled, run_cons, run_cons, eventsIn, eventsIn, hevents]
      exact ⟨hrun, rfl⟩
    | false =>
      obtain ⟨hstep, hquiet⟩ := hstill s x (hxs x List.mem_cons_self) henabled
      rw [List.filter_cons_of_neg (by rw [henabled]; decide), run_cons, eventsIn, hquiet,
        Bool.toNat_false, Nat.zero_add]
      rw [hstep] at hrun hevents ⊢
      exact ⟨hrun, hevents⟩

/-! ## Neighbouring ticks -/

/-- The ticks `j` and `k` have no other between them. -/
structure Consecutive (tick : ℕ → Prop) (j k : ℕ) : Prop where
  lt : j < k
  first : tick j
  second : tick k
  between : ∀ i, j < i → i < k → ¬tick i

section Count

variable {tick : ℕ → Prop} [DecidablePred tick]

theorem Consecutive.count_eq {j k : ℕ} (h : Consecutive tick j k) :
    Nat.count tick k = Nat.count tick j + 1 := by
  have hsplit : k = j + 1 + (k - (j + 1)) := by have hlt := h.lt; omega
  have hnone : Nat.count (fun i => tick (j + 1 + i)) (k - (j + 1)) = 0 := by
    rw [Nat.count_iff_forall_not]
    intro i hi
    exact h.between _ (by omega) (by omega)
  rw [hsplit, Nat.count_add, hnone, Nat.count_succ, if_pos h.first]

/-- Where there are two ticks, there are neighbouring ones. -/
theorem exists_consecutive {k : ℕ} (h : 1 < Nat.count tick k) : ∃ i j, Consecutive tick i j := by
  have hcard : ∀ hfin : (Set.ofPred tick).Finite, 1 < hfin.toFinset.card :=
    fun hfin => h.trans_le (Nat.count_le_card hfin k)
  have hcard' : ∀ hfin : (Set.ofPred tick).Finite, 0 < hfin.toFinset.card :=
    fun hfin => Nat.zero_lt_one.trans (hcard hfin)
  refine ⟨Nat.nth tick 0, Nat.nth tick 1, ?_, Nat.nth_mem 0 hcard', Nat.nth_mem 1 hcard, ?_⟩
  · exact Nat.nth_lt_nth' Nat.zero_lt_one hcard
  · intro i hfirst hsecond htick
    have hlow := Nat.count_strict_mono (Nat.nth_mem 0 hcard') hfirst
    have hhigh := Nat.count_strict_mono htick hsecond
    rw [Nat.count_nth hcard'] at hlow
    rw [Nat.count_nth hcard] at hhigh
    omega

end Count

/-! ## Prescalers -/

/-- The ticks so far and the edges since the last one, from what has been paid for them. -/
theorem div_mod_of_paid {P left count rest ticks : ℕ}
    (hpaid : count + rest = left + P * (ticks + 1)) (hrest : rest < P) :
    left < count ∧ (count - left - 1) / P = ticks ∧ (count - left - 1) % P = P - 1 - rest := by
  rw [Nat.mul_succ] at hpaid
  have hsince : count - left - 1 = P * ticks + (P - 1 - rest) := by omega
  refine ⟨by omega, ?_, ?_⟩
  · rw [hsince, Nat.mul_add_div (by omega), Nat.div_eq_of_lt (by omega), Nat.add_zero]
  · rw [hsince, Nat.mul_add_mod, Nat.mod_eq_of_lt (by omega)]

/-- Before edge `k`, `left k` enabled edges are left to count until the one that ticks. -/
structure Prescaler (P : ℕ) (enabled tick : ℕ → Prop) (left : ℕ → ℕ) : Prop where
  tick_iff : ∀ k, tick k ↔ enabled k ∧ left k = 0
  reload : ∀ k, tick k → left (k + 1) + 1 = P
  count : ∀ k, enabled k → left k ≠ 0 → left (k + 1) + 1 = left k
  still : ∀ k, ¬enabled k → left (k + 1) = left k

namespace Prescaler

variable {P : ℕ} {enabled tick : ℕ → Prop} [DecidablePred enabled] [DecidablePred tick]
  {left : ℕ → ℕ} (h : Prescaler P enabled tick left)

include h

/-- **Every tick is paid for with `P` enabled edges.** -/
theorem count_enabled (k : ℕ) :
    Nat.count enabled k + left k = left 0 + P * Nat.count tick k := by
  induction k with
  | zero => simp
  | succ k ih =>
    rw [Nat.count_succ, Nat.count_succ]
    by_cases henabled : enabled k
    · by_cases hleft : left k = 0
      · have htick : tick k := (h.tick_iff k).mpr ⟨henabled, hleft⟩
        have hreload := h.reload k htick
        rw [if_pos henabled, if_pos htick, Nat.mul_add, Nat.mul_one]
        omega
      · have hcount := h.count k henabled hleft
        rw [if_pos henabled, if_neg fun htick => hleft ((h.tick_iff k).mp htick).2,
          Nat.add_zero (Nat.count tick k)]
        omega
    · rw [if_neg henabled, if_neg fun htick => henabled ((h.tick_iff k).mp htick).1,
        h.still k henabled, Nat.add_zero, Nat.add_zero]
      exact ih

theorem count_enabled_of_tick {k : ℕ} (htick : tick k) :
    Nat.count enabled k = left 0 + P * Nat.count tick k := by
  have hcount := h.count_enabled k
  rwa [((h.tick_iff k).mp htick).2] at hcount

/-- Neighbouring ticks are `P` enabled edges apart. -/
theorem count_consecutive {j k : ℕ} (hjk : Consecutive tick j k) :
    Nat.count enabled k = Nat.count enabled j + P := by
  rw [h.count_enabled_of_tick hjk.first, h.count_enabled_of_tick hjk.second, hjk.count_eq,
    Nat.mul_add, Nat.mul_one, Nat.add_assoc]

/-- From the first tick on, less than a period is left. -/
theorem left_lt (k : ℕ) (hsome : 0 < Nat.count tick k) : left k < P := by
  induction k with
  | zero => exact absurd hsome (Nat.lt_irrefl 0)
  | succ k ih =>
    by_cases htick : tick k
    · have hreload := h.reload k htick
      omega
    · rw [Nat.count_succ, if_neg htick, Nat.add_zero] at hsome
      have hbefore := ih hsome
      by_cases henabled : enabled k
      · have hleft : left k ≠ 0 := fun hzero => htick ((h.tick_iff k).mpr ⟨henabled, hzero⟩)
        have hcount := h.count k henabled hleft
        omega
      · rwa [h.still k henabled]

/-- **The number of ticks** is read off the enabled edges. -/
theorem count_tick (k : ℕ) : Nat.count tick k =
    if Nat.count enabled k ≤ left 0 then 0 else (Nat.count enabled k - left 0 - 1) / P + 1 := by
  have hpaid := h.count_enabled k
  cases hticks : Nat.count tick k with
  | zero =>
    rw [hticks, Nat.mul_zero] at hpaid
    rw [if_pos (by omega)]
  | succ d =>
    have hless := h.left_lt k (by omega)
    rw [hticks] at hpaid
    obtain ⟨hlate, hdiv, -⟩ := div_mod_of_paid hpaid hless
    rw [if_neg (Nat.not_le.mpr hlate), hdiv]

/-- A second tick needs the enabled edges left to the first, a period, and its own. -/
theorem exists_consecutive_iff :
    (∃ i j, Consecutive tick i j) ↔ ∃ k, left 0 + P < Nat.count enabled k := by
  constructor
  · rintro ⟨i, j, hij⟩
    refine ⟨j + 1, ?_⟩
    rw [Nat.count_succ, if_pos ((h.tick_iff j).mp hij.second).1, h.count_consecutive hij,
      h.count_enabled_of_tick hij.first]
    omega
  · rintro ⟨k, hk⟩
    apply exists_consecutive (k := k)
    have hcount := h.count_enabled k
    by_contra hfew
    have hle := Nat.mul_le_mul_left P (Nat.le_of_not_lt hfew)
    rw [Nat.mul_one] at hle
    omega

/-- The first tick is the enabled edge that `left` announces. -/
theorem exists_tick_iff : (∃ k, tick k) ↔ ∃ k, left 0 < Nat.count enabled k := by
  constructor
  · rintro ⟨k, hk⟩
    refine ⟨k + 1, ?_⟩
    rw [Nat.count_succ, if_pos ((h.tick_iff k).mp hk).1, h.count_enabled_of_tick hk]
    omega
  · rintro ⟨k, hk⟩
    have hcount := h.count_enabled k
    have hsome : Nat.count tick k ≠ 0 := by
      intro hnone
      rw [hnone, Nat.mul_zero] at hcount
      omega
    obtain ⟨j, -, hj⟩ := Nat.count_ne_iff_exists.mp hsome
    exact ⟨j, hj⟩

end Prescaler

/-! ## Coming to a goal -/

/-- **Rank rule.** Where enabled edges lower a rank and the others do not raise it, unless they
lead to a goal, the goal is reached within one enabled edge more than the rank is high. -/
theorem exists_goal_of_rank {enabled goal : ℕ → Prop} [DecidablePred enabled] {rank : ℕ → ℕ}
    (hrank : ∀ k, goal (k + 1) ∨ rank (k + 1) + (if enabled k then 1 else 0) ≤ rank k) {k : ℕ}
    (hk : rank 0 < Nat.count enabled k) :
    ∃ j, goal j ∧ Nat.count enabled j ≤ rank 0 + 1 := by
  have hpaid : ∀ k, (∀ j ≤ k, ¬goal j) → Nat.count enabled k + rank k ≤ rank 0 := by
    intro k
    induction k with
    | zero => simp
    | succ k ih =>
      intro hnone
      have hbefore := ih fun j hj => hnone j (Nat.le_succ_of_le hj)
      have hstep := (hrank k).resolve_left (hnone (k + 1) (Nat.le_refl _))
      rw [Nat.count_succ]
      omega
  classical
  have hgoal : ∃ j, goal j := by
    by_contra hnone
    have hall := hpaid k fun j _ hj => hnone ⟨j, hj⟩
    omega
  refine ⟨Nat.find hgoal, Nat.find_spec hgoal, ?_⟩
  cases hfirst : Nat.find hgoal with
  | zero => simp
  | succ j =>
    have hbefore := hpaid j fun i hi => Nat.find_min hgoal (by omega)
    rw [Nat.count_succ]
    split <;> omega

end Clocked
