import EmSysLab.Interleaving.Reaches

/-!
# What interleaved steps let be seen

Steps may be observed: an output for some of them, in the order in which they are taken.
What a step keeps true of the state and the outputs so far is true of whole runs. A bound
on the steps of one party is read off a rank which its own steps lower and which nobody
else's raise.
-/
namespace Interleaving

variable {σ α β : Type*} {step : σ → α → Option σ} {s t u : σ}

theorem runs_cons {a : α} {as : List α} (h : runs step s (a :: as) = some u) :
    ∃ t, step s a = some t ∧ runs step t as = some u := by
  rw [runs, List.foldlM_cons, Option.bind_eq_bind, Option.bind_eq_some_iff] at h
  exact h

theorem runs_append {as bs : List α} (h : runs step s (as ++ bs) = some u) :
    ∃ t, runs step s as = some t ∧ runs step t bs = some u := by
  rw [runs, List.foldlM_append, Option.bind_eq_bind, Option.bind_eq_some_iff] at h
  exact h

/-- The outputs of a list of actions, as far as they can be taken. -/
def observed (step : σ → α → Option σ) (output : σ → α → Option β) : σ → List α → List β
  | _, [] => []
  | s, a :: as =>
    match step s a with
    | none => []
    | some t => (output s a).toList ++ observed step output t as

variable {output : σ → α → Option β}

@[simp] theorem observed_nil : observed step output s [] = [] := rfl

theorem observed_cons {a : α} (h : step s a = some t) (as : List α) :
    observed step output s (a :: as) = (output s a).toList ++ observed step output t as := by
  rw [observed, h]

/-- **Run rule.** What every step keeps of the state and the outputs so far holds after
every run. -/
theorem observed_invariant {P : σ → List β → Prop}
    (hstep : ∀ s a t bs, step s a = some t → P s bs → P t (bs ++ (output s a).toList))
    {as : List α} (h : runs step s as = some t) {bs : List β} (hs : P s bs) :
    P t (bs ++ observed step output s as) := by
  induction as generalizing s bs with
  | nil =>
    obtain rfl := Option.some.inj h
    rwa [observed_nil, List.append_nil]
  | cons a as ih =>
    obtain ⟨u, ha, hrest⟩ := runs_cons h
    rw [observed_cons ha, ← List.append_assoc]
    exact ih hrest (hstep s a u bs ha hs)

/-- How many of the actions are a party's own. -/
def ownSteps (own : α → Bool) (as : List α) : ℕ := as.countP own

/-- **Rank rule.** Where a party's own steps lower a rank and no other step raises it, the
party takes no more steps than the rank. -/
theorem ownSteps_le {own : α → Bool} {rank : σ → ℕ} {P : σ → Prop}
    (hkeep : ∀ s a t, P s → step s a = some t → P t)
    (hown : ∀ s a t, P s → step s a = some t → own a = true → rank t < rank s)
    (hother : ∀ s a t, P s → step s a = some t → own a = false → rank t ≤ rank s)
    {as : List α} (h : runs step s as = some t) (hs : P s) :
    ownSteps own as + rank t ≤ rank s := by
  induction as generalizing s with
  | nil =>
    obtain rfl := Option.some.inj h
    exact Nat.le_of_eq (Nat.zero_add _)
  | cons a as ih =>
    obtain ⟨u, ha, hrest⟩ := runs_cons h
    have htail := ih hrest (hkeep s a u hs ha)
    unfold ownSteps at htail ⊢
    cases howner : own a with
    | true =>
      have hlt := hown s a u hs ha howner
      rw [List.countP_cons_of_pos howner]
      omega
    | false =>
      have hle := hother s a u hs ha howner
      rw [List.countP_cons_of_neg (by rw [howner]; decide)]
      omega

/-! ## Leaky buckets -/

/-- What is in a bucket into which an arrival pours `cost`, and out of which every step of the
server takes one. -/
def pour (own arrives : α → Bool) (cost level : ℕ) (a : α) : ℕ :=
  if arrives a then level + cost else if own a then level - 1 else level

theorem pour_le_pour {own arrives : α → Bool} {cost level level' : ℕ} (h : level ≤ level') (a : α) :
    pour own arrives cost level a ≤ pour own arrives cost level' a := by
  unfold pour
  split
  · exact Nat.add_le_add_right h cost
  · split
    · exact Nat.sub_le_sub_right h 1
    · exact h

/-- No arrival makes a bucket of this depth overflow. -/
def conforms (own arrives : α → Bool) (cost depth : ℕ) : ℕ → List α → Bool
  | _, [] => true
  | level, a :: as => (!arrives a || decide (level + cost ≤ depth)) &&
      conforms own arrives cost depth (pour own arrives cost level a) as

theorem conforms_cons {own arrives : α → Bool} {cost depth level : ℕ} {a : α} {as : List α}
    (h : conforms own arrives cost depth level (a :: as) = true) :
    (arrives a = true → level + cost ≤ depth) ∧
      conforms own arrives cost depth (pour own arrives cost level a) as = true := by
  rw [conforms, Bool.and_eq_true] at h
  refine ⟨fun ha => ?_, h.2⟩
  have hroom := h.1
  rw [ha, Bool.not_true, Bool.false_or] at hroom
  exact of_decide_eq_true hroom

end Interleaving
