import Mathlib.Logic.Relation
import Mathlib.Tactic.Common

/-!
# Interleaved steps

A program of several threads is a partial step function: an action names whose step it is,
and `none` says that it cannot be taken. `Reaches` collects the states of all interleavings
whose steps are allowed; what every allowed step keeps holds in all of them.
-/
namespace Interleaving

variable {σ α : Type*} {step : σ → α → Option σ} {allowed : σ → α → Prop} {s t u : σ}

/-- From `s` to `t` by one allowed step. -/
def Steps (step : σ → α → Option σ) (allowed : σ → α → Prop) (s t : σ) : Prop :=
  ∃ a, allowed s a ∧ step s a = some t

/-- From `s` to `t` by any number of allowed steps. -/
abbrev Reaches (step : σ → α → Option σ) (allowed : σ → α → Prop) : σ → σ → Prop :=
  Relation.ReflTransGen (Steps step allowed)

/-- From `s` to `t` by any steps at all. -/
abbrev Reachable (step : σ → α → Option σ) : σ → σ → Prop := Reaches step fun _ _ => True

namespace Reaches

theorem single {a : α} (ha : allowed s a) (h : step s a = some t) : Reaches step allowed s t :=
  Relation.ReflTransGen.single ⟨a, ha, h⟩

/-- What every allowed step keeps holds in every state reached. -/
theorem invariant {P : σ → Prop} (h : Reaches step allowed s t)
    (hstep : ∀ s a t, allowed s a → step s a = some t → P s → P t) (hs : P s) : P t := by
  induction h with
  | refl => exact hs
  | tail _ hlast ih =>
    obtain ⟨a, ha, hlast⟩ := hlast
    exact hstep _ a _ ha hlast ih

theorem reachable (h : Reaches step allowed s t) : Reachable step s t :=
  Relation.ReflTransGen.mono (fun _ _ ⟨a, _, hstep⟩ => ⟨a, trivial, hstep⟩) _ _ h

end Reaches

/-- The state after a list of actions, if all of them can be taken. -/
def runs (step : σ → α → Option σ) (s : σ) (as : List α) : Option σ := as.foldlM step s

/-- A list of actions leads to a reachable state. -/
theorem reachable_of_runs {as : List α} (h : runs step s as = some t) : Reachable step s t := by
  induction as generalizing s with
  | nil =>
    obtain rfl := Option.some.inj h
    exact .refl
  | cons a as ih =>
    rw [runs, List.foldlM_cons, Option.bind_eq_bind, Option.bind_eq_some_iff] at h
    obtain ⟨u, hstep, hrest⟩ := h
    exact .head ⟨a, trivial, hstep⟩ (ih hrest)

end Interleaving
