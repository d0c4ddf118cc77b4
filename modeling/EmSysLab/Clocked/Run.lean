import Mathlib.Data.List.Basic

/-!
# Runs of a clocked machine

A clocked machine is a next-state function `step : σ → ι → σ`: one call is one
active clock edge, and every register reads the values it had before the edge.
`run` folds a finite word of edges, `before` gives the state just before edge `k`
of an unbounded input stream. The rules below carry an invariant, a relation
between two machines or a projection from one edge to every edge.
-/
namespace Clocked

variable {σ τ ι κ : Type*}

/-- The state reached after one edge for every input of the word. -/
def run (step : σ → ι → σ) (s : σ) (xs : List ι) : σ := xs.foldl step s

@[simp] theorem run_nil (step : σ → ι → σ) (s : σ) : run step s [] = s := rfl

@[simp] theorem run_cons (step : σ → ι → σ) (s : σ) (x : ι) (xs : List ι) :
    run step s (x :: xs) = run step (step s x) xs := rfl

@[simp] theorem run_append (step : σ → ι → σ) (s : σ) (xs ys : List ι) :
    run step s (xs ++ ys) = run step (run step s xs) ys := List.foldl_append

/-- The state just before edge `k` of an input stream. -/
def before (step : σ → ι → σ) (s : σ) (x : ℕ → ι) : ℕ → σ
  | 0 => s
  | k + 1 => step (before step s x k) (x k)

@[simp] theorem before_zero (step : σ → ι → σ) (s : σ) (x : ℕ → ι) :
    before step s x 0 = s := rfl

theorem before_succ (step : σ → ι → σ) (s : σ) (x : ℕ → ι) (k : ℕ) :
    before step s x (k + 1) = step (before step s x k) (x k) := rfl

/-- A run goes on from any of its states. -/
theorem before_add (step : σ → ι → σ) (s : σ) (x : ℕ → ι) (j k : ℕ) :
    before step s x (j + k) = before step (before step s x j) (fun i => x (j + i)) k := by
  induction k with
  | zero => rfl
  | succ k ih => rw [← Nat.add_assoc, before_succ, before_succ, ih]

/-- A stream run is the run over its first `k` inputs. -/
theorem before_eq_run (step : σ → ι → σ) (s : σ) (x : ℕ → ι) (k : ℕ) :
    before step s x k = run step s ((List.range k).map x) := by
  induction k with
  | zero => rfl
  | succ k ih =>
    rw [before_succ, ih, List.range_succ, List.map_append, run_append]
    rfl

section Rules

variable {step : σ → ι → σ} {step' : τ → κ → τ}

/-- What every edge preserves holds after every run. -/
theorem run_invariant {P : σ → Prop} (hstep : ∀ s x, P s → P (step s x))
    {s : σ} (hs : P s) (xs : List ι) : P (run step s xs) := by
  induction xs generalizing s with
  | nil => exact hs
  | cons x xs ih => exact ih (hstep s x hs)

/-- The same rule when the preserving inputs are restricted to a class. -/
theorem run_invariant_of {P : σ → Prop} {A : ι → Prop}
    (hstep : ∀ s x, A x → P s → P (step s x)) {s : σ} (hs : P s)
    {xs : List ι} (hxs : ∀ x ∈ xs, A x) : P (run step s xs) := by
  induction xs generalizing s with
  | nil => exact hs
  | cons x xs ih =>
    exact ih (hstep s x (hxs x List.mem_cons_self) hs)
      (fun y hy => hxs y (List.mem_cons_of_mem x hy))

/-- A projection that commutes with one edge commutes with every run. -/
theorem run_map (f : σ → τ) (g : ι → κ)
    (hstep : ∀ s x, f (step s x) = step' (f s) (g x)) (s : σ) (xs : List ι) :
    f (run step s xs) = run step' (f s) (xs.map g) := by
  induction xs generalizing s with
  | nil => rfl
  | cons x xs ih => rw [run_cons, ih, hstep]; rfl

theorem before_map (f : σ → τ) (g : ι → κ) (hstep : ∀ s x, f (step s x) = step' (f s) (g x))
    (s : σ) (x : ℕ → ι) (k : ℕ) :
    f (before step s x k) = before step' (f s) (fun j => g (x j)) k := by
  induction k with
  | zero => rfl
  | succ k ih => rw [before_succ, before_succ, hstep, ih]

/-- A relation between two machines that every edge keeps, each on its own inputs. -/
theorem before_related {R : ℕ → σ → τ → Prop} {s : σ} {t : τ} {x : ℕ → ι} {y : ℕ → κ}
    (h0 : R 0 s t)
    (hstep : ∀ k s t, R k s t → R (k + 1) (step s (x k)) (step' t (y k))) (k : ℕ) :
    R k (before step s x k) (before step' t y k) := by
  induction k with
  | zero => exact h0
  | succ k ih => exact hstep k _ _ ih

/-- A field that no edge changes keeps its value. -/
theorem run_frame {α : Type*} (f : σ → α) {A : ι → Prop}
    (hstep : ∀ s x, A x → f (step s x) = f s) (s : σ) {xs : List ι}
    (hxs : ∀ x ∈ xs, A x) : f (run step s xs) = f s :=
  run_invariant_of (P := fun t => f t = f s) (fun t x hx ht => (hstep t x hx).trans ht) rfl hxs

end Rules

end Clocked
