import EmSysLab.Clocked.Run

/-!
# Machines behind a synchroniser

A synchroniser is a chain of registers in front of a core: every edge pushes the
new sample in at one end and hands the oldest sample to the core. `Delayed` says
that of a machine and a core through projections; the run theorem then replaces
the machine by its core on the delayed word, for every power-up content.
-/
namespace Clocked

variable {σ τ ι : Type*}

/-- `oldest s :: younger s` are the samples in flight, oldest first, and `core`
is what the registers behind the chain do with the oldest one. -/
structure Delayed (step : σ → ι → σ) (core : τ → ι → τ) where
  view : σ → τ
  oldest : σ → ι
  younger : σ → List ι
  view_step : ∀ s x, view (step s x) = core (view s) (oldest s)
  flight_step : ∀ s x, oldest (step s x) :: younger (step s x) = younger s ++ [x]

namespace Delayed

variable {step : σ → ι → σ} {core : τ → ι → τ} (d : Delayed step core)

/-- The samples in flight, oldest first. -/
def flight (s : σ) : List ι := d.oldest s :: d.younger s

/-- The word the core consumes from state `s` on, while the pins carry `xs`. -/
def seen (s : σ) (xs : List ι) : List ι := d.flight s ++ xs

theorem seen_cons (s : σ) (x : ι) (xs : List ι) :
    d.seen s (x :: xs) = d.oldest s :: d.seen (step s x) xs := by
  change d.oldest s :: (d.younger s ++ x :: xs) =
    d.oldest s :: ((d.oldest (step s x) :: d.younger (step s x)) ++ xs)
  rw [d.flight_step, List.append_assoc]
  rfl

/-- **The synchroniser only delays.** After any run the core has consumed as many
samples as there were edges, from the word `seen` and in order. -/
theorem view_run (s : σ) (xs : List ι) :
    d.view (run step s xs) = run core (d.view s) ((d.seen s xs).take xs.length) := by
  induction xs generalizing s with
  | nil => simp
  | cons x xs ih =>
    rw [run_cons, ih, d.view_step, seen_cons, List.length_cons, List.take_succ_cons, run_cons]

/-- The same at every moment of a run. -/
theorem view_run_take (s : σ) (xs : List ι) {k : ℕ} (hk : k ≤ xs.length) :
    d.view (run step s (xs.take k)) = run core (d.view s) ((d.seen s xs).take k) := by
  rw [d.view_run, List.length_take_of_le hk]
  congr 1
  simp only [seen, List.take_append]
  rw [List.take_take, Nat.min_eq_left (Nat.sub_le _ _)]

theorem length_seen (s : σ) (xs : List ι) : (d.seen s xs).length = (d.flight s).length + xs.length :=
  List.length_append

/-- On a stream, the core starts on the first sample once the flight has passed. -/
theorem view_before (s : σ) (x : ℕ → ι) (k : ℕ) :
    d.view (before step s x (k + (d.flight s).length)) =
      before core (run core (d.view s) (d.flight s)) x k := by
  have hseen : d.seen s ((List.range (k + (d.flight s).length)).map x) =
      d.flight s ++ ((List.range k).map x ++
        (List.range (d.flight s).length).map fun j => x (k + j)) := by
    rw [List.range_add, List.map_append, List.map_map]
    rfl
  rw [before_eq_run, d.view_run, hseen, List.length_map, List.length_range, Nat.add_comm k,
    List.take_length_add_append, List.take_left' (by simp), run_append, before_eq_run]

/-- The core as it will stand once it has consumed what is in flight. -/
def drained (s : σ) : τ := run core (d.view s) (d.flight s)

/-- So drained, the core acts on the pins directly. -/
theorem drained_run (s : σ) (xs : List ι) :
    d.drained (run step s xs) = run core (d.drained s) xs := by
  have hstep : ∀ s x, d.drained (step s x) = core (d.drained s) x := by
    intro s x
    rw [drained, drained, d.view_step, flight, d.flight_step, run_append]
    rfl
  rw [run_map d.drained id hstep, List.map_id]

/-- After any run the core has consumed what was in flight, but for what is in flight now. -/
theorem view_run_flight (s : σ) (xs : List ι) {k : ℕ} (hk : xs.length = (d.flight s).length + k) :
    d.view (run step s xs) = run core (d.drained s) (xs.take k) := by
  rw [d.view_run, seen, hk, List.take_length_add_append, run_append, drained]

end Delayed

end Clocked
