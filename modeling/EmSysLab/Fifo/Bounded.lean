import Mathlib.Data.List.Infix
import Mathlib.Tactic.Common

/-!
# A bounded FIFO with one server

An offered element is accepted while fewer than `cap` are waiting or in service and
dropped otherwise; the server takes the oldest waiting element and finishes it before
the next. The events of any run then tell one story: finished elements are the first
started ones, started elements the first accepted ones, all in order of acceptance.
-/
namespace Fifo

inductive Event (α : Type*) where
  | accepted (a : α)
  | dropped
  | started (a : α)
  | finished (a : α)
  deriving DecidableEq, Repr

namespace Event

variable {α : Type*}

/-- The elements accepted in a list of events, in order. -/
def acceptedOf (es : List (Event α)) : List α :=
  es.filterMap fun | .accepted a => some a | _ => none

def startedOf (es : List (Event α)) : List α :=
  es.filterMap fun | .started a => some a | _ => none

def finishedOf (es : List (Event α)) : List α :=
  es.filterMap fun | .finished a => some a | _ => none

@[simp] theorem acceptedOf_append (es es' : List (Event α)) :
    acceptedOf (es ++ es') = acceptedOf es ++ acceptedOf es' := List.filterMap_append

@[simp] theorem startedOf_append (es es' : List (Event α)) :
    startedOf (es ++ es') = startedOf es ++ startedOf es' := List.filterMap_append

@[simp] theorem finishedOf_append (es es' : List (Event α)) :
    finishedOf (es ++ es') = finishedOf es ++ finishedOf es' := List.filterMap_append

@[simp] theorem acceptedOf_singleton (e : Event α) :
    acceptedOf [e] = match e with | .accepted a => [a] | _ => [] := by
  cases e <;> rfl

@[simp] theorem startedOf_singleton (e : Event α) :
    startedOf [e] = match e with | .started a => [a] | _ => [] := by
  cases e <;> rfl

@[simp] theorem finishedOf_singleton (e : Event α) :
    finishedOf [e] = match e with | .finished a => [a] | _ => [] := by
  cases e <;> rfl

end Event

/-! ## Runs with events -/

section Runs

variable {σ τ ι κ ε : Type*}

/-- The state and the events after a list of actions. -/
def exec (step : σ → ι → σ × Option ε) : σ → List ι → σ × List ε
  | s, [] => (s, [])
  | s, x :: xs =>
    ((exec step (step s x).1 xs).1, (step s x).2.toList ++ (exec step (step s x).1 xs).2)

@[simp] theorem exec_nil (step : σ → ι → σ × Option ε) (s : σ) : exec step s [] = (s, []) := rfl

@[simp] theorem exec_cons (step : σ → ι → σ × Option ε) (s : σ) (x : ι) (xs : List ι) :
    exec step s (x :: xs) =
      ((exec step (step s x).1 xs).1, (step s x).2.toList ++ (exec step (step s x).1 xs).2) := rfl

/-- **Simulation.** If matched actions keep two states related and raise the same event,
whole runs do. -/
theorem exec_simulation {step : σ → ι → σ × Option ε} {step' : τ → κ → τ × Option ε}
    {R : σ → τ → Prop} (f : ι → κ)
    (hstep : ∀ s t x, R s t → R (step s x).1 (step' t (f x)).1 ∧ (step s x).2 = (step' t (f x)).2)
    {s : σ} {t : τ} (h : R s t) (xs : List ι) :
    R (exec step s xs).1 (exec step' t (xs.map f)).1 ∧
      (exec step s xs).2 = (exec step' t (xs.map f)).2 := by
  induction xs generalizing s t with
  | nil => exact ⟨h, rfl⟩
  | cons x xs ih =>
    obtain ⟨hrel, hevent⟩ := hstep s t x h
    obtain ⟨hrel', hevents⟩ := ih hrel
    refine ⟨hrel', ?_⟩
    rw [exec_cons, List.map_cons, exec_cons, hevent, hevents]

end Runs

/-! ## The queue -/

/-- The element in service and those waiting, never more than `cap` together. -/
structure Bounded (α : Type*) (cap : ℕ) where
  serving : Option α
  queue : List α
  load_le : (serving.toList ++ queue).length ≤ cap

inductive Op (α : Type*) where
  | offer (a : α)
  /-- The server's next move: finish what it serves, else start the oldest element. -/
  | next
  | skip

namespace Bounded

open Event

variable {α : Type*} {cap : ℕ}

def empty (α : Type*) (cap : ℕ) : Bounded α cap := ⟨none, [], Nat.zero_le cap⟩

/-- Everything accepted and not finished, oldest first. -/
def items (q : Bounded α cap) : List α := q.serving.toList ++ q.queue

def load (q : Bounded α cap) : ℕ := q.items.length

theorem serving_le_load (q : Bounded α cap) : q.serving.toList.length ≤ q.load := by
  rw [load, items, List.length_append]
  exact Nat.le_add_right _ _

def step : Bounded α cap → Op α → Bounded α cap × Option (Event α)
  | ⟨serving, queue, h⟩, .offer a =>
    if hl : (serving.toList ++ queue).length < cap then
      (⟨serving, queue ++ [a], by simp only [List.length_append, List.length_singleton] at *; omega⟩,
        some (.accepted a))
    else (⟨serving, queue, h⟩, some .dropped)
  | ⟨some a, queue, h⟩, .next =>
    (⟨none, queue, Nat.le_of_succ_le h⟩, some (.finished a))
  | ⟨none, [], h⟩, .next => (⟨none, [], h⟩, none)
  | ⟨none, a :: queue, h⟩, .next => (⟨some a, queue, h⟩, some (.started a))
  | q, .skip => (q, none)

theorem step_skip (q : Bounded α cap) : q.step .skip = (q, none) := by
  obtain ⟨serving, queue, h⟩ := q
  cases serving <;> cases queue <;> rfl

theorem step_offer (q : Bounded α cap) (a : α) (h : q.load < cap) :
    ∃ q', q.step (.offer a) = (q', some (.accepted a)) ∧ q'.serving = q.serving ∧
      q'.items = q.items ++ [a] := by
  obtain ⟨serving, queue, hload⟩ := q
  exact ⟨_, dif_pos h, rfl, (List.append_assoc _ _ _).symm⟩

theorem step_offer_full (q : Bounded α cap) (a : α) (h : ¬q.load < cap) :
    q.step (.offer a) = (q, some .dropped) := by
  obtain ⟨serving, queue, hload⟩ := q
  exact dif_neg h

/-- An idle server only moves an element from the queue into service. -/
theorem items_step_next {q : Bounded α cap} (h : q.serving = none) :
    (q.step .next).1.items = q.items := by
  obtain ⟨serving, queue, hload⟩ := q
  cases h
  cases queue <;> rfl

/-- A busy one finishes what it serves. -/
theorem items_step_finish {q : Bounded α cap} {a : α} (h : q.serving = some a) :
    (q.step .next).1.items = q.queue := by
  obtain ⟨serving, queue, hload⟩ := q
  cases h
  rfl

/-- The events account for every accepted element. -/
structure Accounts (q : Bounded α cap) (es : List (Event α)) : Prop where
  started : startedOf es = finishedOf es ++ q.serving.toList
  accepted : acceptedOf es = startedOf es ++ q.queue

namespace Accounts

variable {q : Bounded α cap} {es : List (Event α)}

theorem nil : Accounts (empty α cap) [] := ⟨rfl, rfl⟩

theorem step (h : Accounts q es) (o : Op α) :
    Accounts (q.step o).1 (es ++ (q.step o).2.toList) := by
  obtain ⟨serving, queue, hload⟩ := q
  obtain ⟨hstarted, haccepted⟩ := h
  cases o with
  | offer a =>
    simp only [Bounded.step]
    split
    · constructor
      · simpa using hstarted
      · simp [haccepted]
    · constructor
      · simpa using hstarted
      · simpa using haccepted
  | next =>
    match serving, queue with
    | some a, queue =>
      constructor
      · simpa [Bounded.step] using hstarted
      · simpa [Bounded.step] using haccepted
    | none, [] =>
      constructor
      · simpa [Bounded.step] using hstarted
      · simpa [Bounded.step] using haccepted
    | none, a :: queue =>
      constructor
      · simpa [Bounded.step] using hstarted
      · simpa [Bounded.step] using haccepted
  | skip =>
    constructor
    · simpa [Bounded.step] using hstarted
    · simpa [Bounded.step] using haccepted

/-- **Every run accounts for what it accepted.** -/
theorem run (h : Accounts q es) (os : List (Op α)) :
    Accounts (exec Bounded.step q os).1 (es ++ (exec Bounded.step q os).2) := by
  induction os generalizing q es with
  | nil => rwa [exec_nil, List.append_nil]
  | cons o os ih =>
    rw [exec_cons, ← List.append_assoc]
    exact ih (h.step o)

/-- The load is what was accepted and not finished. -/
theorem load_eq (h : Accounts q es) :
    (acceptedOf es).length = (finishedOf es).length + q.load := by
  rw [h.accepted, h.started, load, items]
  simp only [List.length_append]
  omega

theorem started_prefix (h : Accounts q es) : startedOf es <+: acceptedOf es :=
  ⟨q.queue, h.accepted.symm⟩

theorem finished_prefix (h : Accounts q es) : finishedOf es <+: acceptedOf es :=
  (List.prefix_append _ _).trans (h.started ▸ h.started_prefix)

end Accounts

/-- The server moves still needed to empty the queue. -/
def work (q : Bounded α cap) : ℕ := 2 * q.queue.length + q.serving.toList.length

theorem work_le (q : Bounded α cap) : q.work ≤ 2 * cap := by
  have h := q.load_le
  rw [List.length_append] at h
  unfold work
  omega

theorem work_next (q : Bounded α cap) : (q.step .next).1.work = q.work - 1 := by
  obtain ⟨serving, queue, hload⟩ := q
  match serving, queue with
  | some a, queue => simp [step, work]
  | none, [] => rfl
  | none, a :: queue =>
    simp only [step, work, List.length_cons, Option.toList, List.length_nil]
    omega

/-- **Nothing is lost.** Enough server moves hand over everything accepted before. -/
theorem Accounts.drained {q : Bounded α cap} {es : List (Event α)} (h : Accounts q es) {n : ℕ}
    (hn : 2 * cap ≤ n) :
    startedOf (es ++ (exec Bounded.step q (List.replicate n .next)).2) =
      acceptedOf (es ++ (exec Bounded.step q (List.replicate n .next)).2) := by
  have hwork : ∀ m (q : Bounded α cap),
      (exec Bounded.step q (List.replicate m .next)).1.work = q.work - m := by
    intro m
    induction m with
    | zero => exact fun _ => rfl
    | succ m ih =>
      intro q
      rw [List.replicate_succ, exec_cons, ih, work_next]
      omega
  have hempty : (exec Bounded.step q (List.replicate n .next)).1.queue = [] := by
    have hdone := hwork n q
    have hle := q.work_le
    rw [work] at hdone
    exact List.length_eq_zero_iff.mp (by omega)
  rw [(h.run _).accepted, hempty, List.append_nil]

end Bounded

end Fifo
