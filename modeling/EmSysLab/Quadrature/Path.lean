import Mathlib.Algebra.Group.Basic
import Mathlib.Data.List.Basic
import Mathlib.Tactic.Abel

/-!
# Sums of steps along a path

A path is a list of readings and every two neighbours contribute a step. Where the step
back undoes the step forth, an excursion that is retraced contributes nothing, whatever
it passes through.
-/
namespace Path

variable {α G : Type*} [AddCommGroup G] (d : α → α → G)

/-- The steps between neighbours, added up. -/
def travel : List α → G
  | [] => 0
  | [_] => 0
  | a :: b :: l => d a b + travel (b :: l)

@[simp] theorem travel_nil : travel d [] = 0 := rfl

@[simp] theorem travel_singleton (a : α) : travel d [a] = 0 := rfl

theorem travel_cons_cons (a b : α) (l : List α) :
    travel d (a :: b :: l) = d a b + travel d (b :: l) := rfl

/-- A path splits at any reading on it. -/
theorem travel_append_cons (l m : List α) (a : α) :
    travel d (l ++ a :: m) = travel d (l ++ [a]) + travel d (a :: m) := by
  induction l with
  | nil => simp
  | cons b l ih =>
    cases l with
    | nil => rw [List.nil_append] at ih; simp [travel_cons_cons]
    | cons c l =>
      simp only [List.cons_append, travel_cons_cons] at ih ⊢
      rw [ih, add_assoc]

variable {d}

/-- **A retraced excursion sums to nothing.** -/
theorem travel_retrace (hself : ∀ x, d x x = 0) (hback : ∀ x y, d x y + d y x = 0)
    (a : α) (w : List α) : travel d (a :: (w ++ (w.reverse ++ [a]))) = 0 := by
  induction w generalizing a with
  | nil => simp [travel_cons_cons, hself]
  | cons b w ih =>
    have hsplit : a :: (b :: w ++ ((b :: w).reverse ++ [a])) =
        a :: b :: (w ++ w.reverse) ++ b :: [a] := by simp
    have hinner := ih b
    rw [← List.append_assoc] at hinner
    rw [hsplit, travel_append_cons]
    simp only [List.cons_append, travel_cons_cons, travel_singleton, add_zero]
    rw [hinner, add_zero]
    exact hback a b

/-- Inserting a retraced excursion anywhere changes no sum. -/
theorem travel_insert_retrace (hself : ∀ x, d x x = 0) (hback : ∀ x y, d x y + d y x = 0)
    (l w m : List α) (a : α) :
    travel d (l ++ a :: (w ++ (w.reverse ++ a :: m))) = travel d (l ++ a :: m) := by
  have hsplit : a :: (w ++ (w.reverse ++ a :: m)) = a :: (w ++ w.reverse) ++ a :: m := by simp
  have hmid : travel d (a :: (w ++ w.reverse) ++ a :: m) = travel d (a :: m) := by
    have hinner := travel_retrace hself hback a w
    rw [← List.append_assoc] at hinner
    rw [travel_append_cons, List.cons_append, hinner, zero_add]
  rw [travel_append_cons, hsplit, hmid, ← travel_append_cons]

end Path
