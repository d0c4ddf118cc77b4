import EmSysLab.Clocked.Run
import EmSysLab.Quadrature.Displacement
import Mathlib.Data.List.GetD

/-!
# The rotation counter of assignment_04

`TopEntity.v`: a state machine that follows the two direction lines and counts their
changes, without a synchroniser. The transitions out of state 01 count the wrong way: the
step to 11 goes up and the step to 00 goes down, where `Encoder.v` has it the other way
round. So the counter is two off for every time the lines leave 01.
-/
namespace EmSysLab.Assignment04

open Clocked Quadrature

structure Pins where
  btn1 : Bool
  pitchDirA : Bool
  pitchDirB : Bool
  deriving DecidableEq, Repr

def Pins.dir (x : Pins) : BitVec 2 := BitVec.ofBool x.pitchDirA ++ BitVec.ofBool x.pitchDirB

structure TopEntity where
  led1 : Bool
  led2 : Bool
  currentState : BitVec 2
  previousState : BitVec 2
  steps : BitVec 8
  previousSteps : BitVec 8
  deriving DecidableEq, Repr

namespace TopEntity

def stepsPerRevolution : BitVec 32 := 1

/-- The case statement: the state it assigns, and the counter where it assigns one. -/
def nextState (currentState dir : BitVec 2) (steps : BitVec 8) : BitVec 2 × Option (BitVec 8) :=
  if currentState = 0b00 then
    if dir = 0b10 then (0b10, some (steps + 1))
    else if dir = 0b01 then (0b01, some (steps - 1))
    else (0b00, none)
  else if currentState = 0b01 then
    if dir = 0b11 then (0b11, some (steps + 1))
    else if dir = 0b00 then (0b00, some (steps - 1))
    else (0b01, none)
  else if currentState = 0b10 then
    if dir = 0b00 then (0b00, some (steps - 1))
    else if dir = 0b11 then (0b11, some (steps + 1))
    else (0b10, none)
  else if currentState = 0b11 then
    if dir = 0b01 then (0b01, some (steps + 1))
    else if dir = 0b10 then (0b10, some (steps - 1))
    else (0b11, none)
  else (0b00, none)

/-- One rising edge of clk. The last assignment to a register wins, so of the reset branch
only the cleared counter can survive, and only where the case statement assigns none. -/
def posedgeClk (s : TopEntity) (x : Pins) : TopEntity where
  currentState := (nextState s.currentState x.dir s.steps).1
  previousState := s.currentState
  steps := (nextState s.currentState x.dir s.steps).2.getD (if x.btn1 then 0 else s.steps)
  previousSteps := s.steps
  -- the comparisons are made in 32 unsigned bits, where -1 is the largest number
  led1 := decide (s.steps.setWidth 32 / stepsPerRevolution ≥ 1)
  led2 := !decide (s.steps.setWidth 32 / stepsPerRevolution ≥ 1) &&
    decide (s.steps.setWidth 32 / stepsPerRevolution ≤ -1)

/-- The registers declared with a value hold it; the LEDs hold anything. -/
structure PowerUp (s : TopEntity) : Prop where
  currentState : s.currentState = 0b00
  previousState : s.previousState = 0b00
  steps : s.steps = 0
  previousSteps : s.previousSteps = 0

/-- Power-up with the LEDs off. -/
def cleared : TopEntity := ⟨false, false, 0, 0, 0, 0⟩

theorem powerUp_cleared : cleared.PowerUp := ⟨rfl, rfl, rfl, rfl⟩

/-! ## One edge -/

/-- What the case statement adds to the counter. -/
def counted (a b : BitVec 2) : ℤ := if a = 0b01 then -delta a b else delta a b

theorem nextState_steps (a b : BitVec 2) (steps : BitVec 8) :
    (nextState a b steps).2.getD steps = steps + BitVec.ofInt 8 (counted a b) := by
  have hsub : steps - 1#8 = steps + BitVec.ofInt 8 (-1) := by
    rw [BitVec.sub_eq_add_neg, BitVec.ofInt_neg]
    rfl
  rcases cases_bits a with rfl | rfl | rfl | rfl <;> rcases cases_bits b with rfl | rfl | rfl | rfl <;>
    simp [nextState, counted, delta, next, hsub]

theorem nextState_currentState : ∀ (a b : BitVec 2) (steps : BitVec 8), b ≠ ~~~a →
    (nextState a b steps).1 = b := by
  intro a b steps
  rcases cases_bits a with rfl | rfl | rfl | rfl <;> rcases cases_bits b with rfl | rfl | rfl | rfl <;>
    simp [nextState]

theorem posedgeClk_steps (s : TopEntity) {x : Pins} (hx : x.btn1 = false) :
    (s.posedgeClk x).steps = s.steps + BitVec.ofInt 8 (counted s.currentState x.dir) := by
  rw [← nextState_steps]
  simp only [posedgeClk, hx, Bool.false_eq_true, if_false]

/-! ## Runs along a trajectory -/

/-- `P` is a position sequence for these pins: it starts at zero, never moves by more than
one, and the lines show it modulo four. -/
structure Turning (x : ℕ → Pins) (P : ℕ → ℤ) : Prop where
  btn1 : ∀ k, (x k).btn1 = false
  start : P 0 = 0
  phase : ∀ k, P k % 4 = phase (x k).dir
  step : ∀ k, |P (k + 1) - P k| ≤ 1

/-- How often the lines have gone from 01 straight to `b` by edge `k`. -/
def exits (x : ℕ → Pins) (b : BitVec 2) (k : ℕ) : ℕ :=
  ((Finset.range k).filter fun j => (x j).dir = 0b01 ∧ (x (j + 1)).dir = b).card

theorem exits_succ (x : ℕ → Pins) (b : BitVec 2) (k : ℕ) : exits x b (k + 1) =
    exits x b k + if (x k).dir = 0b01 ∧ (x (k + 1)).dir = b then 1 else 0 := by
  unfold exits
  rw [Finset.range_add_one, Finset.filter_insert]
  split
  · rw [Finset.card_insert_of_notMem (by simp)]
  · rfl

theorem counted_eq : ∀ a b : BitVec 2, counted a b = delta a b -
    2 * ((if a = 0b01 ∧ b = 0b00 then 1 else 0) - (if a = 0b01 ∧ b = 0b11 then 1 else 0)) := by
  decide

theorem phase_not : ∀ a : BitVec 2, (phase (~~~a) - phase a) % 4 = 2 := by decide

namespace Turning

variable {x : ℕ → Pins} {P : ℕ → ℤ} (h : Turning x P)

include h

/-- Along a trajectory the lines never change both at once. -/
theorem dir_succ (k : ℕ) : (x (k + 1)).dir ≠ ~~~(x k).dir := by
  intro hflip
  have hp := h.phase k
  have hq := h.phase (k + 1)
  have hskip := phase_not (x k).dir
  have hstep := h.step k
  rw [hflip] at hq
  rw [Int.abs_le_one_iff] at hstep
  omega

theorem dir_zero : (x 0).dir = 0b00 := by
  have hphase := h.phase 0
  rw [h.start] at hphase
  have hzero : ∀ a : BitVec 2, Quadrature.phase a = 0 → a = 0b00 := by decide
  exact hzero _ hphase.symm

/-- **The state follows the lines, and the counter the position**, but for two for every exit
from 01. -/
theorem before_eq {s : TopEntity} (hs : s.PowerUp) (k : ℕ) :
    (before posedgeClk s x (k + 1)).currentState = (x k).dir ∧
      (before posedgeClk s x (k + 1)).steps =
        BitVec.ofInt 8 (P k - 2 * ((exits x 0b00 k : ℤ) - exits x 0b11 k)) := by
  induction k with
  | zero =>
    have hdir := h.dir_zero
    rw [before_succ, before_zero, posedgeClk_steps s (h.btn1 0), hs.currentState, hs.steps, hdir,
      h.start]
    constructor
    · simp only [posedgeClk, hs.currentState, hdir]
      rfl
    · rfl
  | succ k ih =>
    obtain ⟨hstate, hsteps⟩ := ih
    rw [before_succ]
    constructor
    · simp only [posedgeClk, hstate]
      exact nextState_currentState _ _ _ (h.dir_succ k)
    · have hdelta := delta_of_position (h.phase k) (h.phase (k + 1)) (h.step k)
      rw [posedgeClk_steps _ (h.btn1 (k + 1)), hstate, hsteps, ← BitVec.ofInt_add, counted_eq,
        hdelta, exits_succ, exits_succ]
      congr 1
      push_cast
      ring

end Turning

/-- While the lines stay at 01 once they are there, nothing is counted wrong. -/
theorem exits_eq_zero {x : ℕ → Pins} {k : ℕ}
    (hstay : ∀ j < k, (x j).dir = 0b01 → (x (j + 1)).dir = 0b01) {b : BitVec 2} (hb : b ≠ 0b01) :
    exits x b k = 0 := by
  unfold exits
  rw [Finset.card_eq_zero, Finset.filter_eq_empty_iff]
  rintro j hj ⟨hdir, hnext⟩
  rw [Finset.mem_range] at hj
  exact hb (hnext.symm.trans (hstay j hj hdir))

theorem ofInt_eq_iff {a b : ℤ} : BitVec.ofInt 8 a = BitVec.ofInt 8 b ↔ (256 : ℤ) ∣ a - b := by
  rw [← BitVec.toNat_inj, BitVec.toNat_ofInt, BitVec.toNat_ofInt]
  omega

namespace Turning

variable {x : ℕ → Pins} {P : ℕ → ℤ} (h : Turning x P) {s : TopEntity} (hs : s.PowerUp)

include h hs

theorem steps_iff (k : ℕ) : (before posedgeClk s x (k + 1)).steps = BitVec.ofInt 8 (P k) ↔
    (128 : ℤ) ∣ (exits x 0b00 k : ℤ) - exits x 0b11 k := by
  rw [(h.before_eq hs k).2, ofInt_eq_iff]
  omega

/-- The first exit from 01 makes the counter wrong. -/
theorem stays_of_steps {n : ℕ}
    (hcount : ∀ k ≤ n, (before posedgeClk s x (k + 1)).steps = BitVec.ofInt 8 (P k)) :
    ∀ k < n, (x k).dir = 0b01 → (x (k + 1)).dir = 0b01 := by
  induction n with
  | zero => exact fun k hk => absurd hk (Nat.not_lt_zero k)
  | succ n ih =>
    have hstay := ih fun k hk => hcount k (Nat.le_succ_of_le hk)
    intro k hk hdir
    rcases Nat.lt_succ_iff_lt_or_eq.mp hk with hlt | rfl
    · exact hstay k hlt hdir
    have hwrong := (h.steps_iff hs (k + 1)).mp (hcount (k + 1) (Nat.le_refl _))
    rw [exits_succ, exits_succ, exits_eq_zero hstay (by decide), exits_eq_zero hstay (by decide),
      hdir] at hwrong
    have hflip := h.dir_succ k
    rw [hdir] at hflip
    revert hflip hwrong
    generalize (x (k + 1)).dir = b
    revert b
    decide

end Turning

/-- **Step counting.** The state always follows the lines. The counter is the position after
an edge exactly when the exits from 01 to 00 and to 11 before it differ by a multiple of
128, and after every edge of a run exactly when the lines never leave 01. -/
theorem topEntity_counts_iff (s : TopEntity) (hs : s.PowerUp) (x : ℕ → Pins) (P : ℕ → ℤ)
    (h : Turning x P) :
    (∀ k, (before posedgeClk s x (k + 1)).currentState = (x k).dir) ∧
      (∀ k, (before posedgeClk s x (k + 1)).steps = BitVec.ofInt 8 (P k) ↔
        (128 : ℤ) ∣ (exits x 0b00 k : ℤ) - exits x 0b11 k) ∧
      ∀ n, (∀ k ≤ n, (before posedgeClk s x (k + 1)).steps = BitVec.ofInt 8 (P k)) ↔
        ∀ k < n, (x k).dir = 0b01 → (x (k + 1)).dir = 0b01 := by
  refine ⟨fun k => (h.before_eq hs k).1, h.steps_iff hs, fun n => ⟨h.stays_of_steps hs, ?_⟩⟩
  intro hstay k hk
  have hstay' : ∀ j < k, (x j).dir = 0b01 → (x (j + 1)).dir = 0b01 :=
    fun j hj => hstay j (Nat.lt_of_lt_of_le hj hk)
  rw [h.steps_iff hs, exits_eq_zero hstay' (by decide), exits_eq_zero hstay' (by decide)]
  decide

/-- The lines at the listed levels one after the other, and then at `last` for good. -/
def turn (levels : List (BitVec 2)) (last : BitVec 2) (k : ℕ) : Pins :=
  ⟨false, (levels.getD k last).getLsbD 1, (levels.getD k last).getLsbD 0⟩

theorem dir_turn (levels : List (BitVec 2)) (last : BitVec 2) (k : ℕ) :
    (turn levels last k).dir = levels.getD k last := by
  have hbits : ∀ v : BitVec 2, BitVec.ofBool (v.getLsbD 1) ++ BitVec.ofBool (v.getLsbD 0) = v := by
    decide
  exact hbits _

/-- As many positions forward as there are levels. -/
theorem turning_turn (levels : List (BitVec 2)) (last : BitVec 2)
    (hphase : ∀ k ≤ levels.length, (k : ℤ) % 4 = phase (levels.getD k last)) :
    Turning (turn levels last) fun k => min k levels.length where
  btn1 := fun _ => rfl
  start := by simp
  phase := by
    intro k
    rw [dir_turn]
    rcases Nat.le_total k levels.length with hk | hk
    · rw [min_eq_left (by exact_mod_cast hk)]
      exact hphase k hk
    · have hlast := hphase levels.length (Nat.le_refl _)
      rw [List.getD_eq_default _ _ (Nat.le_refl _)] at hlast
      rw [min_eq_right (by exact_mod_cast hk), List.getD_eq_default _ _ hk]
      exact hlast
  step := by
    intro k
    rw [Int.abs_le_one_iff]
    push_cast
    omega

/-- Three positions forward, to where the lines stay at 01. -/
theorem topEntity_counts_three :
    (before posedgeClk cleared (turn [0b00, 0b10, 0b11] 0b01) 10).steps = 3 := by
  obtain ⟨-, -, hrun⟩ := topEntity_counts_iff cleared powerUp_cleared _ _
    (turning_turn [0b00, 0b10, 0b11] 0b01 (by decide))
  have hcount := (hrun 9).mpr (by decide) 9 (Nat.le_refl 9)
  exact hcount.trans (by decide)

/-- One full cycle forward: the position is 4, the counter 2. -/
theorem topEntity_miscounts :
    cleared.PowerUp ∧
      Turning (turn [0b00, 0b10, 0b11, 0b01] 0b00) (fun k => min (k : ℤ) 4) ∧
      (before posedgeClk cleared (turn [0b00, 0b10, 0b11, 0b01] 0b00) 5).steps = 2 ∧
      (before posedgeClk cleared (turn [0b00, 0b10, 0b11, 0b01] 0b00) 5).steps ≠
        BitVec.ofInt 8 (min ((4 : ℕ) : ℤ) 4) := by
  refine ⟨powerUp_cleared, turning_turn [0b00, 0b10, 0b11, 0b01] 0b00 (by decide), ?_, ?_⟩
  · decide
  · decide

end TopEntity

end EmSysLab.Assignment04
