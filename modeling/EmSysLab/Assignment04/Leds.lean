import EmSysLab.Assignment04.TopEntity
import Mathlib.Data.Nat.Count

/-!
# The LEDs and the reset of assignment_04

`TopEntity.v` shows the sign of its step counter on two LEDs and takes a button for its reset.
The counter is an unsigned register: it is at least 1 unless it is zero, and always at most -1,
which is 2^32 - 1. So one of the LEDs is on after every edge, the second one for zero. The
assignments of the reset branch are followed by others to the same registers, and those win.
-/
namespace EmSysLab.Assignment04.TopEntity

open Clocked Quadrature

/-! ## The LEDs -/

def countsUp (s : TopEntity) (x : Pins) : Bool :=
  decide ((nextState s.currentState x.dir s.steps).2 = some (s.steps + 1))

def countsDown (s : TopEntity) (x : Pins) : Bool :=
  decide ((nextState s.currentState x.dir s.steps).2 = some (s.steps - 1))

/-- The increments less the decrements of the first `k` edges. -/
def netCount (s : TopEntity) (x : ℕ → Pins) (k : ℕ) : ℤ :=
  Nat.count (fun j => (before posedgeClk s x j).countsUp (x j) = true) k -
    Nat.count (fun j => (before posedgeClk s x j).countsDown (x j) = true) k

theorem counted_eq_counts (s : TopEntity) (x : Pins) : counted s.currentState x.dir =
    (if s.countsUp x = true then 1 else 0) - if s.countsDown x = true then 1 else 0 := by
  have hdistinct : s.steps + 1#8 ≠ s.steps - 1#8 := by
    generalize s.steps = steps
    revert steps
    decide
  unfold countsUp countsDown
  rcases cases_bits s.currentState with h | h | h | h <;>
    rcases cases_bits x.dir with hdir | hdir | hdir | hdir <;>
      rw [h, hdir] <;> simp [nextState, counted, delta, next, hdistinct, hdistinct.symm]

/-- The counter is the net count, modulo its width. -/
theorem before_steps {s : TopEntity} (hs : s.PowerUp) {x : ℕ → Pins} {k : ℕ}
    (hx : ∀ j < k, (x j).btn1 = false) :
    (before posedgeClk s x k).steps = BitVec.ofInt 8 (netCount s x k) := by
  induction k with
  | zero => exact hs.steps
  | succ k ih =>
    have hprev := ih fun j hj => hx j (Nat.lt_succ_of_lt hj)
    rw [before_succ, posedgeClk_steps _ (hx k (Nat.lt_succ_self k)), hprev, ← BitVec.ofInt_add,
      counted_eq_counts]
    congr 1
    unfold netCount
    rw [Nat.count_succ, Nat.count_succ]
    push_cast
    ring

/-- The first LED is on for every count but zero, the second one for zero. -/
theorem leds_posedgeClk (s : TopEntity) (x : Pins) :
    (s.posedgeClk x).led1 = decide (s.steps ≠ 0) ∧
      (s.posedgeClk x).led2 = decide (s.steps = 0) := by
  have hcompare : ∀ v : BitVec 8,
      decide (v.setWidth 32 / stepsPerRevolution ≥ 1) = decide (v ≠ 0) ∧
        (!decide (v.setWidth 32 / stepsPerRevolution ≥ 1) &&
          decide (v.setWidth 32 / stepsPerRevolution ≤ -1)) = decide (v = 0) := by decide
  exact hcompare s.steps

/-- The LEDs show the sign of `net`. -/
structure LedsShow (net : ℤ) (s : TopEntity) : Prop where
  led1 : s.led1 = true ↔ 0 < net
  led2 : s.led2 = true ↔ net < 0
  off : s.led1 = false ∧ s.led2 = false ↔ net = 0

theorem ledsShow_iff {s : TopEntity} {x : Pins} {net : ℤ} (hsteps : s.steps = BitVec.ofInt 8 net)
    (hlow : -128 ≤ net) (hhigh : net ≤ 127) : LedsShow net (s.posedgeClk x) ↔ 0 < net := by
  have hzero : s.steps = 0 ↔ net = 0 := by
    rw [hsteps, show (0 : BitVec 8) = BitVec.ofInt 8 0 from rfl, ofInt_eq_iff]
    omega
  have hled1 : (s.posedgeClk x).led1 = true ↔ net ≠ 0 := by
    rw [(leds_posedgeClk s x).1, decide_eq_true_iff, ne_eq, hzero]
  have hled2 : (s.posedgeClk x).led2 = true ↔ net = 0 := by
    rw [(leds_posedgeClk s x).2, decide_eq_true_iff, hzero]
  constructor
  · intro h
    have hpos := h.led1
    have hneg := h.led2
    rw [hled1] at hpos
    rw [hled2] at hneg
    omega
  · intro hnet
    refine ⟨?_, ?_, ?_⟩
    · rw [hled1]
      omega
    · rw [hled2]
      omega
    · rw [← Bool.not_eq_true, ← Bool.not_eq_true, hled1, hled2]
      omega

/-- **The LEDs.** As long as the net count fits the counter, the LEDs show its sign after an
edge exactly if it is positive; after the first edge of a run they never do. -/
theorem ledsShow_netCount_iff (s : TopEntity) (hs : s.PowerUp) (x : ℕ → Pins) (n : ℕ)
    (hx : ∀ k ≤ n, (x k).btn1 = false)
    (hrange : ∀ k ≤ n, -128 ≤ netCount s x k ∧ netCount s x k ≤ 127) :
    (∀ k ≤ n, LedsShow (netCount s x k) (before posedgeClk s x (k + 1)) ↔ 0 < netCount s x k) ∧
      ¬∀ k ≤ n, LedsShow (netCount s x k) (before posedgeClk s x (k + 1)) := by
  have hpoint : ∀ k ≤ n,
      (LedsShow (netCount s x k) (before posedgeClk s x (k + 1)) ↔ 0 < netCount s x k) := by
    intro k hk
    have hsteps := before_steps hs fun j hj => hx j (Nat.le_trans (Nat.le_of_lt hj) hk)
    exact ledsShow_iff hsteps (hrange k hk).1 (hrange k hk).2
  refine ⟨hpoint, fun hall => ?_⟩
  have hfirst := (hpoint 0 (Nat.zero_le n)).mp (hall 0 (Nat.zero_le n))
  exact absurd hfirst (by simp [netCount])

/-- Two steps forward and one back. -/
theorem ledsShow_forward :
    LedsShow 1 (before posedgeClk cleared (turn [0b10, 0b11] 0b10) 5) := by
  obtain ⟨hshow, -⟩ := ledsShow_netCount_iff cleared powerUp_cleared (turn [0b10, 0b11] 0b10) 4
    (fun _ _ => rfl) (by decide)
  exact (hshow 4 (by decide)).mpr (by decide)

/-- No step lights the LED for backward, and one step backward that for forward. -/
theorem ledsShow_backward :
    cleared.PowerUp ∧ netCount cleared (turn [0b01] 0b01) 0 = 0 ∧
      (before posedgeClk cleared (turn [0b01] 0b01) 1).led2 = true ∧
      netCount cleared (turn [0b01] 0b01) 1 = -1 ∧
      (before posedgeClk cleared (turn [0b01] 0b01) 2).led1 = true ∧
      (before posedgeClk cleared (turn [0b01] 0b01) 2).led2 = false ∧
      ¬LedsShow (netCount cleared (turn [0b01] 0b01) 1)
        (before posedgeClk cleared (turn [0b01] 0b01) 2) := by
  refine ⟨powerUp_cleared, by decide, by decide, by decide, by decide, by decide, fun h => ?_⟩
  exact absurd (h.led1.mp (by decide)) (by decide)

/-! ## The reset -/

/-- The state that a reset is to lead to: that of power-up, with both LEDs off. -/
structure IsReset (s : TopEntity) : Prop where
  powerUp : s.PowerUp
  led1 : s.led1 = false
  led2 : s.led2 = false

/-- There is nothing to reset but the previous registers, and the lines do not take a step. -/
structure AtRest (s : TopEntity) (x : Pins) : Prop where
  currentState : s.currentState = 0b00
  steps : s.steps = 0
  dir : x.dir ≠ 0b10 ∧ x.dir ≠ 0b01

theorem powerUp_posedgeClk_iff (s : TopEntity) {x : Pins} (hx : x.btn1 = true) :
    PowerUp (s.posedgeClk x) ↔ AtRest s x := by
  constructor
  · intro h
    have hstate : s.currentState = 0b00 := h.previousState
    have hnext : (nextState s.currentState x.dir s.steps).1 = 0b00 := h.currentState
    rw [hstate] at hnext
    refine ⟨hstate, h.previousSteps, ?_, ?_⟩
    · intro hdir
      rw [hdir] at hnext
      exact absurd (show (0b10 : BitVec 2) = 0b00 from hnext) (by decide)
    · intro hdir
      rw [hdir] at hnext
      exact absurd (show (0b01 : BitVec 2) = 0b00 from hnext) (by decide)
  · intro h
    have hnext : nextState s.currentState x.dir s.steps = (0b00, none) := by
      rw [h.currentState, nextState, if_pos rfl, if_neg h.dir.1, if_neg h.dir.2]
    constructor
    · exact congrArg Prod.fst hnext
    · exact h.currentState
    · simp only [posedgeClk, hnext, hx]
      rfl
    · exact h.steps

/-- One of the LEDs is on after every edge, so that no edge makes it a reset. -/
theorem not_isReset_posedgeClk (s : TopEntity) (x : Pins) : ¬IsReset (s.posedgeClk x) := by
  intro h
  have hled1 := h.led1
  have hled2 := h.led2
  rw [(leds_posedgeClk s x).1, decide_eq_false_iff_not, not_not] at hled1
  rw [(leds_posedgeClk s x).2, decide_eq_false_iff_not] at hled2
  exact hled2 hled1

/-- **The reset.** In no run does an edge with the button pressed lead to the reset state. The
registers other than the LEDs get there exactly if they are there already, but for the previous
ones, and the lines do not take a step. -/
theorem button_does_not_reset (s : TopEntity) (x : ℕ → Pins) (k : ℕ) (hx : (x k).btn1 = true) :
    ¬IsReset (before posedgeClk s x (k + 1)) ∧
      (PowerUp (before posedgeClk s x (k + 1)) ↔ AtRest (before posedgeClk s x k) (x k)) :=
  ⟨not_isReset_posedgeClk _ _, powerUp_posedgeClk_iff _ hx⟩

/-- The lines take a step to 10, and then the button is pressed. -/
def pressed : ℕ → Pins
  | 0 => ⟨false, true, false⟩
  | _ => ⟨true, true, false⟩

theorem button_pressed :
    ¬IsReset (before posedgeClk cleared pressed 3) ∧
      ¬PowerUp (before posedgeClk cleared pressed 3) := by
  obtain ⟨hleds, hstate⟩ := button_does_not_reset cleared pressed 2 rfl
  refine ⟨hleds, fun h => ?_⟩
  exact absurd (hstate.mp h).currentState (by decide)

/-- The counter is cleared and nothing else. -/
theorem button_clears_steps :
    cleared.PowerUp ∧ (pressed 1).btn1 = true ∧
      before posedgeClk cleared pressed 2 = ⟨true, false, 0b10, 0b10, 0, 1⟩ ∧
      ¬IsReset (before posedgeClk cleared pressed 2) :=
  ⟨powerUp_cleared, rfl, by decide, not_isReset_posedgeClk _ _⟩

end EmSysLab.Assignment04.TopEntity
