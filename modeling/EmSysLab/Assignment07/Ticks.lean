import EmSysLab.Assignment07.EslBusDemo
import EmSysLab.Clocked.Enable

/-!
# The tick of the countdown

The first process of `esl_bus_demo_example.v` counts enabled edges from `residual` up, through
the wrap at 2^26, and reloads at the edge after that. The edge at zero is one more than the
2^26 - residual edges it takes to get there.
-/
namespace EmSysLab.Assignment07

open Clocked

/-- The inputs at an edge of clk or at a rising edge of rst. -/
structure Cycle (n : ℕ) where
  rst : Bool
  cntEnable : Bool
  input : BitVec n
  deriving DecidableEq, Repr

namespace EslBusDemoExample

variable {n : ℕ}

/-- Both processes at one edge. -/
def edge (s : EslBusDemoExample n) (c : Cycle n) : EslBusDemoExample n :=
  if c.rst then reset n else s.posedgeClk c.cntEnable c.input

/-- The states a run from a reset leads to, through any further resets. -/
def Reachable (s : EslBusDemoExample n) : Prop := ∃ cs, s = run edge (reset n) cs

/-- The last of the three assignments to count_down is made. -/
def decrements (s : EslBusDemoExample n) (c : Cycle n) : Bool :=
  !c.rst && c.cntEnable && s.counterOverflow

/-- How often a run decrements count_down. -/
def decrementsIn (s : EslBusDemoExample n) (cs : List (Cycle n)) : ℕ :=
  eventsIn edge decrements s cs

theorem decrementsIn_cons (s : EslBusDemoExample n) (c : Cycle n) (cs : List (Cycle n)) :
    s.decrementsIn (c :: cs) = (s.decrements c).toNat + (s.edge c).decrementsIn cs := rfl

theorem edge_of_enabled (s : EslBusDemoExample n) {c : Cycle n} (hrst : c.rst = false)
    (henable : c.cntEnable = true) : s.edge c = s.posedgeClk true c.input := by
  rw [edge, hrst, henable]
  rfl

theorem edge_of_disabled (s : EslBusDemoExample n) {c : Cycle n} (hrst : c.rst = false)
    (henable : c.cntEnable = false) : s.edge c = s := by
  rw [edge, hrst, henable]
  rfl

theorem edge_of_rst (s : EslBusDemoExample n) {c : Cycle n} (hrst : c.rst = true) :
    s.edge c = reset n := if_pos hrst

theorem decrements_of_disabled (s : EslBusDemoExample n) {c : Cycle n}
    (henable : c.cntEnable = false) : s.decrements c = false := by
  rw [decrements, henable, Bool.and_false, Bool.false_and]

theorem decrements_of_enabled (s : EslBusDemoExample n) {c : Cycle n} (hrst : c.rst = false)
    (henable : c.cntEnable = true) : s.decrements c = s.counterOverflow := by
  rw [decrements, hrst, henable, Bool.not_false, Bool.true_and, Bool.true_and]

theorem decrements_iff (s : EslBusDemoExample n) {c : Cycle n} (hrst : c.rst = false) :
    s.decrements c = true ↔ c.cntEnable = true ∧ s.counterOverflow = true := by
  rw [decrements, hrst, Bool.not_false, Bool.true_and, Bool.and_eq_true]

@[simp] theorem counter_posedgeClk (s : EslBusDemoExample n) (input : BitVec n) :
    (s.posedgeClk true input).counter = if s.counter = 0 then residual else s.counter + 1 := rfl

@[simp] theorem counterOverflow_posedgeClk (s : EslBusDemoExample n) (input : BitVec n) :
    (s.posedgeClk true input).counterOverflow = decide (s.counter = 0) := rfl

/-- The flag goes up with the reload. -/
def Reloaded (s : EslBusDemoExample n) : Prop := s.counterOverflow = true → s.counter = residual

theorem reloaded_edge (s : EslBusDemoExample n) (c : Cycle n) (h : s.Reloaded) :
    (s.edge c).Reloaded := by
  unfold edge
  split
  · exact fun _ => rfl
  · unfold posedgeClk
    split
    · intro hoverflow
      exact if_pos (of_decide_eq_true hoverflow)
    · exact h

theorem Reachable.reloaded {s : EslBusDemoExample n} (hs : s.Reachable) : s.Reloaded := by
  obtain ⟨cs, rfl⟩ := hs
  exact run_invariant reloaded_edge (fun _ => rfl) cs

theorem Reachable.before {s : EslBusDemoExample n} (hs : s.Reachable) (x : ℕ → Cycle n) (k : ℕ) :
    (before edge s x k).Reachable := by
  obtain ⟨cs, rfl⟩ := hs
  exact ⟨cs ++ (List.range k).map x, by rw [before_eq_run, run_append]⟩

/-! ## The prescaler -/

/-- The enabled edges left before the one that decrements. -/
def edgesLeft (s : EslBusDemoExample n) : ℕ :=
  if s.counterOverflow then 0 else (-s.counter).toNat + 1

theorem edgesLeft_eq_zero {s : EslBusDemoExample n} :
    s.edgesLeft = 0 ↔ s.counterOverflow = true := by
  unfold edgesLeft
  cases s.counterOverflow with
  | true => simp
  | false => simp

/-- The edge that decrements is the first of the next period. -/
theorem edgesLeft_reload {s : EslBusDemoExample n} (hs : s.Reloaded)
    (hoverflow : s.counterOverflow = true) (input : BitVec n) :
    (s.posedgeClk true input).edgesLeft + 1 = 2 ^ 26 - residual.toNat + 1 := by
  unfold edgesLeft
  rw [counterOverflow_posedgeClk, counter_posedgeClk, hs hoverflow]
  decide

theorem edgesLeft_count {s : EslBusDemoExample n} (hoverflow : s.counterOverflow = false)
    (input : BitVec n) : (s.posedgeClk true input).edgesLeft + 1 = s.edgesLeft := by
  unfold edgesLeft
  rw [counterOverflow_posedgeClk, counter_posedgeClk, hoverflow]
  by_cases hzero : s.counter = 0
  · rw [hzero]
    decide
  · have hpos : 0 < s.counter.toNat := by
      rw [Nat.pos_iff_ne_zero]
      exact fun h => hzero (BitVec.eq_of_toNat_eq h)
    rw [decide_eq_false hzero, if_neg Bool.false_ne_true, if_neg Bool.false_ne_true, if_neg hzero]
    bv_omega

/-- The enabled edges before edge `k`. -/
def enabledEdges (x : ℕ → Cycle n) (k : ℕ) : ℕ := Nat.count (fun j => (x j).cntEnable = true) k

theorem prescaler {s : EslBusDemoExample n} (hs : s.Reachable) {x : ℕ → Cycle n}
    (hrst : ∀ k, (x k).rst = false) :
    Prescaler (2 ^ 26 - residual.toNat + 1) (fun k => (x k).cntEnable = true)
      (fun k => (before edge s x k).decrements (x k) = true)
      (fun k => (before edge s x k).edgesLeft) where
  tick_iff := by
    intro k
    rw [decrements_iff _ (hrst k), edgesLeft_eq_zero]
  reload := by
    intro k htick
    rw [decrements_iff _ (hrst k)] at htick
    rw [before_succ, edge_of_enabled _ (hrst k) htick.1]
    exact edgesLeft_reload (hs.before x k).reloaded htick.2 _
  count := by
    intro k henable hleft
    rw [ne_eq, edgesLeft_eq_zero, Bool.not_eq_true] at hleft
    rw [before_succ, edge_of_enabled _ (hrst k) henable]
    exact edgesLeft_count hleft _
  still := by
    intro k henable
    rw [Bool.not_eq_true] at henable
    rw [before_succ, edge_of_disabled _ (hrst k) henable]

end EslBusDemoExample

/-- The countdown ticks at one of every `P` enabled edges, and the others do not matter. -/
structure TickRate {n : ℕ} (P : ℕ) (s : EslBusDemoExample n) (x : ℕ → Cycle n) : Prop where
  apart : ∀ j k,
    Consecutive (fun i => (before EslBusDemoExample.edge s x i).decrements (x i) = true) j k →
      EslBusDemoExample.enabledEdges x k = EslBusDemoExample.enabledEdges x j + P
  disabled : ∀ k, let cs := (List.range k).map x
    run EslBusDemoExample.edge s (cs.filter Cycle.cntEnable) = run EslBusDemoExample.edge s cs ∧
      s.decrementsIn (cs.filter Cycle.cntEnable) = s.decrementsIn cs

theorem tickRate_period {n : ℕ} {s : EslBusDemoExample n} (hs : s.Reachable) {x : ℕ → Cycle n}
    (hrst : ∀ k, (x k).rst = false) : TickRate (2 ^ 26 - residual.toNat + 1) s x where
  apart := fun _ _ hjk => (EslBusDemoExample.prescaler hs hrst).count_consecutive hjk
  disabled := by
    intro k
    refine run_filter (A := fun c => c.rst = false) (fun s c hrst henable =>
      ⟨s.edge_of_disabled hrst henable, s.decrements_of_disabled henable⟩) s fun c hc => ?_
    obtain ⟨j, -, rfl⟩ := List.mem_map.mp hc
    exact hrst j

/-- With one edge less to a period there can be no two ticks. -/
theorem tickRate_iff_few {n : ℕ} {s : EslBusDemoExample n} (hs : s.Reachable) {x : ℕ → Cycle n}
    (hrst : ∀ k, (x k).rst = false) : TickRate (2 ^ 26 - residual.toNat) s x ↔
      ∀ k, EslBusDemoExample.enabledEdges x k ≤ s.edgesLeft + (2 ^ 26 - residual.toNat + 1) := by
  have hprescaler := EslBusDemoExample.prescaler hs hrst
  have hperiod := tickRate_period hs hrst
  constructor
  · intro h k
    by_contra hmany
    obtain ⟨i, j, hij⟩ := hprescaler.exists_consecutive_iff.mpr ⟨k, Nat.lt_of_not_le hmany⟩
    have hshort := h.apart i j hij
    have hlong := hperiod.apart i j hij
    omega
  · intro hfew
    refine ⟨fun i j hij => ?_, hperiod.disabled⟩
    obtain ⟨k, hk⟩ := hprescaler.exists_consecutive_iff.mp ⟨i, j, hij⟩
    exact absurd (hfew k) (Nat.not_le_of_lt hk)

/-- **Tick rate.** From any reachable state, neighbouring decrements are 2^26 - residual + 1
enabled edges apart, one more than the constant is made for; they are 2^26 - residual apart only
where the run ends before there are two. -/
theorem tickRate_iff {n : ℕ} (s : EslBusDemoExample n) (hs : s.Reachable) (x : ℕ → Cycle n)
    (hrst : ∀ k, (x k).rst = false) :
    2 ^ 26 - residual.toNat = 50000000 ∧
      TickRate (2 ^ 26 - residual.toNat + 1) s x ∧
      (TickRate (2 ^ 26 - residual.toNat) s x ↔
        ∀ k, EslBusDemoExample.enabledEdges x k ≤
          s.edgesLeft + (2 ^ 26 - residual.toNat + 1)) :=
  ⟨by decide, tickRate_period hs hrst, tickRate_iff_few hs hrst⟩

/-- The counter enabled all the time, from a reset. -/
def alwaysEnabled (_ : ℕ) : Cycle 8 := ⟨false, true, 0⟩

theorem tickRate_alwaysEnabled :
    TickRate 50000001 (EslBusDemoExample.reset 8) alwaysEnabled := by
  obtain ⟨-, hrate, -⟩ := tickRate_iff (EslBusDemoExample.reset 8) ⟨[], rfl⟩ alwaysEnabled
    fun _ => rfl
  exact hrate

theorem enabledEdges_alwaysEnabled (k : ℕ) :
    EslBusDemoExample.enabledEdges alwaysEnabled k = k := by
  rw [EslBusDemoExample.enabledEdges, Nat.count_iff_forall]
  exact fun _ _ => rfl

theorem not_tickRate_alwaysEnabled :
    (EslBusDemoExample.reset 8).Reachable ∧
      ¬TickRate 50000000 (EslBusDemoExample.reset 8) alwaysEnabled := by
  have hreset : (EslBusDemoExample.reset 8).Reachable := ⟨[], rfl⟩
  refine ⟨hreset, fun h => ?_⟩
  have hfew := (tickRate_iff_few hreset fun _ => rfl).mp h 100000003
  rw [enabledEdges_alwaysEnabled] at hfew
  exact absurd hfew (by decide)

end EmSysLab.Assignment07
