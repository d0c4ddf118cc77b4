import EmSysLab.Assignment07.Ticks
import EmSysLab.Clocked.Period

/-!
# The countdown itself

The second process of `esl_bus_demo_example.v` assigns to count_down up to three times: a new
input, then the reload at zero, then the decrement. A new input is therefore lost at the edges
where one of the others is made as well, and a tick that finds count_down at zero wraps it.
-/
namespace EmSysLab.Assignment07

open Clocked

namespace EslBusDemoExample

variable {n : ℕ} {s : EslBusDemoExample n} {c : Cycle n}

/-! ## What an enabled edge leaves in count_down -/

theorem countDown_of_tick (htick : s.decrements c = true) :
    (s.edge c).countDown = s.countDown - 1 := by
  simp only [decrements, Bool.and_eq_true, Bool.not_eq_true'] at htick
  rw [edge_of_enabled s htick.1.1 htick.1.2]
  exact if_pos htick.2

section Enabled

variable (hrst : c.rst = false) (henable : c.cntEnable = true)

include hrst henable

theorem countDownInput_edge : (s.edge c).countDownInput = c.input := by
  rw [edge_of_enabled s hrst henable]
  by_cases hnew : c.input = s.countDownInput
  · exact (if_neg (not_not_intro hnew)).trans hnew.symm
  · exact if_pos hnew

theorem counterOverflow_edge : (s.edge c).counterOverflow = decide (s.counter = 0) := by
  rw [edge_of_enabled s hrst henable]
  rfl

variable (hoverflow : s.counterOverflow = false)

include hoverflow

theorem countDown_of_zero (hzero : s.countDown = 0) : (s.edge c).countDown = s.countDownInput := by
  rw [edge_of_enabled s hrst henable]
  exact (if_neg (by rw [hoverflow]; decide)).trans (if_pos hzero)

theorem countDown_of_pos (hpos : s.countDown ≠ 0) : (s.edge c).countDown =
    if c.input ≠ s.countDownInput then c.input else s.countDown := by
  rw [edge_of_enabled s hrst henable]
  exact (if_neg (by rw [hoverflow]; decide)).trans (if_neg hpos)

end Enabled

/-! ## New values -/

/-- The edge finds a new value at the input. -/
structure NewInput (s : EslBusDemoExample n) (c : Cycle n) : Prop where
  rst : c.rst = false
  cntEnable : c.cntEnable = true
  input : c.input ≠ s.countDownInput

/-- The new value is taken up and the countdown starts from it. -/
structure Updated (s : EslBusDemoExample n) (c : Cycle n) : Prop where
  countDownInput : (s.edge c).countDownInput = c.input
  countDown : (s.edge c).countDown = c.input

/-- Neither of the later assignments is made, or the decrement happens to give the new value. -/
def Undisturbed (s : EslBusDemoExample n) (c : Cycle n) : Prop :=
  if s.counterOverflow then s.countDown - 1 = c.input else s.countDown ≠ 0

theorem NewInput.updated_iff (h : NewInput s c) : Updated s c ↔ Undisturbed s c := by
  have hinput := countDownInput_edge (s := s) h.rst h.cntEnable
  unfold Undisturbed
  cases hoverflow : s.counterOverflow with
  | true =>
    have htick : s.decrements c = true := (decrements_iff s h.rst).mpr ⟨h.cntEnable, hoverflow⟩
    rw [if_pos rfl, ← countDown_of_tick htick]
    exact ⟨Updated.countDown, Updated.mk hinput⟩
  | false =>
    rw [if_neg Bool.false_ne_true]
    constructor
    · intro hupdated hzero
      apply h.input
      rw [← countDown_of_zero h.rst h.cntEnable hoverflow hzero, hupdated.countDown]
    · intro hpos
      exact ⟨hinput, (countDown_of_pos h.rst h.cntEnable hoverflow hpos).trans (if_pos h.input)⟩

/-- The cycle leaves the value `v` at the input. -/
structure Holding (v : BitVec n) (c : Cycle n) : Prop where
  rst : c.rst = false
  input : c.input = v

/-- A countdown whose input is held goes down by one for every tick until it has run out. -/
theorem countDown_of_holding {v : BitVec n} {cs : List (Cycle n)} (hcs : ∀ c ∈ cs, Holding v c)
    (hinput : s.countDownInput = v) (hticks : s.decrementsIn cs < s.countDown.toNat) :
    (run edge s cs).countDown.toNat = s.countDown.toNat - s.decrementsIn cs := by
  induction cs generalizing s with
  | nil => rfl
  | cons c cs ih =>
    obtain ⟨hrst, hc⟩ := hcs c List.mem_cons_self
    have hrest : ∀ d ∈ cs, Holding v d := fun d hd => hcs d (List.mem_cons_of_mem c hd)
    rw [decrementsIn_cons] at hticks ⊢
    rw [run_cons]
    cases henable : c.cntEnable with
    | false =>
      rw [edge_of_disabled s hrst henable, decrements_of_disabled s henable, Bool.toNat_false,
        Nat.zero_add] at hticks ⊢
      exact ih hrest hinput hticks
    | true =>
      have hnext : (s.edge c).countDownInput = v :=
        (countDownInput_edge hrst henable).trans hc
      cases htick : s.decrements c with
      | true =>
        have hdown : (s.edge c).countDown.toNat = s.countDown.toNat - 1 := by
          rw [countDown_of_tick htick]
          exact toNat_sub_one (Nat.zero_lt_of_lt hticks)
        rw [htick, Bool.toNat_true] at hticks
        rw [ih hrest hnext (by omega), hdown, Bool.toNat_true, Nat.sub_sub]
      | false =>
        have hoverflow := (decrements_of_enabled s hrst henable).symm.trans htick
        have hpos : s.countDown ≠ 0 := by
          intro hzero
          rw [hzero] at hticks
          exact absurd hticks (Nat.not_lt_zero _)
        have hkeep : (s.edge c).countDown = s.countDown := by
          rw [countDown_of_pos hrst henable hoverflow hpos]
          exact if_neg (not_not_intro (hc.trans hinput.symm))
        rw [htick, Bool.toNat_false, Nat.zero_add] at hticks
        rw [ih hrest hnext (by rw [hkeep]; exact hticks), hkeep, Bool.toNat_false, Nat.zero_add]

end EslBusDemoExample

open EslBusDemoExample in
/-- **New values.** In every run from a reset, an edge takes a new value up exactly if neither
the reload nor the decrement overrides it, and then the countdown goes on from that value. -/
theorem newInput_updated_iff {n : ℕ} (x : ℕ → Cycle n) :
    ((∀ k, NewInput (before edge (reset n) x k) (x k) → Updated (before edge (reset n) x k) (x k)) ↔
        ∀ k, NewInput (before edge (reset n) x k) (x k) →
          Undisturbed (before edge (reset n) x k) (x k)) ∧
      ∀ k, NewInput (before edge (reset n) x k) (x k) →
        (Updated (before edge (reset n) x k) (x k) ↔
          Undisturbed (before edge (reset n) x k) (x k)) ∧
        (Undisturbed (before edge (reset n) x k) (x k) →
          ∀ cs, (∀ c ∈ cs, Holding (x k).input c) →
            decrementsIn (before edge (reset n) x (k + 1)) cs < (x k).input.toNat →
            (run edge (before edge (reset n) x (k + 1)) cs).countDown.toNat =
              (x k).input.toNat - decrementsIn (before edge (reset n) x (k + 1)) cs) := by
  refine ⟨forall₂_congr fun k h => h.updated_iff, fun k h => ⟨h.updated_iff, ?_⟩⟩
  intro hundisturbed cs hcs hticks
  obtain ⟨hinput, hcount⟩ := h.updated_iff.mpr hundisturbed
  rw [before_succ] at hticks ⊢
  rw [countDown_of_holding hcs hinput (by rw [hcount]; exact hticks), hcount]

/-- The inputs 5 and then 7, with the counter enabled. -/
def earlyInput : ℕ → Cycle 8
  | 0 => ⟨false, true, 5⟩
  | _ => ⟨false, true, 7⟩

open EslBusDemoExample in
/-- The 7 is taken up while the 5 is counted down, and the countdown goes on from it. -/
theorem newInput_taken_up :
    NewInput (before edge (reset 8) earlyInput 1) (earlyInput 1) ∧
      Updated (before edge (reset 8) earlyInput 1) (earlyInput 1) ∧
      ∀ cs, (∀ c ∈ cs, Holding 7 c) → decrementsIn (before edge (reset 8) earlyInput 2) cs < 7 →
        (run edge (before edge (reset 8) earlyInput 2) cs).countDown.toNat =
          7 - decrementsIn (before edge (reset 8) earlyInput 2) cs := by
  have hnew : NewInput (before edge (reset 8) earlyInput 1) (earlyInput 1) := ⟨rfl, rfl, by decide⟩
  have hundisturbed : Undisturbed (before edge (reset 8) earlyInput 1) (earlyInput 1) := by
    unfold Undisturbed
    decide
  obtain ⟨hupdated, hgoes⟩ := (newInput_updated_iff earlyInput).2 1 hnew
  exact ⟨hnew, hupdated.mpr hundisturbed, hgoes hundisturbed⟩

/-- The inputs 5, 0 and then 7, with the counter enabled. -/
def lateInput : ℕ → Cycle 8
  | 0 => ⟨false, true, 5⟩
  | 1 => ⟨false, true, 0⟩
  | _ => ⟨false, true, 7⟩

open EslBusDemoExample in
/-- The 7 comes while count_down stands at zero: the old input is loaded instead. -/
theorem newInput_lost :
    NewInput (before edge (reset 8) lateInput 2) (lateInput 2) ∧
      (before edge (reset 8) lateInput 3).countDownInput = 7 ∧
      (before edge (reset 8) lateInput 3).countDown = 0 ∧
      ¬Updated (before edge (reset 8) lateInput 2) (lateInput 2) := by
  refine ⟨⟨rfl, rfl, by decide⟩, by decide, by decide, fun h => ?_⟩
  exact absurd h.countDown (by decide)

/-! ## A tick at zero -/

namespace EslBusDemoExample

variable {n : ℕ} {s : EslBusDemoExample n} {c : Cycle n}

/-- From zero the countdown stays there or reloads an input, and does not wrap to all ones. -/
structure NoUnderflow (s : EslBusDemoExample n) (c : Cycle n) : Prop where
  loaded : (s.edge c).countDown = 0 ∨ (s.edge c).countDown = c.input ∨
    (s.edge c).countDown = s.countDownInput
  notWrapped : ¬(s.decrements c = true ∧ (s.edge c).countDown = BitVec.allOnes n)

theorem countDown_of_tick_zero (htick : s.decrements c = true) (hzero : s.countDown = 0) :
    (s.edge c).countDown = BitVec.allOnes n := by
  rw [countDown_of_tick htick, hzero]
  exact (BitVec.zero_sub 1).trans BitVec.neg_one_eq_allOnes

theorem noUnderflow_iff_of_zero (hrst : c.rst = false) (hzero : s.countDown = 0) :
    NoUnderflow s c ↔ s.decrements c = false := by
  constructor
  · intro h
    rw [← Bool.not_eq_true]
    intro htick
    exact h.notWrapped ⟨htick, countDown_of_tick_zero htick hzero⟩
  · intro hidle
    refine ⟨?_, fun h => by rw [hidle] at h; exact Bool.false_ne_true h.1⟩
    cases henable : c.cntEnable with
    | false =>
      rw [edge_of_disabled s hrst henable]
      exact .inl hzero
    | true =>
      have hoverflow := (decrements_of_enabled s hrst henable).symm.trans hidle
      exact .inr (.inr (countDown_of_zero hrst henable hoverflow hzero))

/-- A tick finds the countdown above zero: the input is not zero, or none has been taken up. -/
structure Positive (s : EslBusDemoExample n) : Prop where
  reloaded : s.Reloaded
  tick : s.counterOverflow = true → s.countDown ≠ 0
  waiting : s.countDownInput = 0 → s.countDown ≠ 0 ∧ s.counterOverflow = false

theorem positive_reset (hn : 0 < n) : (reset n).Positive where
  reloaded := fun _ => rfl
  tick := fun h => absurd h Bool.false_ne_true
  waiting := by
    intro _
    exact ⟨fun h => Nat.ne_of_gt hn (BitVec.allOnes_eq_zero_iff.mp h), rfl⟩

/-- Inputs that are not zero keep it so. -/
theorem positive_edge (hn : 0 < n)
    (hc : c.rst = false → c.cntEnable = true → c.input ≠ 0) (h : s.Positive) :
    (s.edge c).Positive := by
  cases hrst : c.rst with
  | true =>
    rw [edge_of_rst s hrst]
    exact positive_reset hn
  | false =>
    cases henable : c.cntEnable with
    | false =>
      rw [edge_of_disabled s hrst henable]
      exact h
    | true =>
      have hinput : (s.edge c).countDownInput ≠ 0 := by
        rw [countDownInput_edge hrst henable]
        exact hc hrst henable
      refine ⟨reloaded_edge s c h.reloaded, ?_, fun hzero => absurd hzero hinput⟩
      rw [counterOverflow_edge hrst henable]
      cases hoverflow : s.counterOverflow with
      | true =>
        -- the counter has just been reloaded, so the next tick is a period away
        rw [h.reloaded hoverflow]
        exact fun hwrap => absurd hwrap (by decide)
      | false =>
        intro _
        by_cases hzero : s.countDown = 0
        · rw [countDown_of_zero hrst henable hoverflow hzero]
          exact fun hinput => (h.waiting hinput).1 hzero
        · rw [countDown_of_pos hrst henable hoverflow hzero]
          split
          · exact hc hrst henable
          · exact hzero

theorem Positive.noUnderflow (h : s.Positive) (hrst : c.rst = false) (hzero : s.countDown = 0) :
    NoUnderflow s c := by
  rw [noUnderflow_iff_of_zero hrst hzero, ← Bool.not_eq_true, decrements_iff s hrst]
  exact fun htick => h.tick htick.2 hzero

/-- The value `v` is in the countdown and will be reloaded. -/
structure Loaded (v : BitVec n) (s : EslBusDemoExample n) : Prop where
  countDownInput : s.countDownInput = v
  countDown : s.countDown = v

/-- The countdown from `v` is under way. -/
structure CountsDown (v : BitVec n) (s : EslBusDemoExample n) : Prop where
  positive : s.Positive
  countDownInput : s.countDownInput = v
  le : s.countDown ≤ v

theorem Loaded.countsDown {v : BitVec n} (h : Loaded v s) (hs : s.Reachable) (hv : v ≠ 0) :
    CountsDown v s where
  positive :=
    ⟨hs.reloaded, fun _ => by rw [h.countDown]; exact hv,
      fun hzero => absurd (h.countDownInput.symm.trans hzero) hv⟩
  countDownInput := h.countDownInput
  le := by rw [h.countDown]; exact BitVec.le_refl v

theorem countsDown_edge {v : BitVec n} (hn : 0 < n) (hv : v ≠ 0) (hc : Holding v c)
    (h : CountsDown v s) : CountsDown v (s.edge c) := by
  have hpositive : (s.edge c).Positive :=
    positive_edge hn (fun _ _ => by rw [hc.input]; exact hv) h.positive
  cases henable : c.cntEnable with
  | false =>
    rw [edge_of_disabled s hc.rst henable]
    exact h
  | true =>
    refine ⟨hpositive, (countDownInput_edge hc.rst henable).trans hc.input, ?_⟩
    cases hoverflow : s.counterOverflow with
    | true =>
      have htick : s.decrements c = true := (decrements_iff s hc.rst).mpr ⟨henable, hoverflow⟩
      have hpos : 0 < s.countDown.toNat := by
        rw [Nat.pos_iff_ne_zero]
        exact fun hzero => h.positive.tick hoverflow (BitVec.eq_of_toNat_eq hzero)
      have hle := h.le
      rw [BitVec.le_def] at hle
      rw [countDown_of_tick htick, BitVec.le_def, toNat_sub_one hpos]
      omega
    | false =>
      by_cases hzero : s.countDown = 0
      · rw [countDown_of_zero hc.rst henable hoverflow hzero, h.countDownInput]
        exact BitVec.le_refl v
      · rw [countDown_of_pos hc.rst henable hoverflow hzero, hc.input, h.countDownInput,
          if_neg (not_not_intro rfl)]
        exact h.le

/-- A countdown from zero stays at zero as long as there is no tick. -/
theorem loaded_zero_edge (hc : Holding 0 c) (hidle : s.decrements c = false)
    (h : Loaded 0 s) : Loaded 0 (s.edge c) := by
  cases henable : c.cntEnable with
  | false =>
    rw [edge_of_disabled s hc.rst henable]
    exact h
  | true =>
    have hoverflow := (decrements_of_enabled s hc.rst henable).symm.trans hidle
    refine ⟨(countDownInput_edge hc.rst henable).trans hc.input, ?_⟩
    rw [countDown_of_zero hc.rst henable hoverflow h.countDown, h.countDownInput]

/-- **A held input.** A value that is loaded and held is never exceeded, unless it is zero and
there is a tick. -/
theorem le_of_loaded_iff {v : BitVec n} (hn : 0 < n) (hs : s.Reachable) (h : Loaded v s)
    {x : ℕ → Cycle n} (hx : ∀ k, Holding v (x k)) :
    (∀ k, (before edge s x k).countDown ≤ v) ↔
      v ≠ 0 ∨ ∀ k, enabledEdges x k ≤ s.edgesLeft := by
  have hticks := (prescaler hs fun k => (hx k).rst).exists_tick_iff
  constructor
  · intro hle
    by_contra hfail
    obtain ⟨hzero, hmany⟩ := not_or.mp hfail
    rw [not_not] at hzero
    rw [hzero] at hle
    obtain ⟨k, hk⟩ := not_forall.mp hmany
    obtain ⟨j, htick⟩ := hticks.mpr ⟨k, Nat.lt_of_not_le hk⟩
    have hwrap := BitVec.le_zero_iff.mp (hle (j + 1))
    rw [before_succ, countDown_of_tick_zero htick (BitVec.le_zero_iff.mp (hle j))] at hwrap
    exact Nat.ne_of_gt hn (BitVec.allOnes_eq_zero_iff.mp hwrap)
  · intro hcond k
    by_cases hv : v = 0
    · have hfew := hcond.resolve_left (not_not_intro hv)
      have hidle : ∀ j, (before edge s x j).decrements (x j) = false := by
        intro j
        rw [← Bool.not_eq_true]
        intro htick
        obtain ⟨i, hi⟩ := hticks.mp ⟨j, htick⟩
        exact absurd (hfew i) (Nat.not_le_of_lt hi)
      have hloaded : ∀ j, Loaded 0 (before edge s x j) := by
        intro j
        induction j with
        | zero => rwa [hv] at h
        | succ j ih => exact loaded_zero_edge (by rw [← hv]; exact hx j) (hidle j) ih
      rw [(hloaded k).countDown, hv]
      exact BitVec.le_refl 0
    · have hcounts : ∀ j, CountsDown v (before edge s x j) := by
        intro j
        induction j with
        | zero => exact h.countsDown hs hv
        | succ j ih => exact countsDown_edge hn hv (hx j) ih
      exact (hcounts k).le

end EslBusDemoExample

/-! ## On the bus -/

/-- A rising edge of reset, or one of clk with its bus cycle. -/
structure BusEdge where
  reset : Bool
  cycle : BusCycle
  deriving DecidableEq, Repr

namespace EslBusDemo

variable {n : ℕ}

def edge (s : EslBusDemo n) (x : BusEdge) : EslBusDemo n :=
  if x.reset then s.posedgeReset else s.posedgeClk x.cycle

def userOutput (s : EslBusDemo n) : BitVec n := s.myIp.countDown

/-- The state before edge `k` of a run that begins with a reset. -/
abbrev afterReset (s : EslBusDemo n) (x : ℕ → BusEdge) (k : ℕ) : EslBusDemo n :=
  before edge s.posedgeReset x k

/-- What the component shows to the counter it instantiates. -/
def counterCycle (s : EslBusDemo n) (x : BusEdge) : Cycle n := ⟨x.reset, s.enable, s.memMasked⟩

theorem myIp_edge (s : EslBusDemo n) (x : BusEdge) :
    (s.edge x).myIp = s.myIp.edge (s.counterCycle x) := by
  unfold edge EslBusDemoExample.edge counterCycle
  cases x.reset with
  | true => rfl
  | false => rfl

/-- The counter runs on the cycles that the register makes for it. -/
theorem before_myIp (s : EslBusDemo n) (x : ℕ → BusEdge) (k : ℕ) :
    (before edge s x k).myIp = before EslBusDemoExample.edge s.myIp
      (fun j => (before edge s x j).counterCycle (x j)) k := by
  induction k with
  | zero => rfl
  | succ k ih => rw [before_succ, before_succ, myIp_edge, ih]

theorem reachable_myIp (s : EslBusDemo n) (x : ℕ → BusEdge) (k : ℕ) :
    (s.afterReset x k).myIp.Reachable := by
  have hreset : s.posedgeReset.myIp.Reachable := ⟨[], rfl⟩
  rw [afterReset, before_myIp]
  exact hreset.before _ k

/-- The edge decrements count_down unless it is a reset. -/
def Ticks (s : EslBusDemo n) : Prop := s.enable = true ∧ s.myIp.counterOverflow = true

theorem noUnderflow_iff_of_zero (s : EslBusDemo n) {x : BusEdge} (hreset : x.reset = false)
    (hzero : s.userOutput = 0) :
    EslBusDemoExample.NoUnderflow s.myIp (s.counterCycle x) ↔ ¬s.Ticks := by
  have hticks := EslBusDemoExample.decrements_iff s.myIp (c := s.counterCycle x) hreset
  rw [EslBusDemoExample.noUnderflow_iff_of_zero hreset hzero, ← Bool.not_eq_true, hticks]
  rfl

/-- With a register that is never zero while it enables the counter, no tick finds zero. -/
theorem positive_afterReset (hn : 0 < n) {s : EslBusDemo n} {x : ℕ → BusEdge}
    (hinput : ∀ k, (x k).reset = false → (s.afterReset x k).enable = true →
      (s.afterReset x k).memMasked ≠ 0) (k : ℕ) : (s.afterReset x k).myIp.Positive := by
  induction k with
  | zero => exact EslBusDemoExample.positive_reset hn
  | succ k ih =>
    rw [afterReset, before_succ, myIp_edge]
    exact EslBusDemoExample.positive_edge hn (hinput k) ih

/-- A value in the register that is loaded, and held there from edge `j` on. -/
structure HeldFrom (v : BitVec n) (s : EslBusDemo n) (x : ℕ → BusEdge) (j : ℕ) : Prop where
  loaded : EslBusDemoExample.Loaded v (s.afterReset x j).myIp
  reset : ∀ i, (x (j + i)).reset = false
  memMasked : ∀ i, (s.afterReset x (j + i)).memMasked = v

theorem HeldFrom.le_iff {v : BitVec n} {s : EslBusDemo n} {x : ℕ → BusEdge} {j : ℕ}
    (h : HeldFrom v s x j) (hn : 0 < n) :
    (∀ i, (s.afterReset x (j + i)).userOutput ≤ v) ↔
      v ≠ 0 ∨ ∀ i, Nat.count (fun i => (s.afterReset x (j + i)).enable = true) i ≤
        (s.afterReset x j).myIp.edgesLeft := by
  have hrun : ∀ i, (s.afterReset x (j + i)).myIp =
      before EslBusDemoExample.edge (s.afterReset x j).myIp
        (fun i => (s.afterReset x (j + i)).counterCycle (x (j + i))) i := by
    intro i
    simp only [afterReset, before_add, before_myIp _ _ i]
  have hbound := EslBusDemoExample.le_of_loaded_iff hn (s.reachable_myIp x j) h.loaded
    (x := fun i => (s.afterReset x (j + i)).counterCycle (x (j + i)))
    fun i => ⟨h.reset i, h.memMasked i⟩
  simp only [← hrun] at hbound
  exact hbound

/-- Zero in the countdown can only stay if it never underflows. -/
theorem HeldFrom.loaded_zero {s : EslBusDemo n} {x : ℕ → BusEdge} {j : ℕ} (h : HeldFrom 0 s x j)
    (hno : ∀ k, (x k).reset = false → (s.afterReset x k).userOutput = 0 →
      EslBusDemoExample.NoUnderflow (s.afterReset x k).myIp
        ((s.afterReset x k).counterCycle (x k))) (i : ℕ) :
    EslBusDemoExample.Loaded 0 (s.afterReset x (j + i)).myIp := by
  induction i with
  | zero => exact h.loaded
  | succ i ih =>
    rw [← Nat.add_assoc, afterReset, before_succ, myIp_edge]
    apply EslBusDemoExample.loaded_zero_edge ⟨h.reset i, h.memMasked i⟩ _ ih
    apply (EslBusDemoExample.noUnderflow_iff_of_zero (h.reset i) ih.countDown).mp
    exact hno (j + i) (h.reset i) ih.countDown

/-- Without a reset or a write the register keeps its word. -/
theorem mem_afterReset_of_idle {s : EslBusDemo n} {x : ℕ → BusEdge} {j : ℕ}
    (hidle : ∀ i, (x (j + i)).reset = false ∧ (x (j + i)).cycle.slaveWrite = false) (i : ℕ) :
    (s.afterReset x (j + i)).mem = (s.afterReset x j).mem := by
  induction i with
  | zero => rfl
  | succ i ih =>
    rw [← Nat.add_assoc, afterReset, before_succ, edge, (hidle i).1, if_neg Bool.false_ne_true,
      ← ih]
    exact if_neg (by rw [(hidle i).2]; exact Bool.false_ne_true)

end EslBusDemo

/-- **No underflow.** In every run from a reset, the countdown goes from zero to zero or to an
input exactly if that edge is not a tick; no tick finds it at zero while the register is not;
and a value that is loaded and held bounds it, unless it is zero and a tick comes. -/
theorem noUnderflow_iff {n : ℕ} (hn : 0 < n) (s : EslBusDemo n) (x : ℕ → BusEdge) :
    (∀ k, (x k).reset = false → (s.afterReset x k).userOutput = 0 →
        (EslBusDemoExample.NoUnderflow (s.afterReset x k).myIp
          ((s.afterReset x k).counterCycle (x k)) ↔ ¬(s.afterReset x k).Ticks)) ∧
      ((∀ k, (x k).reset = false → (s.afterReset x k).enable = true →
          (s.afterReset x k).memMasked ≠ 0) →
        ∀ k, (x k).reset = false → (s.afterReset x k).userOutput = 0 →
          EslBusDemoExample.NoUnderflow (s.afterReset x k).myIp
            ((s.afterReset x k).counterCycle (x k))) ∧
      ∀ v j, EslBusDemo.HeldFrom v s x j →
        ((∀ i, (s.afterReset x (j + i)).userOutput ≤ v) ↔
          v ≠ 0 ∨ ∀ i, Nat.count (fun i => (s.afterReset x (j + i)).enable = true) i ≤
            (s.afterReset x j).myIp.edgesLeft) := by
  refine ⟨?_, ?_, ?_⟩
  · intro k hreset hzero
    exact EslBusDemo.noUnderflow_iff_of_zero _ hreset hzero
  · intro hinput k hreset hzero
    exact (EslBusDemo.positive_afterReset hn hinput k).noUnderflow hreset hzero
  · intro v j hheld
    exact hheld.le_iff hn

def busWrite (word : BitVec 32) : BusEdge := ⟨false, 0, false, true, word, 0b1111⟩

def busIdle : BusEdge := ⟨false, 0, false, false, 0, 0⟩

/-- The register is set to 5 and enabled. -/
def writeFive : ℕ → BusEdge
  | 0 => busWrite 0x80000005
  | _ => busIdle

theorem heldFrom_writeFive : EslBusDemo.HeldFrom 5 .cleared writeFive 2 where
  loaded := ⟨by decide, by decide⟩
  reset := fun i => by rw [Nat.add_comm]; rfl
  memMasked := by
    intro i
    have hmem := EslBusDemo.mem_afterReset_of_idle (s := .cleared) (x := writeFive) (j := 2)
      (fun i => by rw [Nat.add_comm]; exact ⟨rfl, rfl⟩) i
    rw [EslBusDemo.memMasked, hmem]
    decide

theorem writeFive_le :
    EslBusDemo.HeldFrom 5 .cleared writeFive 2 ∧
      ∀ i, (EslBusDemo.cleared.afterReset writeFive (2 + i)).userOutput ≤ 5 := by
  obtain ⟨-, -, hheld⟩ := noUnderflow_iff (by decide) EslBusDemo.cleared writeFive
  exact ⟨heldFrom_writeFive, (hheld 5 2 heldFrom_writeFive).mpr (.inl (by decide))⟩

/-- Then it is set to 0, still enabled. -/
def writeZero : ℕ → BusEdge
  | 0 => busWrite 0x80000005
  | 1 => busWrite 0x80000000
  | _ => busIdle

theorem mem_writeZero (i : ℕ) :
    (EslBusDemo.cleared.afterReset writeZero (3 + i)).mem = 0x80000000 := by
  rw [EslBusDemo.mem_afterReset_of_idle fun i => by rw [Nat.add_comm]; exact ⟨rfl, rfl⟩]
  decide

theorem heldFrom_writeZero : EslBusDemo.HeldFrom 0 .cleared writeZero 3 where
  loaded := ⟨by decide, by decide⟩
  reset := fun i => by rw [Nat.add_comm]; rfl
  memMasked := fun i => by rw [EslBusDemo.memMasked, mem_writeZero]; decide

/-- The zero that was loaded is decremented by the next tick. -/
theorem writeZero_underflows :
    EslBusDemo.HeldFrom 0 .cleared writeZero 3 ∧
      (¬∀ k, (writeZero k).reset = false →
        (EslBusDemo.cleared.afterReset writeZero k).userOutput = 0 →
          EslBusDemoExample.NoUnderflow (EslBusDemo.cleared.afterReset writeZero k).myIp
            ((EslBusDemo.cleared.afterReset writeZero k).counterCycle (writeZero k))) ∧
      ¬∀ i, (EslBusDemo.cleared.afterReset writeZero (3 + i)).userOutput ≤ 0 := by
  have hwraps : ¬∀ i, (EslBusDemo.cleared.afterReset writeZero (3 + i)).userOutput ≤ 0 := by
    rw [heldFrom_writeZero.le_iff (by decide)]
    intro hcond
    have hfew := hcond.resolve_left (not_not_intro rfl)
      ((EslBusDemo.cleared.afterReset writeZero 3).myIp.edgesLeft + 1)
    rw [Nat.count_iff_forall.mpr] at hfew
    · exact absurd hfew (Nat.not_succ_le_self _)
    · intro i _
      rw [EslBusDemo.enable, mem_writeZero]
      decide
  refine ⟨heldFrom_writeZero, fun hno => hwraps fun i => ?_, hwraps⟩
  rw [EslBusDemo.userOutput, (heldFrom_writeZero.loaded_zero hno i).countDown]
  exact BitVec.le_refl 0

end EmSysLab.Assignment07
