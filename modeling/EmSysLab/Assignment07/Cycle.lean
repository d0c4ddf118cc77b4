import EmSysLab.Assignment07.Countdown

/-!
# The countdown repeats

A value that is held at the input counts down once in every period of the tick, shows zero
until the next enabled edge and is loaded again, so a round takes as many periods as the value
says. Whatever the countdown was doing before, it comes to that round.
-/
namespace EmSysLab.Assignment07

open Clocked

/-- The enabled edges from one tick to the next. -/
def period : ℕ := 2 ^ 26 - residual.toNat + 1

theorem period_eq : period = 50000001 := rfl

/-- What is shown `e` enabled edges after `v` was loaded with `left` to come before the tick. -/
def shown (v left e : ℕ) : ℕ :=
  if e ≤ left then v
  else
    let ticks := (e - left - 1) / period + 1
    if ticks % v = 0 ∧ (e - left - 1) % period = 0 then 0 else v - ticks % v

namespace EslBusDemoExample

variable {n : ℕ} {s : EslBusDemoExample n} {c : Cycle n} {v : BitVec n} {d : ℕ}

theorem edgesLeft_reset : (reset n).edgesLeft = period := by
  rw [edgesLeft, if_neg (show ¬(reset n).counterOverflow = true from Bool.false_ne_true), period]
  rfl

theorem edgesLeft_tick (hs : s.Reloaded) (hrst : c.rst = false) (htick : s.decrements c = true) :
    s.edgesLeft = 0 ∧ (s.edge c).edgesLeft + 1 = period := by
  obtain ⟨henable, hoverflow⟩ := (decrements_iff s hrst).mp htick
  rw [edge_of_enabled s hrst henable]
  exact ⟨edgesLeft_eq_zero.mpr hoverflow, edgesLeft_reload hs hoverflow c.input⟩

theorem edgesLeft_idle (hrst : c.rst = false) (henable : c.cntEnable = true)
    (hoverflow : s.counterOverflow = false) : (s.edge c).edgesLeft + 1 = s.edgesLeft := by
  rw [edge_of_enabled s hrst henable]
  exact edgesLeft_count hoverflow c.input

/-! ## One round after the other -/

/-- A countdown from `v` after `d` ticks. Zero is shown from a tick to the next enabled edge. -/
structure Cycling (v : BitVec n) (d : ℕ) (s : EslBusDemoExample n) : Prop where
  countsDown : CountsDown v s
  countDown : s.countDown.toNat =
    if d % v.toNat = 0 ∧ 0 < d ∧ s.edgesLeft + 1 = period then 0 else v.toNat - d % v.toNat
  edgesLeft : 0 < d → s.edgesLeft < period

theorem Loaded.cycling (h : Loaded v s) (hs : s.Reachable) (hv : v ≠ 0) : Cycling v 0 s where
  countsDown := h.countsDown hs hv
  countDown := by
    rw [h.countDown, if_neg fun hzero => absurd hzero.2.1 (Nat.lt_irrefl 0), Nat.zero_mod,
      Nat.sub_zero]
  edgesLeft := fun hd => absurd hd (Nat.lt_irrefl 0)

theorem toNat_pos (hv : v ≠ 0) : 0 < v.toNat := by
  rw [Nat.pos_iff_ne_zero]
  exact fun hzero => hv (BitVec.eq_of_toNat_eq hzero)

/-- The ticks so far, modulo the value, after one more. -/
theorem tick_mod {v d : ℕ} (hv : 0 < v) :
    (d + 1) % v = 0 ∧ d % v + 1 = v ∨ (d + 1) % v = d % v + 1 ∧ d % v + 1 < v := by
  have hlt := Nat.mod_lt d hv
  rw [← Nat.mod_add_mod]
  rcases Nat.lt_or_ge (d % v + 1) v with hless | hmore
  · exact .inr ⟨Nat.mod_eq_of_lt hless, hless⟩
  · have hall : d % v + 1 = v := by omega
    rw [hall]
    exact .inl ⟨Nat.mod_self v, rfl⟩

theorem Cycling.tick (h : Cycling v d s) (hn : 0 < n) (hv : v ≠ 0) (hc : Holding v c)
    (htick : s.decrements c = true) : Cycling v (d + 1) (s.edge c) := by
  obtain ⟨hnone, hreload⟩ := edgesLeft_tick h.countsDown.positive.reloaded hc.rst htick
  have hmod := tick_mod (d := d) (toNat_pos hv)
  have hvalue : s.countDown.toNat = v.toNat - d % v.toNat := by
    rw [h.countDown, hnone]
    rw [period_eq]
    exact if_neg fun hzero => absurd hzero.2.2 (by decide)
  have hpos : 0 < s.countDown.toNat := by omega
  refine ⟨countsDown_edge hn hv hc h.countsDown, ?_, fun _ => by omega⟩
  rw [countDown_of_tick htick, toNat_sub_one hpos, hvalue]
  rcases hmod with ⟨hround, hlast⟩ | ⟨hgo, hmore⟩
  · rw [if_pos ⟨hround, Nat.succ_pos d, hreload⟩]
    omega
  · rw [if_neg (by omega), hgo]
    omega

theorem Cycling.idle (h : Cycling v d s) (hn : 0 < n) (hv : v ≠ 0) (hc : Holding v c)
    (hidle : s.decrements c = false) : Cycling v d (s.edge c) := by
  have hnext := countsDown_edge hn hv hc h.countsDown
  cases henable : c.cntEnable with
  | false =>
    rw [edge_of_disabled s hc.rst henable]
    exact h
  | true =>
    have hoverflow := (decrements_of_enabled s hc.rst henable).symm.trans hidle
    have hleft := edgesLeft_idle hc.rst henable hoverflow
    have hless : 0 < d → s.edgesLeft < period := h.edgesLeft
    refine ⟨hnext, ?_, fun hd => by have hlt := hless hd; omega⟩
    have hrem := Nat.mod_lt d (toNat_pos hv)
    rw [if_neg (by omega)]
    by_cases hzero : s.countDown = 0
    · -- zero is over at this edge
      have hvalue := h.countDown
      rw [hzero] at hvalue
      have hround : d % v.toNat = 0 := by
        by_contra hgo
        rw [if_neg fun hall => hgo hall.1] at hvalue
        exact absurd hvalue (Nat.ne_of_lt (Nat.sub_pos_of_lt hrem))
      rw [countDown_of_zero hc.rst henable hoverflow hzero, h.countsDown.countDownInput, hround,
        Nat.sub_zero]
    · rw [countDown_of_pos hc.rst henable hoverflow hzero, hc.input, h.countsDown.countDownInput,
        if_neg (not_not_intro rfl), h.countDown]
      apply if_neg
      intro hall
      apply hzero
      apply BitVec.eq_of_toNat_eq
      rw [h.countDown, if_pos hall]
      rfl

/-- The number of ticks is read off the enabled edges. -/
theorem Cycling.shown (h : Cycling v d s) {left e : ℕ}
    (hpaid : e + s.edgesLeft = left + period * d) :
    s.countDown.toNat = shown v.toNat left e := by
  have hless := h.edgesLeft
  rw [h.countDown, Assignment07.shown]
  cases d with
  | zero =>
    rw [if_neg fun hall => absurd hall.2.1 (Nat.lt_irrefl 0), if_pos (by omega), Nat.zero_mod,
      Nat.sub_zero]
  | succ d =>
    have hlt := hless (Nat.succ_pos d)
    obtain ⟨hlate, hdiv, hmod⟩ := div_mod_of_paid hpaid hlt
    rw [if_neg (Nat.not_le.mpr hlate)]
    dsimp only
    rw [hdiv, hmod]
    apply if_congr _ rfl rfl
    constructor
    · rintro ⟨hround, -, hfresh⟩
      exact ⟨hround, by omega⟩
    · rintro ⟨hround, hfresh⟩
      exact ⟨hround, Nat.succ_pos d, by omega⟩

section Run

variable {x : ℕ → Cycle n} (hs : s.Reachable) (hn : 0 < n) (hv : v ≠ 0)
  (hx : ∀ k, Holding v (x k))

include hs hn hv hx

theorem cycling_before (h : Loaded v s) (k : ℕ) :
    Cycling v (Nat.count (fun j => (before edge s x j).decrements (x j) = true) k)
      (before edge s x k) := by
  induction k with
  | zero => exact h.cycling hs hv
  | succ k ih =>
    rw [Nat.count_succ, before_succ]
    cases htick : (before edge s x k).decrements (x k) with
    | true => exact ih.tick hn hv (hx k) htick
    | false => exact ih.idle hn hv (hx k) htick

/-- **The round.** From where a value is loaded, the enabled edges say what is shown. -/
theorem countDown_shown (h : Loaded v s) (k : ℕ) :
    (before edge s x k).countDown.toNat = shown v.toNat s.edgesLeft (enabledEdges x k) :=
  (cycling_before hs hn hv hx h k).shown ((prescaler hs fun k => (hx k).rst).count_enabled k)

end Run

/-! ## Coming to the round -/

/-- The longest way from an input that has been taken up to one that is loaded. -/
def longest (n : ℕ) : ℕ := period * (2 ^ n - 1) + 1

/-- The enabled edges left, at most, before the one that loads the input. -/
def toLoad (v : BitVec n) (s : EslBusDemoExample n) : ℕ :=
  if s.countDownInput ≠ v then longest n + 1
  else if s.countDown ≠ 0 then s.edgesLeft + period * (s.countDown.toNat - 1) + 1
  else if s.counterOverflow then longest n
  else 0

theorem toLoad_of_pos (hinput : s.countDownInput = v) (hpos : s.countDown ≠ 0) :
    s.toLoad v = s.edgesLeft + period * (s.countDown.toNat - 1) + 1 := by
  rw [toLoad, if_neg (not_not_intro hinput), if_pos hpos]

theorem toLoad_of_zero (hinput : s.countDownInput = v) (hzero : s.countDown = 0) :
    s.toLoad v = if s.counterOverflow then longest n else 0 := by
  rw [toLoad, if_neg (not_not_intro hinput), if_neg (not_not_intro hzero)]

theorem toLoad_of_new (hinput : s.countDownInput ≠ v) : s.toLoad v = longest n + 1 := by
  rw [toLoad, if_pos hinput]

/-- No state has more than a period to wait for the tick. -/
theorem Reachable.edgesLeft_le (hs : s.Reachable) : s.edgesLeft ≤ period := by
  have hstep : ∀ (s : EslBusDemoExample n) c, s.Reloaded ∧ s.edgesLeft ≤ period →
      (s.edge c).Reloaded ∧ (s.edge c).edgesLeft ≤ period := by
    rintro s c ⟨hreloaded, hle⟩
    refine ⟨reloaded_edge s c hreloaded, ?_⟩
    cases hrst : c.rst with
    | true =>
      rw [edge_of_rst s hrst, edgesLeft_reset]
    | false =>
      cases henable : c.cntEnable with
      | false =>
        rw [edge_of_disabled s hrst henable]
        exact hle
      | true =>
        cases hoverflow : s.counterOverflow with
        | true =>
          have htick := (decrements_iff s hrst).mpr ⟨henable, hoverflow⟩
          have hreload := (edgesLeft_tick hreloaded hrst htick).2
          omega
        | false =>
          have hidle := edgesLeft_idle hrst henable hoverflow
          omega
  obtain ⟨cs, rfl⟩ := hs
  exact (run_invariant hstep ⟨fun _ => rfl, Nat.le_of_eq edgesLeft_reset⟩ cs).2

theorem period_mul_le (hn : 0 < n) (v : BitVec n) : period + period * (v.toNat - 1) ≤
    period * (2 ^ n - 1) := by
  have hbig : 1 < 2 ^ n := Nat.one_lt_two_pow (Nat.ne_of_gt hn)
  have hlt := v.isLt
  calc period + period * (v.toNat - 1) = period * (v.toNat - 1 + 1) := by
        rw [Nat.mul_succ, Nat.add_comm]
    _ ≤ period * (2 ^ n - 1) := Nat.mul_le_mul_left period (by omega)

theorem toLoad_le (hn : 0 < n) (hs : s.Reachable) (hinput : s.countDownInput = v) :
    s.toLoad v ≤ longest n := by
  have hleft := hs.edgesLeft_le
  have hmul := period_mul_le hn s.countDown
  by_cases hzero : s.countDown = 0
  · rw [toLoad_of_zero hinput hzero]
    split
    · exact Nat.le_refl _
    · exact Nat.zero_le _
  · rw [toLoad_of_pos hinput hzero, longest]
    omega

/-- A tick brings the input nearer: one down, or all the way from the top. -/
theorem toLoad_tick (hn : 0 < n) (hs : s.Reachable) (hc : Holding v c)
    (hinput : s.countDownInput = v) (htick : s.decrements c = true) :
    (s.edge c).toLoad v + 1 ≤ s.toLoad v := by
  obtain ⟨henable, hoverflow⟩ := (decrements_iff s hc.rst).mp htick
  obtain ⟨hnone, hreload⟩ := edgesLeft_tick hs.reloaded hc.rst htick
  have hnext : (s.edge c).countDownInput = v := (countDownInput_edge hc.rst henable).trans hc.input
  by_cases hzero : s.countDown = 0
  · have hwrap := countDown_of_tick_zero htick hzero
    have hpos : BitVec.allOnes n ≠ 0 := fun h => Nat.ne_of_gt hn (BitVec.allOnes_eq_zero_iff.mp h)
    rw [toLoad_of_zero hinput hzero, hoverflow, if_pos rfl, toLoad_of_pos hnext (by rwa [hwrap]),
      hwrap, longest]
    have hmul := period_mul_le hn (BitVec.allOnes n)
    omega
  · have hpos := toNat_pos hzero
    have hdown : (s.edge c).countDown.toNat = s.countDown.toNat - 1 := by
      rw [countDown_of_tick htick, toNat_sub_one hpos]
    rw [toLoad_of_pos hinput hzero, hnone]
    by_cases hlast : (s.edge c).countDown = 0
    · have hreset : (s.edge c).counterOverflow = false := by
        rw [counterOverflow_edge hc.rst henable, hs.reloaded hoverflow]
        decide
      rw [toLoad_of_zero hnext hlast, hreset, if_neg Bool.false_ne_true]
      omega
    · have hmore := toNat_pos hlast
      have hsplit : s.countDown.toNat - 1 = s.countDown.toNat - 1 - 1 + 1 := by omega
      rw [toLoad_of_pos hnext hlast, hdown, hsplit, Nat.mul_succ, Nat.add_sub_cancel]
      omega

/-- Every enabled edge brings a held input nearer. -/
theorem toLoad_edge (hn : 0 < n) (hs : s.Reachable) (hc : Holding v c) :
    Loaded v (s.edge c) ∨
      (s.edge c).toLoad v + (if c.cntEnable = true then 1 else 0) ≤ s.toLoad v := by
  cases henable : c.cntEnable with
  | false =>
    rw [edge_of_disabled s hc.rst henable, if_neg Bool.false_ne_true]
    exact .inr (Nat.le_refl _)
  | true =>
    rw [if_pos rfl]
    have hnext : (s.edge c).countDownInput = v :=
      (countDownInput_edge hc.rst henable).trans hc.input
    by_cases hinput : s.countDownInput = v
    · cases hoverflow : s.counterOverflow with
      | true =>
        exact .inr (toLoad_tick hn hs hc hinput ((decrements_iff s hc.rst).mpr ⟨henable, hoverflow⟩))
      | false =>
        have hleft := edgesLeft_idle hc.rst henable hoverflow
        by_cases hzero : s.countDown = 0
        · exact .inl ⟨hnext, (countDown_of_zero hc.rst henable hoverflow hzero).trans hinput⟩
        · have hkeep : (s.edge c).countDown = s.countDown := by
            rw [countDown_of_pos hc.rst henable hoverflow hzero]
            exact if_neg (not_not_intro (hc.input.trans hinput.symm))
          right
          rw [toLoad_of_pos hinput hzero, toLoad_of_pos hnext (by rwa [hkeep]), hkeep]
          omega
    · right
      have hreach : (s.edge c).Reachable := by
        obtain ⟨cs, rfl⟩ := hs
        exact ⟨cs ++ [c], by rw [run_append, run_cons, run_nil]⟩
      have hle := toLoad_le hn hreach hnext
      rw [toLoad_of_new hinput]
      omega

/-- **A held input is loaded** before the counter has run through all its values once more. -/
theorem exists_loaded {x : ℕ → Cycle n} (hs : s.Reachable) (hn : 0 < n)
    (hx : ∀ k, Holding v (x k)) {k : ℕ} (hmany : longest n + 2 ≤ enabledEdges x k) :
    ∃ j, Loaded v (before edge s x j) ∧ enabledEdges x j ≤ longest n + 2 := by
  have hrank : ∀ k, Loaded v (before edge s x (k + 1)) ∨
      (before edge s x (k + 1)).toLoad v + (if (x k).cntEnable = true then 1 else 0) ≤
        (before edge s x k).toLoad v := by
    intro k
    rw [before_succ]
    exact toLoad_edge hn (hs.before x k) (hx k)
  have hbound : s.toLoad v ≤ longest n + 1 := by
    by_cases hinput : s.countDownInput = v
    · exact (toLoad_le hn hs hinput).trans (Nat.le_succ _)
    · exact Nat.le_of_eq (toLoad_of_new hinput)
  have hlate : s.toLoad v < enabledEdges x k := by omega
  obtain ⟨j, hloaded, hfew⟩ := @exists_goal_of_rank (fun k => (x k).cntEnable = true)
    (fun k => Loaded v (before edge s x k)) _ (fun k => (before edge s x k).toLoad v) hrank k hlate
  exact ⟨j, hloaded, hfew.trans (Nat.succ_le_succ hbound)⟩

end EslBusDemoExample

/-! ## On the bus -/

/-- The first `i` edges from edge `j` on that find the counter enabled. -/
def EslBusDemo.enabledFrom {n : ℕ} (s : EslBusDemo n) (x : ℕ → BusEdge) (j i : ℕ) : ℕ :=
  Nat.count (fun i => (s.afterReset x (j + i)).enable = true) i

/-- The enabled edges after which a value that is held in the register has been loaded. -/
def settling (n : ℕ) : ℕ := EslBusDemoExample.longest n + 2

/-- **The countdown on the bus.** A value other than zero that stays in the register from some
edge of a run on is loaded within the settling time, whatever the countdown was doing, and
from then on the enabled edges alone say what the LEDs show. -/
theorem countdown_repeats {n : ℕ} (s : EslBusDemo n) (x : ℕ → BusEdge) {v : BitVec n}
    (hv : v ≠ 0) {j : ℕ} (hreset : ∀ i, (x (j + i)).reset = false)
    (hheld : ∀ i, (s.afterReset x (j + i)).memMasked = v)
    (hmany : ∃ i, settling n ≤ s.enabledFrom x j i) :
    ∃ i, s.enabledFrom x j i ≤ settling n ∧ ∀ k,
      (s.afterReset x (j + i + k)).userOutput.toNat =
        shown v.toNat (s.afterReset x (j + i)).myIp.edgesLeft (s.enabledFrom x (j + i) k) := by
  have hn : 0 < n := by
    rw [Nat.pos_iff_ne_zero]
    rintro rfl
    exact hv (BitVec.eq_of_getLsbD_eq fun i hi => absurd hi (Nat.not_lt_zero i))
  have hrun : ∀ j i, (s.afterReset x (j + i)).myIp =
      before EslBusDemoExample.edge (s.afterReset x j).myIp
        (fun i => (s.afterReset x (j + i)).counterCycle (x (j + i))) i := by
    intro j i
    simp only [EslBusDemo.afterReset, before_add, EslBusDemo.before_myIp _ _ i]
  have hcycles : ∀ i, EslBusDemoExample.Holding v
      ((s.afterReset x (j + i)).counterCycle (x (j + i))) := fun i => ⟨hreset i, hheld i⟩
  obtain ⟨k, hk⟩ := hmany
  obtain ⟨i, hloaded, hfew⟩ := EslBusDemoExample.exists_loaded (s.reachable_myIp x j) hn hcycles hk
  rw [← hrun] at hloaded
  refine ⟨i, hfew, fun k => ?_⟩
  have hlater : ∀ k, EslBusDemoExample.Holding v
      ((s.afterReset x (j + i + k)).counterCycle (x (j + i + k))) := by
    intro k
    rw [Nat.add_assoc]
    exact hcycles (i + k)
  have hshown := EslBusDemoExample.countDown_shown (s.reachable_myIp x (j + i)) hn hv hlater
    hloaded k
  rw [← hrun] at hshown
  exact hshown

/-- The word that `main` of `c/main.c` writes. -/
def hostWord : BitVec 32 := 1 <<< 31 ||| 0x08

/-- The host program run once. -/
def hostWrite : ℕ → BusEdge
  | 0 => busWrite hostWord
  | _ => busIdle

theorem mem_hostWrite (i : ℕ) : (EslBusDemo.cleared.afterReset hostWrite (1 + i)).mem = hostWord := by
  rw [EslBusDemo.mem_afterReset_of_idle fun i => by rw [Nat.add_comm]; exact ⟨rfl, rfl⟩]
  decide

theorem enabledFrom_hostWrite (i : ℕ) : EslBusDemo.cleared.enabledFrom hostWrite 1 i = i := by
  rw [EslBusDemo.enabledFrom, Nat.count_iff_forall]
  intro k _
  rw [EslBusDemo.enable, mem_hostWrite]
  decide

/-- Within 4 min 15 s at 50 MHz the LEDs count down from 8 in rounds. -/
theorem countdown_repeats_host :
    ∃ i ≤ 12750000258, ∀ k, (EslBusDemo.cleared.afterReset hostWrite (1 + i + k)).userOutput.toNat =
      shown 8 (EslBusDemo.cleared.afterReset hostWrite (1 + i)).myIp.edgesLeft
        (EslBusDemo.cleared.enabledFrom hostWrite (1 + i) k) := by
  have hsettling : settling 8 = 12750000258 := rfl
  obtain ⟨i, hi, hshown⟩ := countdown_repeats EslBusDemo.cleared hostWrite
    (v := 8) (by decide) (j := 1) (fun i => by rw [Nat.add_comm]; rfl)
    (fun i => by rw [EslBusDemo.memMasked, mem_hostWrite]; decide)
    ⟨settling 8, Nat.le_of_eq (enabledFrom_hostWrite _).symm⟩
  rw [enabledFrom_hostWrite, hsettling] at hi
  exact ⟨i, hi, hshown⟩

end EmSysLab.Assignment07
