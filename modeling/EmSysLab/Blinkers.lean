import EmSysLab.Clocked.Blinker

/-!
# The blinking LEDs of assignment_01 and assignment_02

Three counters on a free-running clock, each turning an LED over at the edge that finds it at
its top value. All registers are declared with the value zero.
-/
namespace EmSysLab

open Clocked

namespace Assignment01

/-- `assignment_01/TopEntity.v`. -/
structure TopEntity where
  led1 : Bool
  led2 : Bool
  count : BitVec 32
  count2 : BitVec 32
  deriving DecidableEq, Repr

namespace TopEntity

def powerUp : TopEntity := ⟨false, false, 0, 0⟩

/-- One rising edge of clk. -/
def posedgeClk (s : TopEntity) (_ : Unit) : TopEntity where
  led1 := if s.count = 10000000 then !s.led1 else s.led1
  count := if s.count = 10000000 then 0 else s.count + 1
  led2 := if s.count2 = 50000000 then !s.led2 else s.led2
  count2 := if s.count2 = 50000000 then 0 else s.count2 + 1

def blinker1 (s : TopEntity) : Blinker 32 := ⟨s.count, s.led1⟩

def blinker2 (s : TopEntity) : Blinker 32 := ⟨s.count2, s.led2⟩

theorem blinker1_posedgeClk (s : TopEntity) (x : Unit) :
    (s.posedgeClk x).blinker1 = s.blinker1.edge 10000000 x := by
  by_cases htop : s.count = 10000000
  · rw [Blinker.edge_turn htop]
    simp only [blinker1, posedgeClk, if_pos htop]
  · rw [Blinker.edge_count htop]
    simp only [blinker1, posedgeClk, if_neg htop]

theorem blinker2_posedgeClk (s : TopEntity) (x : Unit) :
    (s.posedgeClk x).blinker2 = s.blinker2.edge 50000000 x := by
  by_cases htop : s.count2 = 50000000
  · rw [Blinker.edge_turn htop]
    simp only [blinker2, posedgeClk, if_pos htop]
  · rw [Blinker.edge_count htop]
    simp only [blinker2, posedgeClk, if_neg htop]

theorem before_blinker1 (s : TopEntity) (k : ℕ) :
    (before posedgeClk s (fun _ => ()) k).blinker1 = s.blinker1.running 10000000 k :=
  before_map blinker1 id blinker1_posedgeClk s _ k

theorem before_blinker2 (s : TopEntity) (k : ℕ) :
    (before posedgeClk s (fun _ => ()) k).blinker2 = s.blinker2.running 50000000 k :=
  before_map blinker2 id blinker2_posedgeClk s _ k

end TopEntity

end Assignment01

namespace Assignment02

/-- `assignment_02/TopEntity.v`. -/
structure TopEntity where
  led : BitVec 8
  count : BitVec 32
  deriving DecidableEq, Repr

namespace TopEntity

def powerUp : TopEntity := ⟨0, 0⟩

/-- One rising edge of FPGA_CLK1_50; of the LEDs only LED[0] is assigned. -/
def posedgeClk (s : TopEntity) (_ : Unit) : TopEntity where
  count := if s.count = 99999999 then 0 else s.count + 1
  led :=
    if s.count = 99999999 then s.led.extractLsb' 1 7 ++ BitVec.ofBool (!s.led.getLsbD 0) else s.led

def blinker (s : TopEntity) : Blinker 32 := ⟨s.count, s.led.getLsbD 0⟩

/-- The other LEDs. -/
def others (s : TopEntity) : BitVec 7 := s.led.extractLsb' 1 7

theorem blinker_posedgeClk (s : TopEntity) (x : Unit) :
    (s.posedgeClk x).blinker = s.blinker.edge 99999999 x := by
  have hlow : ∀ (v : BitVec 7) (b : Bool), (v ++ BitVec.ofBool b).getLsbD 0 = b := by decide
  by_cases htop : s.count = 99999999
  · rw [Blinker.edge_turn htop]
    simp only [blinker, posedgeClk, if_pos htop, hlow]
  · rw [Blinker.edge_count htop]
    simp only [blinker, posedgeClk, if_neg htop]

theorem others_posedgeClk (s : TopEntity) (x : Unit) : (s.posedgeClk x).others = s.others := by
  simp only [others, posedgeClk]
  split
  · exact BitVec.extractLsb'_append_eq_left
  · rfl

theorem before_blinker (s : TopEntity) (k : ℕ) :
    (before posedgeClk s (fun _ => ()) k).blinker = s.blinker.running 99999999 k :=
  before_map blinker id blinker_posedgeClk s _ k

theorem before_others (s : TopEntity) (k : ℕ) :
    (before posedgeClk s (fun _ => ()) k).others = s.others := by
  induction k with
  | zero => rfl
  | succ k ih => rw [before_succ, others_posedgeClk, ih]

theorem led_eq (s : TopEntity) : s.led = s.others ++ BitVec.ofBool (s.led.getLsbD 0) := by
  have hsplit : ∀ v : BitVec 8, v = v.extractLsb' 1 7 ++ BitVec.ofBool (v.getLsbD 0) := by decide
  exact hsplit s.led

end TopEntity

end Assignment02

/-- **The square waves** from power-up on, in clk edges. -/
theorem blinkers_square (k : ℕ) :
    (before Assignment01.TopEntity.posedgeClk .powerUp (fun _ => ()) k).led1 =
        decide (k / 10000001 % 2 = 1) ∧
      (before Assignment01.TopEntity.posedgeClk .powerUp (fun _ => ()) k).led2 =
        decide (k / 50000001 % 2 = 1) ∧
      (before Assignment02.TopEntity.posedgeClk .powerUp (fun _ => ()) k).led =
        if k / 100000000 % 2 = 1 then 1 else 0 := by
  refine ⟨?_, ?_, ?_⟩
  · have hblinker := Assignment01.TopEntity.before_blinker1 .powerUp k
    exact (congrArg Blinker.level hblinker).trans (Blinker.level_running_low _ k)
  · have hblinker := Assignment01.TopEntity.before_blinker2 .powerUp k
    exact (congrArg Blinker.level hblinker).trans (Blinker.level_running_low _ k)
  · have hblinker := Assignment02.TopEntity.before_blinker .powerUp k
    have hbit := (congrArg Blinker.level hblinker).trans (Blinker.level_running_low _ k)
    change (before Assignment02.TopEntity.posedgeClk .powerUp (fun _ => ()) k).led.getLsbD 0 =
      decide (k / 100000000 % 2 = 1) at hbit
    rw [Assignment02.TopEntity.led_eq, Assignment02.TopEntity.before_others, hbit]
    split
    · rename_i hodd
      rw [decide_eq_true hodd]
      rfl
    · rename_i heven
      rw [decide_eq_false heven]
      rfl

end EmSysLab
