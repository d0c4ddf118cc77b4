import EmSysLab.Assignment11.CommandParser
import EmSysLab.Assignment11.Motor

/-!
# What a motor command does to the motor

The documented payload is enable, direction, brake and a 5-bit duty that spans 0 to
100 percent. A command `[0x01, p]` is read as a byte below 0x81 that names nothing
and a byte above 0x7f, so it never reaches the motor registers. Whether the motor
pins obey it then depends on what earlier traffic left in them.
-/
namespace EmSysLab.Assignment11

open Serial Clocked

/-- A motor payload in the documented layout. -/
structure Payload where
  enable : Bool
  dir : Bool
  brake : Bool
  duty : BitVec 5
  deriving DecidableEq

namespace Payload

def bit (b : Bool) : BitVec 8 := (BitVec.ofBool b).setWidth 8

def byte (q : Payload) : BitVec 8 :=
  bit q.enable <<< 7 ||| bit q.dir <<< 6 ||| bit q.brake <<< 5 ||| q.duty.setWidth 8

/-- The bits of the motor command with this payload. -/
def bits (q : Payload) : List Bool := [motor1Command, q.byte].flatMap msbBits

end Payload

/-! ## The command is never recognised -/

theorem latched_motor : ∀ (carry : Bool) (p : BitVec 8),
    Pending.ofByte (latch carry motor1Command) = .none ∧
      Pending.ofByte (latch (motor1Command.getLsbD 0) p) = .none := by
  decide +kernel

theorem motor_ignored (byteIn : BitVec 8) {r : CommandRegs} (hr : r.currentCommand = 0)
    (q : Payload) : (run Decoder.bit ⟨byteIn, 0, r⟩ q.bits).cmd = r := by
  obtain ⟨hfirst, hsecond⟩ := latched_motor (byteIn.getLsbD 0) q.byte
  obtain ⟨hrun, -, -⟩ := run_bytes ⟨byteIn, 0, r⟩ rfl [motor1Command, q.byte]
  unfold Payload.bits
  rw [hrun]
  simp only [latched, List.foldl_cons, List.foldl_nil]
  rw [processByte_other hr hfirst, processByte_other hr hsecond]

/-! ## A motor command on the pins -/

/-- A mode-0 transaction that carries the motor command, and then CS and btn1 high for
good. SCLK and PICO are free once CS is high; btn1 is free until then. -/
structure MotorCommand (s : TopEntity) (q : Payload) where
  lead : List Pins
  body : List Pins
  rest : ℕ → Pins
  lead_high : Deselected (lead.map Pins.spi)
  body_low : Selected (body.map Pins.spi)
  body_bits : risingBits (lastLevel s.regs.core.spiClkPrev
    (sync.flight s.regs ++ lead.map Pins.spi)) (body.map Pins.spi) = q.bits
  rest_high : ∀ k, (rest k).spi.cs = true
  rest_btn1 : ∀ k, (rest k).btn1 = true ∧ (rest k).btn1Fell = false

namespace MotorCommand

variable {s : TopEntity} {q : Payload} (t : MotorCommand s q)

/-- The state before the `k`-th edge after the transaction. -/
def cycle (k : ℕ) : TopEntity :=
  before TopEntity.posedgeClk (run TopEntity.posedgeClk s (t.lead ++ t.body)) t.rest k

theorem cycle_eq_run (k : ℕ) : t.cycle k =
    run TopEntity.posedgeClk s (t.lead ++ t.body ++ (List.range k).map t.rest) := by
  rw [cycle, before_eq_run, ← run_append]

/-- Three cycles after the transaction the core has consumed all of it. -/
theorem core_cycle (k : ℕ) : (t.cycle (k + 3)).regs.core =
    run Core.clkProcess s.regs.core ((sync.flight s.regs ++ t.lead.map Pins.spi) ++
      (t.body.map Pins.spi ++ (List.range k).map fun j => (t.rest j).spi)) := by
  have hflight : (sync.flight s.regs).length = 3 := rfl
  have hsplit : (List.range (k + 3)).map (fun j => (t.rest j).spi) =
      (List.range k).map (fun j => (t.rest j).spi) ++
        (List.range 3).map (fun j => (t.rest (k + j)).spi) := by
    rw [List.range_add, List.map_append, List.map_map]
    rfl
  have hseen : sync.seen s.regs
        ((t.lead ++ t.body ++ (List.range (k + 3)).map t.rest).map Pins.spi) =
      ((sync.flight s.regs ++ t.lead.map Pins.spi) ++
        (t.body.map Pins.spi ++ (List.range k).map fun j => (t.rest j).spi)) ++
      (List.range 3).map (fun j => (t.rest (k + j)).spi) := by
    simp only [Delayed.seen, List.map_append, List.map_map, Function.comp_def, hsplit,
      List.append_assoc]
  rw [cycle_eq_run, TopEntity.run_regs, core_run, hseen]
  congr 1
  apply List.take_left'
  simp only [List.length_append, List.length_map, List.length_range, hflight]
  omega

/-- **The command changes no register of the motor.** -/
theorem outputs_cycle (hs : s.regs.CsIdle) (k : ℕ) :
    (t.cycle (k + 3)).regs.core.cmd.outputs = s.regs.core.cmd.outputs := by
  have hlead : Deselected (sync.flight s.regs ++ t.lead.map Pins.spi) :=
    deselected_append.mpr ⟨flight_deselected hs, t.lead_high⟩
  have hopen : sync.flight s.regs ++ t.lead.map Pins.spi ≠ [] := by
    intro h
    obtain ⟨hflight, -⟩ := List.append_eq_nil_iff.mp h
    exact List.cons_ne_nil _ _ hflight
  have hrest : Deselected ((List.range k).map fun j => (t.rest j).spi) := by
    intro x hx
    obtain ⟨j, -, rfl⟩ := List.mem_map.mp hx
    exact t.rest_high j
  have hbody := run_selected (run Core.clkProcess s.regs.core
    (sync.flight s.regs ++ t.lead.map Pins.spi)) t.body_low
  rw [run_spiClkPrev, t.body_bits, run_deselected _ hlead (.inl hopen)] at hbody
  have hcmd := congrArg Decoder.cmd hbody
  rw [motor_ignored _ rfl] at hcmd
  have houtputs := congrArg CommandRegs.outputs hcmd
  rw [core_cycle, run_append, run_append, outputs_deselected _ hrest]
  exact houtputs

theorem pwmInput_cycle (hs : s.regs.CsIdle) (k : ℕ) :
    TopEntity.pwmInput (t.cycle (k + 3)).regs.core.cmd = TopEntity.pwmInput s.regs.core.cmd := by
  have h := t.outputs_cycle hs k
  simp only [CommandRegs.outputs, Prod.mk.injEq] at h
  obtain ⟨hspeed, hdir, henable, hbrake, -⟩ := h
  simp only [TopEntity.pwmInput, hspeed, hdir, henable, hbrake]

theorem held (hs : s.Reachable) (hcs : s.regs.CsIdle) :
    TopEntity.Held t.cycle s.regs.core.cmd where
  inPeriod := by
    rw [cycle_eq_run]
    exact run_invariant TopEntity.inPeriod_posedgeClk hs.inPeriod _
  next := by
    intro k hk
    obtain ⟨k, rfl⟩ := Nat.exists_eq_add_of_le' hk
    obtain ⟨hbtn1, hfell⟩ := t.rest_btn1 (k + 3)
    rw [← t.pwmInput_cycle hcs k, ← hbtn1]
    conv_lhs => rw [cycle, before_succ]
    unfold TopEntity.posedgeClk
    rw [hfell]
    rfl

/-! ## The documented contract -/

/-- How many cycles of the period that starts `a` cycles after the pipeline has settled
have the PWM pin high. -/
def highCount (a : ℕ) : ℕ :=
  ((Finset.range 600).filter fun j => (t.cycle (5 + a + j)).pitchPwmVal = true).card

/-- What the payload asks for, from five cycles after the transaction on. -/
structure Obeyed : Prop where
  off : q.enable = false → ∀ k ≥ 5, (t.cycle k).pitchDirA = false ∧
    (t.cycle k).pitchDirB = false ∧ (t.cycle k).pitchPwmVal = false
  braking : q.enable = true → q.brake = true → ∀ k ≥ 5,
    (t.cycle k).pitchDirA = false ∧ (t.cycle k).pitchDirB = false
  running : q.enable = true → q.brake = false → ∀ k ≥ 5,
    (t.cycle k).pitchDirA = q.dir ∧ (t.cycle k).pitchDirB = !q.dir
  duty_zero : q.enable = true → q.duty = 0 → ∀ a, t.highCount a = 0
  duty_full : q.enable = true → q.duty = 31 → ∀ a, t.highCount a = 600
  duty_mono : q.enable = true → ∀ (q' : Payload) (t' : MotorCommand s q'), q'.enable = true →
    q.duty ≤ q'.duty → ∀ a a', t.highCount a ≤ t'.highCount a'

end MotorCommand

/-- The motor registers as they stand already do what the payload asks for. -/
def CommandRegs.Serves (r : CommandRegs) (q : Payload) : Prop :=
  if q.enable then
    q.duty ≠ 31 ∧ (q.duty = 0 → r.pwmEnable = false ∨ r.pwmSpeed = 0) ∧
      if q.brake then r.pwmEnable = false ∨ r.pwmBrake = true
      else r.pwmEnable = true ∧ r.pwmBrake = false ∧ r.pwmDir = q.dir
  else r.pwmEnable = false ∨ (r.pwmBrake = true ∧ r.pwmSpeed = 0)

instance (r : CommandRegs) (q : Payload) : Decidable (r.Serves q) := by
  unfold CommandRegs.Serves
  infer_instance

namespace MotorCommand

section Settled

variable {s : TopEntity} {q : Payload} (t : MotorCommand s q)
  (hs : s.Reachable) (hcs : s.regs.CsIdle)

include hs hcs

theorem highCount_eq (a : ℕ) : t.highCount a =
    if s.regs.core.cmd.pwmEnable then 6 * s.regs.core.cmd.pwmSpeed.toNat else 0 :=
  (t.held hs hcs).card_pwmVal a

theorem highCount_eq_zero (a : ℕ) :
    t.highCount a = 0 ↔ s.regs.core.cmd.pwmEnable = false ∨ s.regs.core.cmd.pwmSpeed = 0 := by
  rw [t.highCount_eq hs hcs]
  cases s.regs.core.cmd.pwmEnable with
  | false => simp
  | true =>
    rw [if_pos rfl, Nat.mul_eq_zero, BitVec.toNat_eq]
    simp

theorem highCount_ne_full (a : ℕ) : t.highCount a ≠ 600 := by
  have hspeed := s.regs.core.cmd.pwmSpeed.isLt
  rw [t.highCount_eq hs hcs]
  split <;> omega

/-- Both direction pins stay low exactly when the motor is disabled or braking. -/
theorem dirs_low_iff : (∀ k ≥ 5, (t.cycle k).pitchDirA = false ∧ (t.cycle k).pitchDirB = false) ↔
    s.regs.core.cmd.pwmEnable = false ∨ s.regs.core.cmd.pwmBrake = true := by
  have h := t.held hs hcs
  constructor
  · intro hlow
    obtain ⟨hA, hB⟩ := hlow 5 (Nat.le_refl 5)
    rw [h.dirA (by decide)] at hA
    rw [h.dirB (by decide)] at hB
    revert hA hB
    cases s.regs.core.cmd.pwmEnable <;> cases s.regs.core.cmd.pwmBrake <;>
      cases s.regs.core.cmd.pwmDir <;> decide
  · intro hreg k hk
    rw [h.dirA (by omega), h.dirB (by omega)]
    rcases hreg with he | hb
    · simp [he]
    · simp [hb]

theorem dirs_run_iff : (∀ k ≥ 5, (t.cycle k).pitchDirA = q.dir ∧ (t.cycle k).pitchDirB = !q.dir) ↔
    s.regs.core.cmd.pwmEnable = true ∧ s.regs.core.cmd.pwmBrake = false ∧
      s.regs.core.cmd.pwmDir = q.dir := by
  have h := t.held hs hcs
  constructor
  · intro hrun
    obtain ⟨hA, hB⟩ := hrun 5 (Nat.le_refl 5)
    rw [h.dirA (by decide)] at hA
    rw [h.dirB (by decide)] at hB
    revert hA hB
    cases s.regs.core.cmd.pwmEnable <;> cases s.regs.core.cmd.pwmBrake <;>
      cases s.regs.core.cmd.pwmDir <;> cases q.dir <;> decide
  · rintro ⟨he, hb, hd⟩ k hk
    rw [h.dirA (by omega), h.dirB (by omega), he, hb, hd]
    simp

theorem pwm_low_iff : (∀ k ≥ 5, (t.cycle k).pitchPwmVal = false) ↔
    s.regs.core.cmd.pwmEnable = false ∨ s.regs.core.cmd.pwmSpeed = 0 := by
  have h := t.held hs hcs
  constructor
  · intro hlow
    rw [← t.highCount_eq_zero hs hcs 0, highCount, Finset.card_eq_zero,
      Finset.filter_eq_empty_iff]
    intro j _
    rw [hlow (5 + 0 + j) (by omega)]
    decide
  · intro hreg k hk
    obtain ⟨k, rfl⟩ := Nat.exists_eq_add_of_le' (Nat.one_le_of_lt hk)
    rw [h.pwmVal (by omega)]
    rcases hreg with he | hspeed
    · simp [he]
    · simp [hspeed]

/-- A disabling command is obeyed by a motor that is off, or braking at speed zero. -/
theorem obeyed_off (he : q.enable = false) : t.Obeyed ↔ s.regs.core.cmd.pwmEnable = false ∨
    (s.regs.core.cmd.pwmBrake = true ∧ s.regs.core.cmd.pwmSpeed = 0) := by
  constructor
  · intro h
    have hoff := h.off he
    have hdirs := (t.dirs_low_iff hs hcs).mp fun k hk => ⟨(hoff k hk).1, (hoff k hk).2.1⟩
    have hpwm := (t.pwm_low_iff hs hcs).mp fun k hk => (hoff k hk).2.2
    rcases hdirs with hdis | hbrake
    · exact .inl hdis
    · exact hpwm.imp_right fun hspeed => ⟨hbrake, hspeed⟩
  · intro h
    have hdirs := (t.dirs_low_iff hs hcs).mpr (h.imp_right And.left)
    have hpwm := (t.pwm_low_iff hs hcs).mpr (h.imp_right And.right)
    have hon : q.enable ≠ true := by
      rw [he]
      decide
    exact
      { off := fun _ k hk => ⟨(hdirs k hk).1, (hdirs k hk).2, hpwm k hk⟩
        braking := fun h => absurd h hon
        running := fun h => absurd h hon
        duty_zero := fun h => absurd h hon
        duty_full := fun h => absurd h hon
        duty_mono := fun h => absurd h hon }

/-- An enabling command is obeyed if the direction pins stand as it says and its duty is
neither full nor a zero that the speed register does not have. -/
theorem obeyed_on (he : q.enable = true) : t.Obeyed ↔ q.duty ≠ 31 ∧
    (q.duty = 0 → s.regs.core.cmd.pwmEnable = false ∨ s.regs.core.cmd.pwmSpeed = 0) ∧
    if q.brake then s.regs.core.cmd.pwmEnable = false ∨ s.regs.core.cmd.pwmBrake = true
    else s.regs.core.cmd.pwmEnable = true ∧ s.regs.core.cmd.pwmBrake = false ∧
      s.regs.core.cmd.pwmDir = q.dir := by
  constructor
  · intro h
    refine ⟨?_, ?_, ?_⟩
    · intro hfull
      exact t.highCount_ne_full hs hcs 0 (h.duty_full he hfull 0)
    · intro hzero
      exact (t.highCount_eq_zero hs hcs 0).mp (h.duty_zero he hzero 0)
    · cases hb : q.brake with
      | false => exact (t.dirs_run_iff hs hcs).mp (h.running he hb)
      | true => exact (t.dirs_low_iff hs hcs).mp (h.braking he hb)
  · rintro ⟨hfull, hzero, hdirs⟩
    have hon : q.enable ≠ false := by
      rw [he]
      decide
    exact
      { off := fun h => absurd h hon
        braking := fun _ hb => (t.dirs_low_iff hs hcs).mpr (by rwa [hb, if_pos rfl] at hdirs)
        running := fun _ hb =>
          (t.dirs_run_iff hs hcs).mpr (by rwa [hb, if_neg (by decide)] at hdirs)
        duty_zero := fun _ hd a => (t.highCount_eq_zero hs hcs a).mpr (hzero hd)
        duty_full := fun _ hd => absurd hd hfull
        duty_mono := fun _ q' t' _ _ a a' => by
          rw [t.highCount_eq hs hcs, t'.highCount_eq hs hcs] }

end Settled

end MotorCommand

/-- **Motor command semantics.** The pins obey a motor command exactly when the motor
registers already stood for it. -/
theorem motorCommand_iff (s : TopEntity) (hs : s.Reachable) (hcs : s.regs.CsIdle) (q : Payload)
    (t : MotorCommand s q) : t.Obeyed ↔ s.regs.core.cmd.Serves q := by
  unfold CommandRegs.Serves
  cases he : q.enable with
  | false =>
    rw [if_neg (by decide)]
    exact t.obeyed_off hs hcs he
  | true =>
    rw [if_pos rfl]
    exact t.obeyed_on hs hcs he

/-- The device at rest with these motor registers. -/
def TopEntity.rest (r : CommandRegs) : TopEntity :=
  ⟨.rest 0 r encoderPlaceholder, .reset {}⟩

theorem TopEntity.reachable_rest {r : CommandRegs} (hr : r.ledLatch = false) :
    (TopEntity.rest r).Reachable :=
  ⟨_, [], ⟨hr, rfl, rfl, rfl⟩, rfl⟩

/-- The motor command at the device's own pace, with btn1 released. -/
def MotorCommand.plain (r : CommandRegs) (q : Payload) : MotorCommand (TopEntity.rest r) q where
  lead := []
  body := (mode0 1 1 q.bits).map fun x => ⟨x, true, false⟩
  rest := fun _ => ⟨⟨false, false, true⟩, true, false⟩
  lead_high := fun _ hx => absurd hx List.not_mem_nil
  body_low := by
    rw [List.map_map]
    exact (List.map_id _).symm ▸ selected_mode0 1 1 q.bits
  body_bits := by
    rw [List.map_map]
    exact (congrArg _ (List.map_id _)).trans (risingBits_mode0 0 0 _ q.bits)
  rest_high := fun _ => rfl
  rest_btn1 := fun _ => ⟨rfl, rfl⟩

/-- A motor that already runs as asked keeps running. -/
theorem motorCommand_running :
    (MotorCommand.plain ⟨0, 10, true, true, false, false⟩ ⟨true, true, false, 10⟩).Obeyed :=
  (motorCommand_iff _ (TopEntity.reachable_rest rfl) rfl _ _).mpr (by decide)

/-- A stopped motor stays stopped: `[0x01, 0xd0]` asks for half speed in direction 1. -/
theorem motorCommand_lost :
    (TopEntity.rest clearedRegs).Reachable ∧ (TopEntity.rest clearedRegs).regs.CsIdle ∧
      (MotorCommand.plain clearedRegs ⟨true, true, false, 16⟩).highCount 0 = 0 ∧
      ((MotorCommand.plain clearedRegs ⟨true, true, false, 16⟩).cycle 5).pitchDirA = false ∧
      ¬(MotorCommand.plain clearedRegs ⟨true, true, false, 16⟩).Obeyed := by
  have hdir : ((MotorCommand.plain clearedRegs ⟨true, true, false, 16⟩).cycle 5).pitchDirA =
      false := by decide +kernel
  refine ⟨TopEntity.reachable_rest rfl, rfl, ?_, hdir, ?_⟩
  · exact (MotorCommand.highCount_eq_zero _ (TopEntity.reachable_rest rfl) rfl 0).mpr (.inl rfl)
  · intro h
    obtain ⟨hrun, -⟩ := h.running rfl rfl 5 (Nat.le_refl 5)
    rw [hdir] at hrun
    exact absurd hrun (by decide)

end EmSysLab.Assignment11
