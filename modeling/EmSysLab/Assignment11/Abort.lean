import EmSysLab.Assignment11.CommandParser

/-!
# Aborted transactions

Only an eighth rise processes a byte, and a payload needs a second one. So a
transaction of fewer than sixteen rises changes no output register, and the rises
after the last whole byte change none either, wherever CS goes up. The counting is
done on the bits; the waveform enters through `run_selected` alone.
-/
namespace EmSysLab.Assignment11

open Serial Clocked

/-- Fewer than sixteen bits complete at most a command byte. -/
theorem outputs_few_bits (d : Decoder) (hd : d.bitCount = 0) (hc : d.cmd.currentCommand = 0)
    (bits : List Bool) (h : bits.length < 16) :
    (run Decoder.bit d bits).cmd.outputs = d.cmd.outputs := by
  rw [Decoder.run_whole_bytes d hd bits]
  by_cases h8 : bits.length < 8
  · rw [show bits.length / 8 = 0 by omega, Nat.mul_zero, List.take_zero, run_nil]
  · have hne : bits.take 8 ≠ [] := by
      intro he
      have := congrArg List.length he
      rw [List.length_take, List.length_nil] at this
      omega
    have hseven : (bits.take 8).dropLast.length = 7 := by
      rw [List.length_dropLast, List.length_take]
      omega
    rw [show bits.length / 8 = 1 by omega, Nat.mul_one, ← List.dropLast_append_getLast hne,
      Decoder.run_eight d hd _ _ hseven]
    exact processByte_outputs hc _

/-- A transaction that CS ends, as the core sees it from state `s`: CS high, CS low with
any clocking, CS high again until the synchronisers have drained. -/
structure Aborted (s : Regs) where
  pins : List Sample
  idle : List Sample
  low : List Sample
  high : List Sample
  seen : sync.seen s pins = idle ++ (low ++ high)
  idle_high : Deselected idle
  low_low : Selected low
  high_high : Deselected high
  drained : 4 ≤ high.length

namespace Aborted

variable {s : Regs} (t : Aborted s)

/-- The clock level when CS falls. -/
def level : Bool := lastLevel s.core.spiClkPrev t.idle

/-- The number of rises detected while CS is low. -/
def rises : ℕ := count rising t.level t.low

theorem length_pins : t.pins.length + 3 = t.idle.length + (t.low.length + t.high.length) := by
  have h := congrArg List.length t.seen
  rw [length_seen] at h
  simpa only [List.length_append] using h

/-- The receive registers after CS has been low for a waveform `xs`. -/
theorem decoder_low (hs : s.AfterCsHigh) {xs : List Sample} (hxs : Selected xs) :
    (run Core.clkProcess s.core (t.idle ++ xs)).decoder =
      run Decoder.bit ⟨s.core.byteIn, 0, s.core.cmd.idle⟩ (risingBits t.level xs) := by
  rw [run_append, run_selected _ hxs,
    run_deselected _ t.idle_high (.inr (AfterCsHigh.cleared hs)), run_spiClkPrev]
  rfl

/-- The outputs after a whole waveform `idle`, `xs` with CS low, `ys` with CS high. -/
theorem outputs_low_high (hs : s.AfterCsHigh) {xs ys : List Sample} (hxs : Selected xs)
    (hys : Deselected ys) :
    (run Core.clkProcess s.core (t.idle ++ (xs ++ ys))).cmd.outputs =
      (run Decoder.bit ⟨s.core.byteIn, 0, s.core.cmd.idle⟩ (risingBits t.level xs)).cmd.outputs := by
  rw [← List.append_assoc, run_append, outputs_deselected _ hys, ← t.decoder_low hs hxs]
  rfl

/-- Fewer than sixteen rises leave the outputs unchanged at every moment. -/
theorem outputs_take (hs : s.AfterCsHigh) (hfew : t.rises < 16) {k : ℕ}
    (hk : k ≤ t.pins.length) :
    (run clkProcess s (t.pins.take k)).core.cmd.outputs = s.core.cmd.outputs := by
  have hlow : Selected (t.low.take (k - t.idle.length)) := t.low_low.take _
  have hhigh : Deselected (t.high.take (k - t.idle.length - t.low.length)) :=
    fun x hx => t.high_high x (List.mem_of_mem_take hx)
  rw [core_run_take s t.pins hk, t.seen, List.take_append, List.take_append]
  by_cases hidle : k < t.idle.length
  · rw [show k - t.idle.length = 0 by omega, List.take_zero, Nat.zero_sub, List.take_zero,
      List.append_nil, List.append_nil]
    exact outputs_deselected _ (fun x hx => t.idle_high x (List.mem_of_mem_take hx))
  · rw [List.take_of_length_le (by omega), t.outputs_low_high hs hlow hhigh]
    refine outputs_few_bits _ rfl rfl _ ?_
    rw [length_risingBits]
    exact Nat.lt_of_le_of_lt (count_take_le rising t.level t.low _) hfew

/-- At the end the core has taken in all but the last three samples. -/
theorem core_pins : (run clkProcess s t.pins).core =
    run Core.clkProcess s.core (t.idle ++ (t.low ++ t.high.take (t.high.length - 3))) := by
  have hlen := t.length_pins
  have hd := t.drained
  rw [core_run, t.seen,
    show t.pins.length = t.idle.length + (t.low.length + (t.high.length - 3)) by omega,
    List.take_length_add_append, List.take_length_add_append]

/-- The outputs at the end depend on the whole bytes only. -/
theorem outputs_run (hs : s.AfterCsHigh) :
    (run clkProcess s t.pins).core.cmd.outputs =
      (run Decoder.bit ⟨s.core.byteIn, 0, s.core.cmd.idle⟩
        ((risingBits t.level t.low).take (8 * (t.rises / 8)))).cmd.outputs := by
  rw [t.core_pins,
    t.outputs_low_high hs t.low_low (fun x hx => t.high_high x (List.mem_of_mem_take hx)),
    Decoder.run_whole_bytes _ rfl, length_risingBits]
  rfl

theorem cleared_run :
    (run clkProcess s t.pins).core.bitCount = 0 ∧
      (run clkProcess s t.pins).core.cmd.currentCommand = 0 := by
  rw [t.core_pins, ← List.append_assoc, run_append]
  have hd := t.drained
  have hne : t.high.take (t.high.length - 3) ≠ [] := by
    intro he
    have := congrArg List.length he
    rw [List.length_take, List.length_nil] at this
    omega
  have h := run_deselected (run Core.clkProcess s.core (t.idle ++ t.low))
    (fun x hx => t.high_high x (List.mem_of_mem_take hx)) (.inl hne)
  exact ⟨congrArg Decoder.bitCount h, congrArg (fun d => d.cmd.currentCommand) h⟩

/-- The outputs when the same core sees CS raised right after the last whole byte. -/
theorem outputs_raised (hs : s.AfterCsHigh) {s' : Regs} {pins' : List Sample}
    (hcore : s'.core = s.core)
    (hseen : sync.seen s' pins' =
      t.idle ++ (raiseCsAfter (8 * (t.rises / 8)) t.level t.low ++ t.high)) :
    (run clkProcess s' pins').core.cmd.outputs =
      (run Decoder.bit ⟨s.core.byteIn, 0, s.core.cmd.idle⟩
        ((risingBits t.level t.low).take (8 * (t.rises / 8)))).cmd.outputs := by
  obtain ⟨u, v, v', hlow, hraise, hv', hbits⟩ :=
    raiseCsAfter_split (8 * (t.rises / 8)) t.level t.low
  have hd := t.drained
  have hlen := congrArg List.length hseen
  rw [length_seen, hraise] at hlen
  simp only [List.length_append] at hlen
  obtain ⟨hu, -⟩ := selected_append.mp (hlow ▸ t.low_low)
  have hys : Deselected (v' ++ t.high.take (t.high.length - 3)) :=
    deselected_append.mpr ⟨hv', fun x hx => t.high_high x (List.mem_of_mem_take hx)⟩
  rw [core_run, hcore, hseen, hraise, ← hbits, ← t.outputs_low_high hs hu hys,
    show pins'.length = t.idle.length + ((u ++ v').length + (t.high.length - 3)) by
      rw [List.length_append]; omega,
    List.take_length_add_append, List.take_length_add_append, List.append_assoc]

/-- The bits sent at the slave's own pace and CS raised after the last one. -/
def plain (s : Regs) (hs : s.CsIdle) (bits : List Bool) : Aborted s where
  pins := mode0 1 1 bits ++ List.replicate 4 ⟨false, false, true⟩
  idle := sync.flight s
  low := mode0 1 1 bits
  high := List.replicate 4 ⟨false, false, true⟩
  seen := rfl
  idle_high := flight_deselected hs
  low_low := Transaction.selected_pace bits
  high_high := deselected_replicate 4 false false
  drained := Nat.le_refl 4

end Aborted

/-- **Aborted transactions.** Fewer than sixteen rises never change the motor or LED
registers; any number of rises ends as if CS had been raised right after the last
whole byte, where the second run may differ from the first in what is in flight; and
CS high leaves no bit counted and no command pending. -/
theorem aborted_intact (s : Regs) (hs : s.AfterCsHigh) (t : Aborted s) :
    (t.rises < 16 → ∀ k ≤ t.pins.length,
      (run clkProcess s (t.pins.take k)).core.cmd.outputs = s.core.cmd.outputs) ∧
    (∀ (s' : Regs) (pins' : List Sample), s'.core = s.core →
      sync.seen s' pins' =
        t.idle ++ (raiseCsAfter (8 * (t.rises / 8)) t.level t.low ++ t.high) →
      (run clkProcess s t.pins).core.cmd.outputs =
        (run clkProcess s' pins').core.cmd.outputs) ∧
    (run clkProcess s t.pins).core.bitCount = 0 ∧
    (run clkProcess s t.pins).core.cmd.currentCommand = 0 :=
  ⟨fun hfew _ hk => t.outputs_take hs hfew hk,
    fun _ _ hcore hseen => (t.outputs_run hs).trans (t.outputs_raised hs hcore hseen).symm,
    t.cleared_run⟩

/-- A command byte as sent for the motor, cut off three bits into its payload. -/
def cutOff : Aborted (.rest 0 clearedRegs encoderPlaceholder) :=
  Aborted.plain _ rfl (msbBits motor2Command ++ [true, true, true])

theorem aborted_intact_motor :
    (run clkProcess (.rest 0 clearedRegs encoderPlaceholder) cutOff.pins).core.cmd.outputs =
        clearedRegs.outputs ∧
      (run clkProcess (.rest 0 clearedRegs encoderPlaceholder) cutOff.pins).core.cmd.outputs =
        (run clkProcess (.rest 0 clearedRegs encoderPlaceholder)
          (raiseCsAfter 8 false cutOff.low ++ cutOff.high)).core.cmd.outputs := by
  have h := aborted_intact _ (afterCsHigh_rest 0 clearedRegs encoderPlaceholder) cutOff
  refine ⟨?_, h.2.1 _ _ rfl (by decide)⟩
  have hfew := h.1 (by decide) _ (Nat.le_refl _)
  rwa [List.take_length] at hfew

end EmSysLab.Assignment11
