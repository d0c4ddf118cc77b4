import EmSysLab.Serial.ShiftRegister
import EmSysLab.Serial.Wave

/-!
# Transfers on a shared bus

Several slaves may share the clock and the data lines of a master, which selects one of
them in each transfer. A slave that is not selected sees the clock run all the same, with
its chip select high. `Transfer` is what one slave samples in either case.
-/
namespace Serial

/-- A transfer of `bits`: chip select high for at least one sample, the last with the clock
low, and then the clocks, whose rises are `n` samples apart and as far from the start. -/
structure Transfer (n : ℕ) (selected : Bool) (bits : List Bool) where
  gap : List Sample
  body : List Sample
  gap_ne : gap ≠ []
  gap_high : Deselected gap
  gap_low : lastLevel true gap = false
  body_cs : ∀ x ∈ body, x.cs = !selected
  body_bits : risingBits false body = bits
  timed : Gap rising n 0 false body

/-- The level after a stretch of samples is the last one's. -/
theorem lastLevel_of_ne_nil {xs : List Sample} (h : xs ≠ []) (a b : Bool) :
    lastLevel a xs = lastLevel b xs := by
  cases xs with
  | nil => exact absurd rfl h
  | cons x xs => rfl

namespace Transfer

variable {n : ℕ} {selected : Bool} {bits : List Bool}

def pins (t : Transfer n selected bits) : List Sample := t.gap ++ t.body

theorem pins_ne (t : Transfer n selected bits) : t.pins ≠ [] :=
  List.append_ne_nil_of_left_ne_nil t.gap_ne _

theorem lastLevel_gap (t : Transfer n selected bits) (prev : Bool) :
    lastLevel prev t.gap = false :=
  (lastLevel_of_ne_nil t.gap_ne prev true).trans t.gap_low

theorem count_body (t : Transfer n selected bits) : count rising false t.body = bits.length := by
  rw [← length_risingBits, t.body_bits]

theorem selected_body (t : Transfer n true bits) : Selected t.body := t.body_cs

theorem deselected_body (t : Transfer n false bits) : Deselected t.body := t.body_cs

/-- A slave that is not selected sees its chip select high all the time. -/
theorem deselected_pins (t : Transfer n false bits) : Deselected t.pins :=
  deselected_append.mpr ⟨t.gap_high, t.deselected_body⟩

end Transfer

/-! ## A plain transfer -/

/-- The same waveform at another level of chip select. -/
def withCs (cs : Bool) (xs : List Sample) : List Sample := xs.map fun x => { x with cs := cs }

theorem risingBits_withCs (cs prev : Bool) (xs : List Sample) :
    risingBits prev (withCs cs xs) = risingBits prev xs := by
  induction xs generalizing prev with
  | nil => rfl
  | cons x xs ih =>
    have htail := ih x.sclk
    rw [withCs, List.map_cons, risingBits_cons, risingBits_cons]
    change (if rising prev x then x.pico :: risingBits x.sclk (withCs cs xs) else
      risingBits x.sclk (withCs cs xs)) = _
    rw [htail]

theorem gap_withCs {n d : ℕ} {cs prev : Bool} {xs : List Sample} (h : Gap rising n d prev xs) :
    Gap rising n d prev (withCs cs xs) := by
  induction xs generalizing d prev with
  | nil => trivial
  | cons x xs ih =>
    rw [Gap] at h
    change if rising prev x then n ≤ d ∧ Gap rising n 1 x.sclk (withCs cs xs) else
      Gap rising n (d + 1) x.sclk (withCs cs xs)
    cases hr : rising prev x with
    | true =>
      rw [hr, if_pos rfl] at h
      exact ⟨h.1, ih h.2⟩
    | false =>
      rw [hr, if_neg Bool.false_ne_true] at h
      exact ih h

/-- Rises are at least as far apart as changes. -/
theorem gap_rising {n d d' : ℕ} {prev : Bool} {xs : List Sample} (h : Gap toggling n d prev xs)
    (hd : d ≤ d') : Gap rising n d' prev xs := by
  induction xs generalizing d d' prev with
  | nil => trivial
  | cons x xs ih =>
    rw [Gap] at h ⊢
    cases hr : rising prev x with
    | true =>
      have ht : toggling prev x = true := by
        unfold rising at hr
        unfold toggling
        revert hr
        cases x.sclk <;> cases prev <;> decide
      rw [ht, if_pos rfl] at h
      exact ⟨Nat.le_trans h.1 hd, ih h.2 (Nat.le_refl 1)⟩
    | false =>
      rw [if_neg Bool.false_ne_true]
      cases ht : toggling prev x with
      | true =>
        rw [ht, if_pos rfl] at h
        exact ih h.2 (Nat.le_add_left 1 d')
      | false =>
        rw [ht, if_neg Bool.false_ne_true] at h
        exact ih h (Nat.succ_le_succ hd)

/-- One sample of rest, then `k + 1` samples a level. -/
def Transfer.plain (k : ℕ) (selected : Bool) (bits : List Bool) :
    Transfer (k + 1) selected bits where
  gap := [⟨false, false, true⟩]
  body := withCs (!selected) (mode0 (k + 1) (k + 1) bits)
  gap_ne := by decide
  gap_high := by decide
  gap_low := rfl
  body_cs := by
    intro x hx
    obtain ⟨y, -, rfl⟩ := List.mem_map.mp hx
    rfl
  body_bits := by rw [risingBits_withCs, risingBits_mode0]
  timed := by
    apply gap_withCs
    rw [← List.append_nil (mode0 _ _ bits)]
    exact gap_rising (gap_mode0 bits (fun h => absurd h (by decide)) fun _ _ _ => trivial)
      (Nat.le_refl 0)

end Serial
