import EmSysLab.Serial.Transfer

/-!
# Waveforms as messages

Whatever a master does, a slave sees its chip select high for a while and then low for a
while, over and over. `Message` is one such turn with no assumption on the clock, and every
waveform that begins with chip select high is a list of them.
-/
namespace Serial

/-- Chip select is high for at least one sample, and then low for any number. -/
structure Message where
  gap : List Sample
  body : List Sample
  gap_ne : gap ≠ []
  gap_high : Deselected gap
  body_low : Selected body

namespace Message

def pins (m : Message) : List Sample := m.gap ++ m.body

/-- The bits that arrive while chip select is low. -/
def bits (m : Message) : List Bool := risingBits (lastLevel false m.gap) m.body

theorem lastLevel_gap (m : Message) (prev : Bool) :
    lastLevel prev m.gap = lastLevel false m.gap := lastLevel_of_ne_nil m.gap_ne prev false

/-- The pause of one sample. -/
def pause (x : Sample) (hx : x.cs = true) : Message where
  gap := [x]
  body := []
  gap_ne := List.cons_ne_nil x []
  gap_high := deselected_cons.mpr ⟨hx, fun _ h => absurd h List.not_mem_nil⟩
  body_low := fun _ h => absurd h List.not_mem_nil

/-- One more sample with chip select low. -/
def extend (m : Message) (x : Sample) (hx : x.cs = false) : Message where
  gap := m.gap
  body := m.body ++ [x]
  gap_ne := m.gap_ne
  gap_high := m.gap_high
  body_low := selected_append.mpr ⟨m.body_low, selected_cons.mpr ⟨hx, fun _ h =>
    absurd h List.not_mem_nil⟩⟩

theorem pins_extend (m : Message) (x : Sample) (hx : x.cs = false) :
    (m.extend x hx).pins = m.pins ++ [x] := (List.append_assoc m.gap m.body [x]).symm

/-- One sample of pause. -/
def shortGap : List Sample := [⟨false, false, true⟩]

theorem shortGap_ne : shortGap ≠ [] := List.cons_ne_nil _ _

theorem shortGap_high : Deselected shortGap := deselected_replicate 1 false false

theorem selected_cells (bits : List Bool) : Selected (mode0 1 1 bits) := selected_mode0 1 1 bits

/-- The bits sent at the slave's own pace. -/
def plain (bits : List Bool) : Message where
  gap := shortGap
  body := mode0 1 1 bits
  gap_ne := shortGap_ne
  gap_high := shortGap_high
  body_low := selected_cells bits

theorem bits_plain (bits : List Bool) : (plain bits).bits = bits := risingBits_mode0 0 0 false bits

/-- **Every waveform is a list of messages**, unless it begins with chip select low. -/
theorem exists_messages (xs : List Sample) (hxs : ∀ x ∈ xs.head?, x.cs = true) :
    ∃ ms : List Message, ms.flatMap pins = xs := by
  induction xs using List.reverseRecOn with
  | nil => exact ⟨[], rfl⟩
  | append_singleton xs x ih =>
    have hhead : ∀ y ∈ xs.head?, y.cs = true := by
      intro y hy
      refine hxs y ?_
      rw [List.head?_append, Option.mem_def.mp hy]
      rfl
    obtain ⟨ms, hms⟩ := ih hhead
    cases hx : x.cs with
    | true =>
      refine ⟨ms ++ [pause x hx], ?_⟩
      rw [List.flatMap_append, hms]
      rfl
    | false =>
      rcases List.eq_nil_or_concat' ms with rfl | ⟨init, m, rfl⟩
      · obtain rfl : xs = [] := hms.symm
        exact absurd (hxs x rfl) (by rw [hx]; decide)
      · refine ⟨init ++ [m.extend x hx], ?_⟩
        rw [← hms, List.flatMap_append, List.flatMap_append, List.flatMap_singleton,
          List.flatMap_singleton, pins_extend, List.append_assoc]

end Message

end Serial
