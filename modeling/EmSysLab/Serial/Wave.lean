import EmSysLab.Clocked.Run
import Mathlib.Tactic.Common

/-!
# Sampled four-wire serial waveforms

A waveform is the list of levels a slave samples on clock, chip select (active
low) and master output, one `Sample` for each edge of its own clock. Nothing is
assumed of a waveform: clock events are defined by adjacent samples, and a timing
discipline is a predicate `Gap` on the distance between events. A mode-0 master
puts a bit on the wire before the clock rises and reads the slave's line at the
same rise.
-/
namespace Serial

/-- The levels of the three slave inputs at one edge of the slave's clock. -/
structure Sample where
  sclk : Bool
  pico : Bool
  cs : Bool
  deriving DecidableEq, Repr

/-- Chip select is low, so the slave is addressed, at every sample. -/
def Selected (xs : List Sample) : Prop := ∀ x ∈ xs, x.cs = false

/-- Chip select is high at every sample. -/
def Deselected (xs : List Sample) : Prop := ∀ x ∈ xs, x.cs = true

instance (xs : List Sample) : Decidable (Selected xs) := List.decidableBAll _ _

instance (xs : List Sample) : Decidable (Deselected xs) := List.decidableBAll _ _

theorem Selected.take {xs : List Sample} (h : Selected xs) (n : ℕ) : Selected (xs.take n) :=
  fun x hx => h x (List.mem_of_mem_take hx)

theorem selected_cons {x : Sample} {xs : List Sample} :
    Selected (x :: xs) ↔ x.cs = false ∧ Selected xs := List.forall_mem_cons

theorem selected_append {xs ys : List Sample} :
    Selected (xs ++ ys) ↔ Selected xs ∧ Selected ys := List.forall_mem_append

theorem deselected_cons {x : Sample} {xs : List Sample} :
    Deselected (x :: xs) ↔ x.cs = true ∧ Deselected xs := List.forall_mem_cons

theorem deselected_append {xs ys : List Sample} :
    Deselected (xs ++ ys) ↔ Deselected xs ∧ Deselected ys := List.forall_mem_append

theorem selected_replicate (n : ℕ) (sclk pico : Bool) :
    Selected (List.replicate n ⟨sclk, pico, false⟩) := by
  intro x hx
  obtain ⟨-, rfl⟩ := List.mem_replicate.mp hx
  rfl

theorem deselected_replicate (n : ℕ) (sclk pico : Bool) :
    Deselected (List.replicate n ⟨sclk, pico, true⟩) := by
  intro x hx
  obtain ⟨-, rfl⟩ := List.mem_replicate.mp hx
  rfl

/-! ## Clock events -/

/-- The serial clock rises between a sample at level `prev` and the sample `x`. -/
def rising (prev : Bool) (x : Sample) : Bool := x.sclk && !prev

/-- The serial clock falls. -/
def falling (prev : Bool) (x : Sample) : Bool := !x.sclk && prev

/-- The serial clock changes level. -/
def toggling (prev : Bool) (x : Sample) : Bool := x.sclk != prev

/-- The clock level after a list of samples. -/
def lastLevel : Bool → List Sample → Bool
  | prev, [] => prev
  | _, x :: xs => lastLevel x.sclk xs

@[simp] theorem lastLevel_nil (prev : Bool) : lastLevel prev [] = prev := rfl

@[simp] theorem lastLevel_cons (prev : Bool) (x : Sample) (xs : List Sample) :
    lastLevel prev (x :: xs) = lastLevel x.sclk xs := rfl

@[simp] theorem lastLevel_append (prev : Bool) (xs ys : List Sample) :
    lastLevel prev (xs ++ ys) = lastLevel (lastLevel prev xs) ys := by
  induction xs generalizing prev with
  | nil => rfl
  | cons x xs ih => exact ih x.sclk

/-- How often the event `ev` happens. -/
def count (ev : Bool → Sample → Bool) : Bool → List Sample → ℕ
  | _, [] => 0
  | prev, x :: xs => (ev prev x).toNat + count ev x.sclk xs

@[simp] theorem count_nil (ev : Bool → Sample → Bool) (prev : Bool) : count ev prev [] = 0 := rfl

@[simp] theorem count_cons (ev : Bool → Sample → Bool) (prev : Bool) (x : Sample)
    (xs : List Sample) : count ev prev (x :: xs) = (ev prev x).toNat + count ev x.sclk xs := rfl

theorem count_append (ev : Bool → Sample → Bool) (prev : Bool) (xs ys : List Sample) :
    count ev prev (xs ++ ys) = count ev prev xs + count ev (lastLevel prev xs) ys := by
  induction xs generalizing prev with
  | nil => simp
  | cons x xs ih => simp only [List.cons_append, count_cons, ih, lastLevel_cons, Nat.add_assoc]

theorem count_take_le (ev : Bool → Sample → Bool) (prev : Bool) (xs : List Sample) (n : ℕ) :
    count ev prev (xs.take n) ≤ count ev prev xs := by
  conv_rhs => rw [← List.take_append_drop n xs, count_append]
  exact Nat.le_add_right _ _

/-- Every change of level is either a rise or a fall. -/
theorem count_toggling (prev : Bool) (xs : List Sample) :
    count toggling prev xs = count rising prev xs + count falling prev xs := by
  induction xs generalizing prev with
  | nil => rfl
  | cons x xs ih =>
    simp only [count_cons, ih]
    cases prev <;> cases hx : x.sclk <;> simp [toggling, rising, falling, hx] <;> omega

/-- Rises and falls alternate. -/
theorem count_rising_eq (prev : Bool) (xs : List Sample) :
    count rising prev xs + prev.toNat = count falling prev xs + (lastLevel prev xs).toNat := by
  induction xs generalizing prev with
  | nil => simp
  | cons x xs ih =>
    have h := ih x.sclk
    simp only [count_cons, lastLevel_cons]
    cases prev <;> cases hx : x.sclk <;> simp_all [rising, falling] <;> omega

/-- The bits that arrive: the data level at every rise of the serial clock. -/
def risingBits : Bool → List Sample → List Bool
  | _, [] => []
  | prev, x :: xs => if rising prev x then x.pico :: risingBits x.sclk xs else risingBits x.sclk xs

@[simp] theorem risingBits_nil (prev : Bool) : risingBits prev [] = [] := rfl

theorem risingBits_cons (prev : Bool) (x : Sample) (xs : List Sample) :
    risingBits prev (x :: xs) =
      if rising prev x then x.pico :: risingBits x.sclk xs else risingBits x.sclk xs := rfl

theorem risingBits_append (prev : Bool) (xs ys : List Sample) :
    risingBits prev (xs ++ ys) = risingBits prev xs ++ risingBits (lastLevel prev xs) ys := by
  induction xs generalizing prev with
  | nil => rfl
  | cons x xs ih =>
    simp only [List.cons_append, risingBits_cons, ih, lastLevel_cons]
    split <;> rfl

theorem length_risingBits (prev : Bool) (xs : List Sample) :
    (risingBits prev xs).length = count rising prev xs := by
  induction xs generalizing prev with
  | nil => rfl
  | cons x xs ih =>
    rw [risingBits_cons, count_cons, ← ih x.sclk]
    cases rising prev x <;> simp [Nat.add_comm]

/-- Every initial segment of the arriving bits is what some initial segment of the
waveform carries. -/
theorem exists_take_risingBits (prev : Bool) (xs : List Sample) (n : ℕ) :
    ∃ k ≤ xs.length, risingBits prev (xs.take k) = (risingBits prev xs).take n := by
  induction xs generalizing prev n with
  | nil => exact ⟨0, Nat.le_refl _, by simp⟩
  | cons x xs ih =>
    cases hr : rising prev x with
    | false =>
      obtain ⟨k, hk, hbits⟩ := ih x.sclk n
      refine ⟨k + 1, Nat.succ_le_succ hk, ?_⟩
      rw [List.take_succ_cons, risingBits_cons, risingBits_cons, hr]
      exact hbits
    | true =>
      cases n with
      | zero => exact ⟨0, Nat.zero_le _, rfl⟩
      | succ n =>
        obtain ⟨k, hk, hbits⟩ := ih x.sclk n
        refine ⟨k + 1, Nat.succ_le_succ hk, ?_⟩
        rw [List.take_succ_cons, risingBits_cons, risingBits_cons, hr, if_pos rfl, if_pos rfl,
          List.take_succ_cons, hbits]

/-- The same waveform with chip select raised right after the `m`-th rise, so from the
first sample on if `m` is zero. -/
def raiseCsAfter : ℕ → Bool → List Sample → List Sample
  | _, _, [] => []
  | 0, _, x :: xs => { x with cs := true } :: raiseCsAfter 0 x.sclk xs
  | m + 1, prev, x :: xs =>
    x :: raiseCsAfter (if rising prev x then m else m + 1) x.sclk xs

private theorem raiseCsAfter_zero (prev : Bool) (xs : List Sample) :
    Deselected (raiseCsAfter 0 prev xs) := by
  induction xs generalizing prev with
  | nil => intro x hx; exact absurd hx List.not_mem_nil
  | cons x xs ih => exact deselected_cons.mpr ⟨rfl, ih x.sclk⟩

/-- Raising chip select keeps the waveform up to the `m`-th rise and deselects the rest. -/
theorem raiseCsAfter_split (m : ℕ) (prev : Bool) (xs : List Sample) :
    ∃ u v v', xs = u ++ v ∧ raiseCsAfter m prev xs = u ++ v' ∧ Deselected v' ∧
      risingBits prev u = (risingBits prev xs).take m := by
  induction xs generalizing m prev with
  | nil => exact ⟨[], [], [], rfl, by cases m <;> rfl, fun x hx => absurd hx List.not_mem_nil, by simp⟩
  | cons x xs ih =>
    cases m with
    | zero => exact ⟨[], x :: xs, _, rfl, rfl, raiseCsAfter_zero prev (x :: xs), rfl⟩
    | succ m =>
      obtain ⟨u, v, v', hxs, hraise, hv, hbits⟩ := ih (if rising prev x then m else m + 1) x.sclk
      refine ⟨x :: u, v, v', by rw [hxs]; rfl, by rw [raiseCsAfter, hraise]; rfl, hv, ?_⟩
      rw [risingBits_cons, risingBits_cons, hbits]
      split <;> rfl

/-! ## Timing -/

/-- Successive `ev` events are at least `n` samples apart, and the first one at least
`n` samples after a start that lies `d` samples back. -/
def Gap (ev : Bool → Sample → Bool) (n : ℕ) : ℕ → Bool → List Sample → Prop
  | _, _, [] => True
  | d, prev, x :: xs =>
    if ev prev x then n ≤ d ∧ Gap ev n 1 x.sclk xs else Gap ev n (d + 1) x.sclk xs

instance decidableGap (ev : Bool → Sample → Bool) (n : ℕ) :
    ∀ (d : ℕ) (prev : Bool) (xs : List Sample), Decidable (Gap ev n d prev xs)
  | _, _, [] => inferInstanceAs (Decidable True)
  | d, prev, x :: xs =>
    have := decidableGap ev n 1 x.sclk xs
    have := decidableGap ev n (d + 1) x.sclk xs
    inferInstanceAs (Decidable (if ev prev x then n ≤ d ∧ Gap ev n 1 x.sclk xs
      else Gap ev n (d + 1) x.sclk xs))

private theorem Gap.quiet_at {ev : Bool → Sample → Bool} {n d : ℕ} {prev : Bool}
    {u v : List Sample} {x : Sample} (h : Gap ev n d prev (u ++ x :: v))
    (hx : ev (lastLevel prev u) x = true) :
    n ≤ d + u.length ∧ count ev prev (u.take (u.length + 1 - n)) = count ev prev u := by
  induction u generalizing d prev with
  | nil =>
    simp only [List.nil_append, Gap, lastLevel_nil] at h hx
    rw [if_pos hx] at h
    exact ⟨h.1, by simp⟩
  | cons y u ih =>
    simp only [List.cons_append, Gap] at h
    rw [lastLevel_cons] at hx
    cases hy : ev prev y with
    | true =>
      rw [if_pos hy] at h
      obtain ⟨hn, hc⟩ := ih h.2 hx
      refine ⟨by omega, ?_⟩
      rw [List.length_cons, show u.length + 1 + 1 - n = (u.length + 1 - n) + 1 by omega,
        List.take_succ_cons, count_cons, count_cons, hc]
    | false =>
      rw [if_neg (by simp [hy])] at h
      obtain ⟨hn, hc⟩ := ih h hx
      refine ⟨by simp only [List.length_cons]; omega, ?_⟩
      by_cases hle : n ≤ u.length + 1
      · rw [List.length_cons, show u.length + 1 + 1 - n = (u.length + 1 - n) + 1 by omega,
          List.take_succ_cons, count_cons, count_cons, hc]
      · rw [show u.length + 1 - n = 0 by omega, List.take_zero, count_nil] at hc
        rw [List.length_cons, show u.length + 1 + 1 - n = 0 by omega, List.take_zero, count_nil,
          count_cons, hy, ← hc]
        rfl

/-- At an event the start is at least `n` edges back, and leaving out up to the last
`n - 1` samples misses no earlier event. -/
theorem Gap.quiet {ev : Bool → Sample → Bool} {n d : ℕ} {prev : Bool} {u v : List Sample}
    {x : Sample} (h : Gap ev n d prev (u ++ x :: v)) (hx : ev (lastLevel prev u) x = true) :
    n ≤ d + u.length ∧
      ∀ k, u.length + 1 - n ≤ k → count ev prev (u.take k) = count ev prev u := by
  obtain ⟨hstart, hquiet⟩ := h.quiet_at hx
  refine ⟨hstart, fun k hk => ?_⟩
  have hlow := count_take_le ev prev (u.take k) (u.length + 1 - n)
  rw [List.take_take, Nat.min_eq_left hk, hquiet] at hlow
  exact Nat.le_antisymm (count_take_le ev prev u k) hlow

/-- Before a rise that comes `n` samples or more after the last change, every rise has
been followed by its fall, and leaving out the last `n - 1` samples misses none. -/
theorem Gap.falls_at_rise {n : ℕ} {u v : List Sample} {x : Sample}
    (h : Gap toggling n 0 false (u ++ x :: v)) (hx : rising (lastLevel false u) x = true) :
    n ≤ u.length ∧
      ∀ k, u.length + 1 - n ≤ k → count falling false (u.take k) = count rising false u := by
  have htoggle : toggling (lastLevel false u) x = true := by
    unfold rising at hx
    unfold toggling
    revert hx
    cases x.sclk <;> cases lastLevel false u <;> decide
  have hlevel : lastLevel false u = false := by
    unfold rising at hx
    rw [Bool.and_eq_true, Bool.not_eq_true'] at hx
    exact hx.2
  obtain ⟨hlen, hquiet⟩ := h.quiet htoggle
  rw [Nat.zero_add] at hlen
  refine ⟨hlen, fun k hk => ?_⟩
  have htoggles := hquiet k hk
  have hrise := count_take_le rising false u k
  have hfall := count_take_le falling false u k
  have halternate := count_rising_eq false u
  rw [count_toggling, count_toggling] at htoggles
  rw [hlevel] at halternate
  omega

/-! ## What a mode-0 master reads -/

section Master

variable {σ : Type*} (step : σ → Sample → σ) (poci : σ → Bool)

/-- The levels of the slave's output line at the rises of the serial clock, each the
level just before the slave's clock edge that first samples the clock high. -/
def masterReads : σ → Bool → List Sample → List Bool
  | _, _, [] => []
  | s, prev, x :: xs =>
    if rising prev x then poci s :: masterReads (step s x) x.sclk xs
    else masterReads (step s x) x.sclk xs

/-- If the level at each rise is a function of the number of rises before it, the
reads are that function in order. -/
theorem masterReads_eq {f : ℕ → Bool} {s : σ} {prev : Bool} {xs : List Sample} (m : ℕ)
    (h : ∀ u x v, xs = u ++ x :: v → rising (lastLevel prev u) x = true →
      poci (Clocked.run step s u) = f (m + count rising prev u)) :
    masterReads step poci s prev xs =
      (List.range' m (count rising prev xs)).map f := by
  induction xs generalizing s prev m with
  | nil => rfl
  | cons x xs ih =>
    have htail : ∀ m', m' = m + (rising prev x).toNat →
        masterReads step poci (step s x) x.sclk xs =
          (List.range' m' (count rising x.sclk xs)).map f := by
      rintro m' rfl
      refine ih _ fun u y v hu hy => ?_
      have hc := h (x :: u) y v (by rw [hu]; rfl) hy
      rw [Clocked.run_cons, count_cons, ← Nat.add_assoc] at hc
      exact hc
    cases hx : rising prev x with
    | true =>
      have h0 := h [] x xs rfl hx
      rw [Clocked.run_nil, count_nil, Nat.add_zero] at h0
      rw [masterReads, if_pos hx, count_cons, hx, h0, htail (m + 1) (by rw [hx]; rfl),
        Bool.toNat_true, Nat.add_comm 1, List.range'_succ, List.map_cons]
    | false =>
      rw [masterReads, if_neg (by simp [hx]), count_cons, hx, htail m (by rw [hx]; rfl),
        Bool.toNat_false, Nat.zero_add]

end Master

/-! ## A plain master -/

/-- Every bit as `low` samples with the clock low and `high` with the clock high, the
data level held throughout. -/
def mode0 (low high : ℕ) (bits : List Bool) : List Sample :=
  bits.flatMap fun b =>
    List.replicate low ⟨false, b, false⟩ ++ List.replicate high ⟨true, b, false⟩

theorem selected_mode0 (low high : ℕ) (bits : List Bool) : Selected (mode0 low high bits) := by
  intro x hx
  obtain ⟨b, -, hb⟩ := List.mem_flatMap.mp hx
  rcases List.mem_append.mp hb with h | h
  · exact selected_replicate low false b x h
  · exact selected_replicate high true b x h

theorem risingBits_low (n : ℕ) (prev b : Bool) :
    risingBits prev (List.replicate n ⟨false, b, false⟩) = [] := by
  induction n generalizing prev with
  | zero => rfl
  | succ n ih => rw [List.replicate_succ, risingBits_cons, ih]; rfl

private theorem risingBits_high (n : ℕ) (b : Bool) :
    risingBits true (List.replicate n ⟨true, b, false⟩) = [] := by
  induction n with
  | zero => rfl
  | succ n ih => rw [List.replicate_succ, risingBits_cons, ih]; rfl

private theorem lastLevel_replicate (n : ℕ) (prev : Bool) (x : Sample) :
    lastLevel prev (List.replicate (n + 1) x) = x.sclk := by
  induction n generalizing prev with
  | zero => rfl
  | succ n ih => rw [List.replicate_succ, lastLevel_cons, ih]

/-- The plain master delivers exactly its bits, whatever the level before. -/
theorem risingBits_mode0 (low high : ℕ) (prev : Bool) (bits : List Bool) :
    risingBits prev (mode0 (low + 1) (high + 1) bits) = bits := by
  induction bits generalizing prev with
  | nil => rfl
  | cons b bits ih =>
    have hcell : risingBits prev (List.replicate (low + 1) ⟨false, b, false⟩ ++
        List.replicate (high + 1) ⟨true, b, false⟩) = [b] := by
      rw [risingBits_append, risingBits_low, lastLevel_replicate, List.nil_append,
        List.replicate_succ, risingBits_cons]
      exact congrArg (b :: ·) (risingBits_high high b)
    rw [mode0, List.flatMap_cons, risingBits_append, hcell]
    exact congrArg (b :: ·) (ih _)

/-- A stretch at the level of before only lets time pass. -/
private theorem gap_level {n d k : ℕ} {x : Sample} {ys : List Sample}
    (h : Gap toggling n (d + k) x.sclk ys) :
    Gap toggling n d x.sclk (List.replicate k x ++ ys) := by
  induction k generalizing d with
  | zero => exact h
  | succ k ih =>
    rw [List.replicate_succ, List.cons_append, Gap, if_neg (by simp [toggling])]
    exact ih (by rwa [Nat.add_assoc, Nat.add_comm 1])

/-- A stretch at one level, entered in time, leaves time for the next change. -/
theorem gap_stretch {n k d : ℕ} {prev : Bool} {x : Sample} {ys : List Sample} (hk : n ≤ k + 1)
    (hd : x.sclk ≠ prev → n ≤ d) (h : ∀ d', n ≤ d' → Gap toggling n d' x.sclk ys) :
    Gap toggling n d prev (List.replicate (k + 1) x ++ ys) := by
  rw [List.replicate_succ, List.cons_append, Gap]
  split
  · rename_i ht
    refine ⟨hd ?_, gap_level (h _ (by omega))⟩
    unfold toggling at ht
    exact bne_iff_ne.mp ht
  · exact gap_level (h _ (by omega))

/-- The plain master keeps its own timing. -/
theorem gap_mode0 {k d : ℕ} {prev : Bool} {ys : List Sample} (bits : List Bool)
    (hd : prev = true → k + 1 ≤ d)
    (hys : ∀ d prev, (prev = true → k + 1 ≤ d) → Gap toggling (k + 1) d prev ys) :
    Gap toggling (k + 1) d prev (mode0 (k + 1) (k + 1) bits ++ ys) := by
  induction bits generalizing d prev with
  | nil => exact hys d prev hd
  | cons b bits ih =>
    rw [mode0, List.flatMap_cons, List.append_assoc, List.append_assoc]
    refine gap_stretch (Nat.le_refl _) (fun h => hd (eq_true_of_ne_false h.symm)) fun d₁ hd₁ => ?_
    exact gap_stretch (Nat.le_refl _) (fun _ => hd₁) fun d₂ hd₂ => ih fun _ => hd₂

end Serial
