import EmSysLab.Assignment06.FrameRing
import EmSysLab.Planar.Blocks
import Mathlib.Algebra.BigOperators.Fin
import Mathlib.Tactic.Ring

/-!
# Green pixels of a frame

`analyze_frame` of `gstreamer_appsink.c` for a width `w` and a height `h` in place of the two
constants: an I420 frame is the plane Y, one byte a pixel, and after it U and V, one byte
for every two by two pixels. A read outside the frame has no value. The numbers are `int`s in
the source, so the sizes of a C program are those for which FRAME_SIZE does not overflow.
-/
namespace EmSysLab.Assignment06

open Planar

def width : ℕ := 640
def height : ℕ := 480

/-- FRAME_SIZE. -/
def frameSize (w h : ℕ) : ℕ := w * h * 3 / 2

/-- The constants and every product in FRAME_SIZE are `int`s. -/
def IntSized (w h : ℕ) : Prop := w < 2 ^ 31 ∧ h < 2 ^ 31 ∧ w * h * 3 < 2 ^ 31

example : IntSized width height := by unfold IntSized width height; decide

/-- The byte at an offset from the start of the frame. -/
def Frame.read {F : ℕ} (data : Frame F) (offset : ℕ) : Option (BitVec 8) :=
  if h : offset < F then some (data ⟨offset, h⟩) else none

def uvIndex (w y x : ℕ) : ℕ := y / 2 * (w / 2) + x / 2

/-- Where the planes U and V begin. -/
def offsetU (w h : ℕ) : ℕ := w * h
def offsetV (w h : ℕ) : ℕ := w * h + w * h / 4

/-- The lower left quadrant of the colour plane. -/
def isGreen (uVal vVal : BitVec 8) : Bool := decide (uVal < 130) && decide (vVal < 90)

variable {w h : ℕ}

/-- The body of the two loops. -/
def analyzePixel (data : Frame (frameSize w h)) (y counter x : ℕ) : Option ℕ := do
  let uVal ← data.read (offsetU w h + uvIndex w y x)
  let vVal ← data.read (offsetV w h + uvIndex w y x)
  return if isGreen uVal vVal then counter + 1 else counter

def analyzeFrame (data : Frame (frameSize w h)) : Option ℕ :=
  (List.range h).foldlM
    (fun counter y => (List.range w).foldlM (analyzePixel data y) counter) 0

/-! ## The planes -/

namespace Frame

/-- The sample `i` of the plane U. -/
def planeU (data : Frame (frameSize w h)) (i : Fin (w * h / 4)) : BitVec 8 :=
  data ⟨offsetU w h + i, by
    have hi := i.isLt
    unfold offsetU frameSize
    omega⟩

/-- The sample `i` of the plane V. -/
def planeV (data : Frame (frameSize w h)) (i : Fin (w * h / 4)) : BitVec 8 :=
  data ⟨offsetV w h + i, by
    have hi := i.isLt
    unfold offsetV frameSize
    omega⟩

variable (data : Frame (frameSize w h))

theorem read_planeU (i : Fin (w * h / 4)) :
    data.read (offsetU w h + i) = some (data.planeU i) := dif_pos _

theorem read_planeV (i : Fin (w * h / 4)) :
    data.read (offsetV w h + i) = some (data.planeV i) := dif_pos _

/-- The chroma positions that count. -/
def green : Finset (Fin (w * h / 4)) :=
  Finset.univ.filter fun i => data.planeU i < 130 ∧ data.planeV i < 90

end Frame

/-! ## The double loop -/

section Loop

variable (data : Frame (frameSize w h))

/-- What a chroma position adds to the counter for each of its pixels. -/
def greenAt (i : ℕ) : ℕ := if h : i < w * h / 4 then if ⟨i, h⟩ ∈ data.green then 1 else 0 else 0

theorem sum_greenAt : ∑ i ∈ Finset.range (w * h / 4), greenAt data i = data.green.card := by
  have hfin : ∀ i : Fin (w * h / 4), greenAt data i = if i ∈ data.green then 1 else 0 :=
    fun i => dif_pos i.isLt
  rw [Finset.sum_range, Finset.sum_congr rfl fun i _ => hfin i, Finset.sum_ite_mem,
    Finset.univ_inter, Finset.card_eq_sum_ones]

/-- A pixel whose sample is in the planes is counted or not, and never fails. -/
theorem analyzePixel_eq {y x : ℕ} (hi : uvIndex w y x < w * h / 4) (counter : ℕ) :
    analyzePixel data y counter x = some (counter + greenAt data (uvIndex w y x)) := by
  have hU : data.read (offsetU w h + uvIndex w y x) = some (data.planeU ⟨_, hi⟩) :=
    data.read_planeU ⟨_, hi⟩
  have hV : data.read (offsetV w h + uvIndex w y x) = some (data.planeV ⟨_, hi⟩) :=
    data.read_planeV ⟨_, hi⟩
  have hgreen : isGreen (data.planeU ⟨_, hi⟩) (data.planeV ⟨_, hi⟩) = true ↔
      ⟨_, hi⟩ ∈ data.green := by
    unfold isGreen Frame.green
    rw [Bool.and_eq_true, decide_eq_true_iff, decide_eq_true_iff, Finset.mem_filter]
    exact (and_iff_right (Finset.mem_univ _)).symm
  unfold analyzePixel
  rw [hU, hV, greenAt, dif_pos hi]
  change some (if isGreen (data.planeU ⟨_, hi⟩) (data.planeV ⟨_, hi⟩) then counter + 1
    else counter) = _
  by_cases hmem : ⟨_, hi⟩ ∈ data.green
  · rw [if_pos hmem, if_pos (hgreen.mpr hmem)]
  · rw [if_neg hmem, if_neg fun h => hmem (hgreen.mp h)]
    rfl

/-- The loops add up the contributions of all pixels. -/
theorem analyzeFrame_eq_sum (hi : ∀ y < h, ∀ x < w, uvIndex w y x < w * h / 4) :
    analyzeFrame data =
      some (∑ y ∈ Finset.range h, ∑ x ∈ Finset.range w, greenAt data (uvIndex w y x)) := by
  unfold analyzeFrame
  rw [foldlM_range (g := fun y => ∑ x ∈ Finset.range w, greenAt data (uvIndex w y x)),
    Nat.zero_add]
  intro y hy counter
  apply foldlM_range
  intro x hx counter
  exact analyzePixel_eq data (hi y hy x hx) counter

end Loop

/-! ## Even sizes -/

theorem quarter_even (a b : ℕ) : 2 * a * (2 * b) / 4 = b * a := by
  rw [show 2 * a * (2 * b) = 4 * (b * a) by ring, Nat.mul_div_cancel_left _ (by decide)]

theorem uvIndex_even (a y x : ℕ) : uvIndex (2 * a) y x = blockIndex a y x := by
  rw [uvIndex, Nat.mul_div_cancel_left _ (by decide)]
  rfl

theorem uvIndex_lt (hw : Even w) (hh : Even h) {y x : ℕ} (hy : y < h) (hx : x < w) :
    uvIndex w y x < w * h / 4 := by
  obtain ⟨a, rfl⟩ := hw.two_dvd
  obtain ⟨b, rfl⟩ := hh.two_dvd
  rw [uvIndex_even, quarter_even]
  exact blockIndex_lt hy hx

/-- What the count of green pixels is to mean. -/
structure GreenCount (data : Frame (frameSize w h)) : Prop where
  /-- Every access stays in its own plane. -/
  in_planes : ∀ y < h, ∀ x < w,
    offsetU w h + uvIndex w y x ∈ Set.Ico (w * h) (w * h + w * h / 4) ∧
      offsetV w h + uvIndex w y x ∈ Set.Ico (w * h + w * h / 4) (w * h * 3 / 2)
  /-- A sample is read for the four pixels of its block. -/
  block : ∀ i < w * h / 4,
    ((Finset.range h ×ˢ Finset.range w).filter fun q => uvIndex w q.1 q.2 = i) =
      ({2 * (i / (w / 2)), 2 * (i / (w / 2)) + 1} : Finset ℕ) ×ˢ
        {2 * (i % (w / 2)), 2 * (i % (w / 2)) + 1}
  count : analyzeFrame data = some (4 * data.green.card)
  at_most : 4 * data.green.card ≤ w * h
  /-- Nothing that is computed overflows an `int` if FRAME_SIZE does not. -/
  in_int : IntSized w h → offsetV w h < 2 ^ 31 ∧ 4 * data.green.card < 2 ^ 31 ∧
    ∀ y < h, ∀ x < w, uvIndex w y x < 2 ^ 31
  y_plane : ∀ data' : Frame (frameSize w h),
    (∀ i, w * h ≤ i.val → data' i = data i) → analyzeFrame data' = analyzeFrame data

theorem analyzeFrame_count (hw : Even w) (hh : Even h) (data : Frame (frameSize w h)) :
    analyzeFrame data = some (4 * data.green.card) := by
  rw [analyzeFrame_eq_sum data fun y hy x hx => uvIndex_lt hw hh hy hx, ← sum_greenAt]
  obtain ⟨a, rfl⟩ := hw.two_dvd
  obtain ⟨b, rfl⟩ := hh.two_dvd
  simp only [uvIndex_even]
  rw [sum_blockIndex, quarter_even]
  rfl

/-- **Green pixels.** For every frame of even width and height. -/
theorem analyzeFrame_greenCount (w h : ℕ) (hw : Even w) (hh : Even h)
    (data : Frame (frameSize w h)) : GreenCount data := by
  have hcard : data.green.card ≤ w * h / 4 := by
    refine Nat.le_trans (Finset.card_le_univ _) ?_
    rw [Fintype.card_fin]
  constructor
  · intro y hy x hx
    have hi := uvIndex_lt hw hh hy hx
    simp only [Set.mem_Ico, offsetU, offsetV]
    omega
  · intro i hi
    obtain ⟨a, rfl⟩ := hw.two_dvd
    obtain ⟨b, rfl⟩ := hh.two_dvd
    rw [quarter_even] at hi
    simp only [uvIndex_even]
    rw [filter_blockIndex hi, Nat.mul_div_cancel_left _ (by decide)]
  · exact analyzeFrame_count hw hh data
  · omega
  · rintro ⟨-, -, hsize⟩
    unfold offsetV
    refine ⟨by omega, by omega, fun y hy x hx => ?_⟩
    have hi := uvIndex_lt hw hh hy hx
    omega
  · intro data' hsame
    have hgreen : data'.green = data.green := by
      unfold Frame.green Frame.planeU Frame.planeV
      apply Finset.filter_congr
      intro i _
      rw [hsame _ (Nat.le_add_right _ _), hsame _ (by unfold offsetV; simp; omega)]
    rw [analyzeFrame_count hw hh, analyzeFrame_count hw hh, hgreen]

/-- In a frame of zero bytes every pixel is green. -/
theorem analyzeFrame_zero :
    analyzeFrame (fun _ => 0 : Frame (frameSize width height)) = some (width * height) := by
  have hgreen : Frame.green (fun _ => 0 : Frame (frameSize width height)) = Finset.univ :=
    Finset.filter_true_of_mem fun i _ => ⟨(by decide : (0 : BitVec 8) < 130), by
      change (0 : BitVec 8) < 90
      decide⟩
  rw [(analyzeFrame_greenCount width height (by decide) (by decide) fun _ => 0).count, hgreen,
    Finset.card_univ, Fintype.card_fin]
  rfl

end EmSysLab.Assignment06
