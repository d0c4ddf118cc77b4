import Mathlib.Data.List.GetD
import Mathlib.Data.List.Induction

/-!
# Shift registers and most-significant-bit-first words

`shiftIn` is the register transfer `r <= {r[w-2:0], b}` repeated over a list of
bits. Its content is described bit by bit, so that a word sent most significant
bit first, a partially received word and a register being emptied are all read off
one lemma.
-/
namespace Serial

variable {w : ℕ}

/-- The bits of a word, most significant first. -/
def msbBits (v : BitVec w) : List Bool := (List.range w).map v.getMsbD

@[simp] theorem length_msbBits (v : BitVec w) : (msbBits v).length = w := by
  simp [msbBits]

theorem msbBits_append {m n : ℕ} (x : BitVec m) (y : BitVec n) :
    msbBits (x ++ y) = msbBits x ++ msbBits y := by
  apply List.ext_getElem
  · simp
  · intro i hi _
    rw [length_msbBits] at hi
    simp only [msbBits, List.getElem_append, List.length_map, List.length_range, List.getElem_map,
      List.getElem_range, BitVec.getMsbD_append]
    by_cases him : i < m
    · rw [if_neg (Nat.not_le.mpr him), dif_pos him]
    · rw [if_pos (Nat.not_lt.mp him), dif_neg him]

/-- A word is its high part above its low part. -/
theorem msbBits_split {m n : ℕ} (v : BitVec (m + n)) :
    msbBits v = msbBits (v.extractLsb' n m) ++ msbBits (v.extractLsb' 0 n) := by
  rw [← msbBits_append]
  congr 1
  apply BitVec.eq_of_getLsbD_eq
  intro i hi
  simp only [BitVec.getLsbD_append, BitVec.getLsbD_extractLsb', Nat.zero_add]
  split
  · simp [*]
  · rw [decide_eq_true (by omega), Bool.true_and]
    congr 1
    omega

theorem getLastD_msbBits (v : BitVec (w + 1)) (b : Bool) :
    (msbBits v).getLastD b = v.getLsbD 0 := by
  rw [msbBits, List.range_succ, List.map_append, List.map_singleton, List.getLastD_concat,
    BitVec.getMsbD, decide_eq_true (Nat.lt_succ_self w), Bool.true_and]
  congr 1
  omega

/-- Shift a list of bits into the low end of a register, first bit first. -/
def shiftIn (r : BitVec w) (bits : List Bool) : BitVec w := bits.foldl BitVec.shiftConcat r

@[simp] theorem shiftIn_nil (r : BitVec w) : shiftIn r [] = r := rfl

@[simp] theorem shiftIn_cons (r : BitVec w) (b : Bool) (bits : List Bool) :
    shiftIn r (b :: bits) = shiftIn (r.shiftConcat b) bits := rfl

theorem shiftIn_append (r : BitVec w) (bits bits' : List Bool) :
    shiftIn r (bits ++ bits') = shiftIn (shiftIn r bits) bits' := List.foldl_append

theorem shiftIn_concat (r : BitVec w) (bits : List Bool) (b : Bool) :
    shiftIn r (bits ++ [b]) = (shiftIn r bits).shiftConcat b := shiftIn_append r bits [b]

/-- The low positions hold the newest bits, newest lowest; above them stand the old
bits of the register, moved up. -/
theorem getLsbD_shiftIn (r : BitVec w) (bits : List Bool) {i : ℕ} (hi : i < w) :
    (shiftIn r bits).getLsbD i =
      if i < bits.length then bits.getD (bits.length - 1 - i) false
      else r.getLsbD (i - bits.length) := by
  induction bits using List.reverseRecOn generalizing i with
  | nil => simp
  | append_singleton bits b ih =>
    rw [shiftIn_concat, BitVec.getLsbD_shiftConcat, decide_eq_true hi, Bool.true_and]
    cases i with
    | zero => simp
    | succ i =>
      rw [if_neg (Nat.succ_ne_zero i), Nat.add_sub_cancel, ih (by omega)]
      simp only [List.length_append, List.length_cons, List.length_nil, Nat.zero_add,
        Nat.add_lt_add_iff_right, Nat.add_sub_cancel]
      split
      · rw [List.getD_append _ _ _ _ (by omega)]
        congr 1
        omega
      · congr 1
        omega

/-- Counted from the top, every bit beyond the word is zero. -/
theorem getMsbD_eq_ite (v : BitVec w) (i : ℕ) :
    v.getMsbD i = if i < w then v.getLsbD (w - 1 - i) else false := by
  rw [BitVec.getMsbD]
  by_cases hi : i < w
  · rw [decide_eq_true hi, Bool.true_and, if_pos hi]
  · rw [decide_eq_false hi, Bool.false_and, if_neg hi]

/-- Emptying a register from the top: after `n` zeros the top bit is bit `n`. -/
theorem msb_shiftIn_zeros (v : BitVec w) (n : ℕ) :
    (shiftIn v (List.replicate n false)).msb = v.getMsbD n := by
  rcases Nat.eq_zero_or_pos w with rfl | hw
  · simp [BitVec.msb]
  · rw [BitVec.msb_eq_getLsbD_last, getLsbD_shiftIn _ _ (by omega), BitVec.getMsbD]
    simp only [List.length_replicate]
    split
    · simp [show ¬ n < w by omega]
    · rw [decide_eq_true (by omega), Bool.true_and]

theorem shiftIn_zeros_of_le (v : BitVec w) {n : ℕ} (h : w ≤ n) :
    shiftIn v (List.replicate n false) = 0 := by
  apply BitVec.eq_of_getLsbD_eq
  intro i hi
  rw [getLsbD_shiftIn _ _ hi, List.length_replicate, if_pos (by omega)]
  simp

/-- A whole word shifted in leaves nothing of the old content. -/
@[simp] theorem shiftIn_msbBits (r v : BitVec w) : shiftIn r (msbBits v) = v := by
  apply BitVec.eq_of_getLsbD_eq
  intro i hi
  rw [getLsbD_shiftIn r _ hi, length_msbBits, if_pos hi, List.getD_eq_getElem _ _ (by simp; omega)]
  simp only [msbBits, List.getElem_map, List.getElem_range, BitVec.getMsbD]
  rw [decide_eq_true (by omega), Bool.true_and]
  congr 1
  omega

/-- Once a word's worth of bits has been shifted in, the register holds the last of them. -/
theorem msbBits_shiftIn (r : BitVec w) {bits : List Bool} (h : w ≤ bits.length) :
    msbBits (shiftIn r bits) = bits.drop (bits.length - w) := by
  apply List.ext_getElem
  · rw [length_msbBits, List.length_drop]
    omega
  · intro i hi _
    rw [length_msbBits] at hi
    simp only [msbBits, List.getElem_map, List.getElem_range, BitVec.getMsbD, List.getElem_drop]
    rw [decide_eq_true hi, Bool.true_and, getLsbD_shiftIn r _ (by omega), if_pos (by omega),
      List.getD_eq_getElem _ _ (by omega)]
    congr 1
    omega

/-- The lowest place holds the last bit shifted in. -/
theorem getLsbD_zero_shiftIn (hw : 0 < w) (r : BitVec w) (bits : List Bool) :
    (shiftIn r bits).getLsbD 0 = bits.getLastD (r.getLsbD 0) := by
  induction bits using List.reverseRecOn with
  | nil => rfl
  | append_singleton bits b _ =>
    rw [shiftIn_concat, BitVec.getLsbD_shiftConcat, decide_eq_true hw, List.getLastD_concat]
    rfl

/-- One bit short of a whole word, the top bit is still the old lowest bit and the
word stands one place too low. -/
theorem shiftIn_dropLast_msbBits (r v : BitVec (w + 1)) :
    shiftIn r (msbBits v).dropLast = BitVec.cons (r.getLsbD 0) (v.extractLsb' 1 w) := by
  apply BitVec.eq_of_getLsbD_eq
  intro i hi
  rw [getLsbD_shiftIn r _ hi, List.length_dropLast, length_msbBits, Nat.add_sub_cancel,
    BitVec.getLsbD_cons]
  by_cases hiw : i < w
  · rw [if_pos hiw, if_neg (by omega), BitVec.getLsbD_extractLsb', decide_eq_true hiw,
      Bool.true_and, List.getD_eq_getElem _ _ (by simp; omega)]
    simp only [msbBits, List.getElem_dropLast, List.getElem_map, List.getElem_range,
      BitVec.getMsbD]
    rw [decide_eq_true (by omega), Bool.true_and]
    congr 1
    omega
  · obtain rfl : i = w := by omega
    simp

/-- The word a receiver assembles from bits that arrive most significant first. -/
def assemble (w : ℕ) (bits : List Bool) : BitVec w := shiftIn 0 bits

@[simp] theorem assemble_msbBits (v : BitVec w) : assemble w (msbBits v) = v :=
  shiftIn_msbBits 0 v

/-- One bit short of a whole word, a register holds the word that began with its lowest bit. -/
theorem shiftIn_eq_assemble (r : BitVec (w + 1)) {bits : List Bool} (h : bits.length = w) :
    shiftIn r bits = assemble (w + 1) (r.getLsbD 0 :: bits) := by
  apply BitVec.eq_of_getLsbD_eq
  intro i hi
  rw [assemble, getLsbD_shiftIn r _ hi, getLsbD_shiftIn _ _ hi, List.length_cons, h, if_pos hi]
  by_cases hiw : i < w
  · rw [if_pos hiw, show w + 1 - 1 - i = w - 1 - i + 1 by omega, List.getD_cons_succ]
  · obtain rfl : i = w := by omega
    simp

/-! ## Several bytes -/

/-- The first `n` bytes of a stream of bits. -/
def bytesOf (n : ℕ) (bits : List Bool) : List (BitVec 8) :=
  (List.range n).map fun b => assemble 8 ((bits.drop (8 * b)).take 8)

@[simp] theorem length_bytesOf (n : ℕ) (bits : List Bool) : (bytesOf n bits).length = n := by
  simp [bytesOf]

theorem bytesOf_succ (n : ℕ) (bits : List Bool) :
    bytesOf (n + 1) bits = assemble 8 (bits.take 8) :: bytesOf n (bits.drop 8) := by
  rw [bytesOf, bytesOf, List.range_succ_eq_map, List.map_cons, List.map_map]
  congr 1
  apply List.map_congr_left
  intro b _
  rw [Function.comp_apply, List.drop_drop]
  congr 3
  omega

/-- Bits behind the last byte do not count. -/
theorem bytesOf_take {n m : ℕ} (h : 8 * n ≤ m) (bits : List Bool) :
    bytesOf n (bits.take m) = bytesOf n bits := by
  unfold bytesOf
  apply List.map_congr_left
  intro b hb
  have hlt := List.mem_range.mp hb
  rw [List.drop_take, List.take_take, Nat.min_eq_left (by omega)]

/-- Bytes that are sent arrive, whatever follows. -/
theorem bytesOf_flatMap_msbBits (bs : List (BitVec 8)) (rest : List Bool) :
    bytesOf bs.length (bs.flatMap msbBits ++ rest) = bs := by
  induction bs with
  | nil => rfl
  | cons b bs ih =>
    rw [List.length_cons, bytesOf_succ, List.flatMap_cons, List.append_assoc,
      List.take_left' (length_msbBits b), List.drop_left' (length_msbBits b), ih, assemble_msbBits]

/-- A byte that is shifted out with zeros behind it arrives with zeros behind it. -/
theorem bytesOf_getMsbD (n : ℕ) (v : BitVec 8) :
    bytesOf n ((List.range (8 * n)).map v.getMsbD) = (List.replicate n 0).set 0 v := by
  apply List.ext_getElem
  · simp
  · intro b hb _
    rw [length_bytesOf] at hb
    have hbits : (((List.range (8 * n)).map v.getMsbD).drop (8 * b)).take 8 =
        (List.range 8).map fun i => v.getMsbD (8 * b + i) := by
      apply List.ext_getElem
      · simp
        omega
      · intro i _ _
        simp
    simp only [bytesOf, List.getElem_map, List.getElem_range, hbits, List.getElem_set,
      List.getElem_replicate]
    cases b with
    | zero =>
      simp only [Nat.mul_zero, Nat.zero_add, if_true]
      exact assemble_msbBits v
    | succ b =>
      have hzeros : ((List.range 8).map fun i => v.getMsbD (8 * (b + 1) + i)) =
          List.replicate 8 false := by
        rw [List.map_eq_replicate_iff.mpr, List.length_range]
        intro i _
        rw [getMsbD_eq_ite, if_neg (by omega)]
      rw [if_neg (by omega), hzeros]
      exact shiftIn_zeros_of_le 0 (Nat.le_refl 8)

/-- The last bit of some bytes is the lowest one of the last of them. -/
theorem getLastD_flatMap_msbBits (bs : List (BitVec 8)) (b : BitVec 8) (last : Bool) :
    ((bs ++ [b]).flatMap msbBits).getLastD last = b.getLsbD 0 := by
  rw [List.flatMap_append, List.flatMap_singleton, ← getLastD_msbBits b last,
    List.getLastD_eq_getLast?, List.getLastD_eq_getLast?, List.getLast?_append]
  have hne : msbBits b ≠ [] := by
    rw [← List.length_pos_iff, length_msbBits]
    exact Nat.succ_pos 7
  rw [List.getLast?_eq_some_getLast hne, Option.some_or]

end Serial
