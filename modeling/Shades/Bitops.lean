import Mathlib.Data.Nat.Size
import Mathlib.Order.Bounds.Defs
import Shades.Bits

/-!
# Shades.Bitops

`highest_bit`, `ilog2` and `lowest_bit` of `bitops.c`: the places of the highest
and the lowest set bit of a word, found by two halvings and a table of 256
entries, and the macro `ILOG2` of `bitops.h`.

Both searches after `highest_bit` go wrong on some words.  `ilog2` forgets that it
has started with one when it takes the upper half.  `lowest_bit` asks whether
24 bits are clear where it means 8.
-/

namespace Shades

/-! ## the highest bit -/

/-- `highest_bit_index`. -/
def highestBitIndex : List Nat := [
  0, 0, 1, 1, 2, 2, 2, 2, 3, 3, 3, 3, 3, 3, 3, 3,
  4, 4, 4, 4, 4, 4, 4, 4, 4, 4, 4, 4, 4, 4, 4, 4,
  5, 5, 5, 5, 5, 5, 5, 5, 5, 5, 5, 5, 5, 5, 5, 5,
  5, 5, 5, 5, 5, 5, 5, 5, 5, 5, 5, 5, 5, 5, 5, 5,
  6, 6, 6, 6, 6, 6, 6, 6, 6, 6, 6, 6, 6, 6, 6, 6,
  6, 6, 6, 6, 6, 6, 6, 6, 6, 6, 6, 6, 6, 6, 6, 6,
  6, 6, 6, 6, 6, 6, 6, 6, 6, 6, 6, 6, 6, 6, 6, 6,
  6, 6, 6, 6, 6, 6, 6, 6, 6, 6, 6, 6, 6, 6, 6, 6,
  7, 7, 7, 7, 7, 7, 7, 7, 7, 7, 7, 7, 7, 7, 7, 7,
  7, 7, 7, 7, 7, 7, 7, 7, 7, 7, 7, 7, 7, 7, 7, 7,
  7, 7, 7, 7, 7, 7, 7, 7, 7, 7, 7, 7, 7, 7, 7, 7,
  7, 7, 7, 7, 7, 7, 7, 7, 7, 7, 7, 7, 7, 7, 7, 7,
  7, 7, 7, 7, 7, 7, 7, 7, 7, 7, 7, 7, 7, 7, 7, 7,
  7, 7, 7, 7, 7, 7, 7, 7, 7, 7, 7, 7, 7, 7, 7, 7,
  7, 7, 7, 7, 7, 7, 7, 7, 7, 7, 7, 7, 7, 7, 7, 7,
  7, 7, 7, 7, 7, 7, 7, 7, 7, 7, 7, 7, 7, 7, 7, 7]

/-- `highest_bit`. -/
def highestBit (x : Nat) : Nat :=
  let (n, x) := if x >>> 16 ≠ 0 then (16, x >>> 16) else (0, x)
  let (n, x) := if x >>> 8 ≠ 0 then (n + 8, x >>> 8) else (n, x)
  n + highestBitIndex.getD x 0

/-- Halving a word drops its binary logarithm by the shift. -/
theorem log2_shiftRight {x n : Nat} (h : x >>> n ≠ 0) : n + (x >>> n).log2 = x.log2 := by
  have hx : x ≠ 0 := by
    rintro rfl
    simp at h
  have hle : 2 ^ (n + (x >>> n).log2) ≤ x := by
    have h1 := Nat.log2_self_le h
    rw [Nat.shiftRight_eq_div_pow] at h1 ⊢
    rw [pow_add, mul_comm]
    exact (Nat.le_div_iff_mul_le (Nat.two_pow_pos n)).mp h1
  have hlt : x < 2 ^ (n + (x >>> n).log2 + 1) := by
    have h2 := Nat.lt_log2_self (n := x >>> n)
    rw [Nat.shiftRight_eq_div_pow] at h2 ⊢
    rw [add_assoc, pow_add, mul_comm]
    exact (Nat.div_lt_iff_lt_mul (Nat.two_pow_pos n)).mp h2
  have h3 := (Nat.le_log2 hx).mpr hle
  have h4 := (Nat.log2_lt hx).mpr hlt
  omega

/-- The table holds the binary logarithms of the bytes. -/
theorem highestBitIndex_eq : ∀ x < 256, x ≠ 0 → highestBitIndex.getD x 0 = x.log2 := by
  decide +kernel

/-- `highest_bit` is the binary logarithm. -/
theorem highestBit_eq_log2 {x : Nat} (hx : x < 2 ^ 32) (h0 : x ≠ 0) : highestBit x = x.log2 := by
  have hbyte : ∀ y, y < 2 ^ 16 → y ≠ 0 →
      (if y >>> 8 ≠ 0 then 8 + highestBitIndex.getD (y >>> 8) 0 else highestBitIndex.getD y 0) =
        y.log2 := by
    intro y hy hy0
    split
    · next h8 =>
      rw [highestBitIndex_eq _ (by rw [Nat.shiftRight_eq_div_pow]; omega) h8, log2_shiftRight h8]
    · next h8 =>
      rw [Nat.shiftRight_eq_div_pow] at h8
      exact highestBitIndex_eq y (by omega) hy0
  unfold highestBit
  by_cases h16 : x >>> 16 ≠ 0
  · have hlow : x >>> 16 < 2 ^ 16 := by rw [Nat.shiftRight_eq_div_pow]; omega
    have h := hbyte (x >>> 16) hlow h16
    rw [← log2_shiftRight h16, ← h, if_pos h16]
    by_cases h8 : x >>> 16 >>> 8 ≠ 0
    · simp only [if_pos h8]
      omega
    · simp only [if_neg h8]
  · have hlow : x < 2 ^ 16 := by
      rw [Nat.shiftRight_eq_div_pow] at h16
      omega
    have h := hbyte x hlow h0
    rw [← h, if_neg h16]
    by_cases h8 : x >>> 8 ≠ 0
    · simp only [if_pos h8, Nat.zero_add]
    · simp only [if_neg h8, Nat.zero_add]

/-- The highest digit, to the base 4, in which two numbers differ is found from
the highest bit of their exclusive or. -/
theorem highestBit_xor {a b j : Nat} (ha : a < 4 ^ j) (hb : b < 4 ^ j) (hj : j ≤ 16)
    (hne : a ≠ b) :
    ∃ i < j, highestBit (a ^^^ b) &&& 0xFFFFFFFE = 2 * i ∧ a / 4 ^ (i + 1) = b / 4 ^ (i + 1) ∧
      a / 4 ^ i % 4 ≠ b / 4 ^ i % 4 := by
  have hpow : ∀ i, (4 : Nat) ^ i = 2 ^ (2 * i) := fun i => (two_pow_double i).symm
  have hx0 : a ^^^ b ≠ 0 := by simpa using hne
  have hxlt : a ^^^ b < 2 ^ (2 * j) := Nat.xor_lt_two_pow (hpow j ▸ ha) (hpow j ▸ hb)
  have hlog : Nat.log2 (a ^^^ b) < 2 * j := (Nat.log2_lt hx0).mpr hxlt
  have hword : a ^^^ b < 2 ^ 32 :=
    Nat.lt_of_lt_of_le hxlt (Nat.pow_le_pow_right (by decide) (by omega))
  -- digits of the exclusive or
  have hdiv : ∀ i, (a ^^^ b) / 4 ^ i = 0 ↔ a / 4 ^ i = b / 4 ^ i := by
    intro i
    rw [hpow, ← Nat.shiftRight_eq_div_pow, ← Nat.shiftRight_eq_div_pow,
      ← Nat.shiftRight_eq_div_pow, Nat.shiftRight_xor_distrib, Nat.xor_eq_zero_iff]
  have hupper : a / 4 ^ (Nat.log2 (a ^^^ b) / 2 + 1) = b / 4 ^ (Nat.log2 (a ^^^ b) / 2 + 1) := by
    rw [← hdiv]
    refine Nat.div_eq_of_lt ?_
    rw [hpow]
    exact Nat.lt_of_lt_of_le Nat.lt_log2_self (Nat.pow_le_pow_right (by decide) (by omega))
  have hlower : a / 4 ^ (Nat.log2 (a ^^^ b) / 2) ≠ b / 4 ^ (Nat.log2 (a ^^^ b) / 2) := by
    rw [Ne, ← hdiv, Nat.div_eq_zero_iff]
    have hle : 4 ^ (Nat.log2 (a ^^^ b) / 2) ≤ a ^^^ b := by
      rw [hpow]
      exact Nat.le_trans (Nat.pow_le_pow_right (by decide) (by omega)) (Nat.log2_self_le hx0)
    have hpos : 0 < 4 ^ (Nat.log2 (a ^^^ b) / 2) := Nat.pow_pos (by decide)
    omega
  refine ⟨Nat.log2 (a ^^^ b) / 2, by omega, ?_, hupper, ?_⟩
  · rw [highestBit_eq_log2 hword hx0, show 0xFFFFFFFE = 2 * (2 ^ 31 - 1) by decide,
      and_double_mask]
    omega
  · rw [pow_succ, ← Nat.div_div_eq_div_mul, ← Nat.div_div_eq_div_mul] at hupper
    omega

/-! ## binary logarithms -/

/-- The powers of two that `DO_ILOG2` compares with. -/
def ilog2Bounds : List Nat := [
  0x1, 0x2, 0x4, 0x8, 0x10, 0x20, 0x40, 0x80, 0x100, 0x200, 0x400, 0x800, 0x1000, 0x2000, 0x4000,
  0x8000, 0x10000, 0x20000, 0x40000, 0x80000, 0x100000, 0x200000, 0x400000, 0x800000, 0x1000000,
  0x2000000, 0x4000000, 0x8000000, 0x10000000, 0x20000000, 0x40000000, 0x80000000]

/-- `ILOG2`: the first of them that is greater, and 32 if none is. -/
def ilog2Macro (x : Nat) : Nat := ilog2Bounds.findIdx fun bound => x < bound

/-- `ilog2`. -/
def ilog2 (x : Nat) : Nat :=
  if x = 0 then 0
  else
    let (n, x) := if x >>> 16 ≠ 0 then (16, x >>> 16) else (1, x)
    let (n, x) := if x >>> 8 ≠ 0 then (n + 8, x >>> 8) else (n, x)
    n + highestBitIndex.getD x 0

theorem ilog2Bounds_eq : ilog2Bounds = (List.range 32).map (2 ^ ·) := by decide

/-- The macro gives the number of binary digits. -/
theorem ilog2Macro_eq_size {x : Nat} (hx : x < 2 ^ 32) : ilog2Macro x = x.size := by
  have hlength : ilog2Bounds.length = 32 := rfl
  have hbound : ∀ i, ∀ y ∈ ilog2Bounds[i]?, y = 2 ^ i := by
    intro i y hy
    rw [ilog2Bounds_eq] at hy
    simp_all [List.getElem?_eq_some_iff]
  unfold ilog2Macro
  apply Nat.le_antisymm
  · by_contra hlt
    have hsize : x.size < ilog2Bounds.length :=
      Nat.lt_of_lt_of_le (Nat.not_le.mp hlt) List.findIdx_le_length
    have hnot := List.not_of_lt_findIdx (Nat.not_le.mp hlt)
    rw [hbound x.size _ (List.getElem?_eq_getElem hsize)] at hnot
    simp [Nat.lt_size_self] at hnot
  · rw [Nat.size_le]
    by_cases hfound : ilog2Bounds.findIdx (fun bound => x < bound) < ilog2Bounds.length
    · have hlt := List.findIdx_getElem (w := hfound)
      rw [hbound _ _ (List.getElem?_eq_getElem hfound)] at hlt
      simpa using hlt
    · exact Nat.lt_of_lt_of_le hx (Nat.pow_le_pow_right (by decide) (Nat.not_lt.mp hfound))

/-- The macro on zero and on other words. -/
theorem ilog2Macro_eq {x : Nat} (hx : x < 2 ^ 32) :
    ilog2Macro x = if x = 0 then 0 else x.log2 + 1 := by
  rw [ilog2Macro_eq_size hx]
  split
  · next h => rw [h, Nat.size_zero]
  · next h =>
    apply Nat.le_antisymm
    · exact Nat.size_le.mpr Nat.lt_log2_self
    · exact Nat.lt_size.mpr (Nat.log2_self_le h)

/-- `ilog2` starts with one, and with 16 when it takes the upper half. -/
theorem ilog2_eq {x : Nat} (hx : x < 2 ^ 32) (h0 : x ≠ 0) :
    ilog2 x = if x < 2 ^ 16 then x.log2 + 1 else x.log2 := by
  rw [← highestBit_eq_log2 hx h0]
  unfold ilog2 highestBit
  rw [if_neg h0]
  by_cases h16 : x >>> 16 ≠ 0
  · have hge : ¬ x < 2 ^ 16 := by
      rw [Nat.shiftRight_eq_div_pow] at h16
      omega
    simp only [if_pos h16, if_neg hge]
  · have hlt : x < 2 ^ 16 := by
      rw [Nat.shiftRight_eq_div_pow] at h16
      omega
    simp only [if_neg h16, if_pos hlt]
    split
    · simp only
      omega
    · simp only
      omega

/-! ## the lowest bit -/

/-- `lowest_bit_index`. -/
def lowestBitIndex : List Nat := [
  0, 0, 1, 0, 2, 0, 1, 0, 3, 0, 1, 0, 2, 0, 1, 0,
  4, 0, 1, 0, 2, 0, 1, 0, 3, 0, 1, 0, 2, 0, 1, 0,
  5, 0, 1, 0, 2, 0, 1, 0, 3, 0, 1, 0, 2, 0, 1, 0,
  4, 0, 1, 0, 2, 0, 1, 0, 3, 0, 1, 0, 2, 0, 1, 0,
  6, 0, 1, 0, 2, 0, 1, 0, 3, 0, 1, 0, 2, 0, 1, 0,
  4, 0, 1, 0, 2, 0, 1, 0, 3, 0, 1, 0, 2, 0, 1, 0,
  5, 0, 1, 0, 2, 0, 1, 0, 3, 0, 1, 0, 2, 0, 1, 0,
  4, 0, 1, 0, 2, 0, 1, 0, 3, 0, 1, 0, 2, 0, 1, 0,
  7, 0, 1, 0, 2, 0, 1, 0, 3, 0, 1, 0, 2, 0, 1, 0,
  4, 0, 1, 0, 2, 0, 1, 0, 3, 0, 1, 0, 2, 0, 1, 0,
  5, 0, 1, 0, 2, 0, 1, 0, 3, 0, 1, 0, 2, 0, 1, 0,
  4, 0, 1, 0, 2, 0, 1, 0, 3, 0, 1, 0, 2, 0, 1, 0,
  6, 0, 1, 0, 2, 0, 1, 0, 3, 0, 1, 0, 2, 0, 1, 0,
  4, 0, 1, 0, 2, 0, 1, 0, 3, 0, 1, 0, 2, 0, 1, 0,
  5, 0, 1, 0, 2, 0, 1, 0, 3, 0, 1, 0, 2, 0, 1, 0,
  4, 0, 1, 0, 2, 0, 1, 0, 3, 0, 1, 0, 2, 0, 1, 0]

/-- `lowest_bit`. -/
def lowestBit (x : Nat) : Nat :=
  let (n, x) := if lshift32 x 16 = 0 then (16, x >>> 16) else (0, x)
  let (n, x) := if lshift32 x 8 = 0 then (n + 8, x >>> 8) else (n, x)
  n + lowestBitIndex.getD (x &&& 0xFF) 0

/-- The lowest set bit, by the remainders. -/
theorem isLeast_testBit {x t : Nat} : IsLeast {i | x.testBit i} t ↔ x % 2 ^ (t + 1) = 2 ^ t := by
  constructor
  · intro h
    apply Nat.eq_of_testBit_eq
    intro i
    rw [Nat.testBit_mod_two_pow, Nat.testBit_two_pow]
    rcases Nat.lt_trichotomy i t with hi | rfl | hi
    · have hnot : x.testBit i = false := by
        by_contra hbit
        exact absurd (h.2 (Bool.of_not_eq_false hbit)) (by omega)
      simp [hnot, Nat.ne_of_gt hi]
    · simpa using h.1
    · simp [Nat.ne_of_lt hi, Nat.not_lt.mpr (show t + 1 ≤ i from hi)]
  · intro h
    have hbit : ∀ i, i < t + 1 → x.testBit i = decide (t = i) := by
      intro i hi
      have hi' := congrArg (Nat.testBit · i) h
      simpa [Nat.testBit_mod_two_pow, Nat.testBit_two_pow, hi] using hi'
    constructor
    · simpa using hbit t (Nat.lt_succ_self t)
    · intro i hi
      by_contra hlt
      have hset : x.testBit i = true := hi
      rw [hbit i (by omega), decide_eq_true_iff] at hset
      omega

/-- The table holds the lowest bits of the bytes. -/
theorem lowestBitIndex_eq : ∀ x < 256, x ≠ 0 →
    lowestBitIndex.getD x 0 < 8 ∧
      x % 2 ^ (lowestBitIndex.getD x 0 + 1) = 2 ^ lowestBitIndex.getD x 0 := by
  decide +kernel

theorem lowestBitIndex_mod (y : Nat) :
    y % 2 ^ (lowestBitIndex.getD (y % 256) 0 + 1) = 2 ^ lowestBitIndex.getD (y % 256) 0 ↔
      y % 256 ≠ 0 := by
  by_cases h : y % 256 = 0
  · have hzero : lowestBitIndex.getD 0 0 = 0 := rfl
    rw [h, hzero]
    omega
  · obtain ⟨hlt, hleast⟩ := lowestBitIndex_eq _ (Nat.mod_lt y (by decide)) h
    have hdvd : 2 ^ (lowestBitIndex.getD (y % 256) 0 + 1) ∣ 256 := Nat.pow_dvd_pow 2 hlt
    rw [Nat.mod_mod_of_dvd y hdvd] at hleast
    exact iff_of_true hleast h

/-- The second halving never happens, so the lowest bit is sought in one of two
bytes. -/
theorem lowestBit_eq {x : Nat} (hx : x < 2 ^ 32) (h0 : x ≠ 0) :
    lowestBit x = if x % 2 ^ 16 = 0 then 16 + lowestBitIndex.getD (x / 2 ^ 16 % 256) 0
      else lowestBitIndex.getD (x % 256) 0 := by
  have hbyte : ∀ y, y &&& 0xFF = y % 256 := fun y => and_mask y 8
  unfold lowestBit
  rw [lshift32_eq]
  by_cases h16 : x % 2 ^ 16 = 0
  · rw [if_pos (by omega), if_pos h16]
    simp only [lshift32_eq, Nat.shiftRight_eq_div_pow, hbyte]
    rw [if_neg (by omega)]
  · rw [if_neg (by omega), if_neg h16]
    simp only [lshift32_eq, hbyte]
    rw [if_neg (by omega), Nat.zero_add]

/-- When `lowest_bit` finds the lowest set bit: it has to be among the lower eight
bits of a half. -/
theorem lowestBit_isLeast {x : Nat} (hx : x < 2 ^ 32) (h0 : x ≠ 0) :
    IsLeast {i | x.testBit i} (lowestBit x) ↔
      x % 2 ^ 8 ≠ 0 ∨ x % 2 ^ 16 = 0 ∧ x / 2 ^ 16 % 2 ^ 8 ≠ 0 := by
  rw [isLeast_testBit, lowestBit_eq hx h0]
  by_cases h16 : x % 2 ^ 16 = 0
  · have hhigh : ∀ t, x % 2 ^ (16 + t + 1) = 2 ^ 16 * (x / 2 ^ 16 % 2 ^ (t + 1)) := by
      intro t
      rw [Nat.add_assoc, pow_add, Nat.mod_mul, h16, Nat.zero_add]
    rw [if_pos h16, hhigh, pow_add 2 16, Nat.mul_right_inj (by decide), lowestBitIndex_mod]
    omega
  · rw [if_neg h16, lowestBitIndex_mod]
    omega

/-! ## where the searches are right -/

/-- What `lowest_bit` and `ilog2` give, and when it is the lowest set bit and what
the macro gives. -/
theorem lowest_bit_ilog2 {x : Nat} (hx : x < 2 ^ 32) :
    (x ≠ 0 → (IsLeast {i | x.testBit i} (lowestBit x) ↔
      x % 2 ^ 8 ≠ 0 ∨ x % 2 ^ 16 = 0 ∧ x / 2 ^ 16 % 2 ^ 8 ≠ 0)) ∧
    ilog2Macro x = (if x = 0 then 0 else x.log2 + 1) ∧ (ilog2 x = ilog2Macro x ↔ x < 2 ^ 16) := by
  refine ⟨lowestBit_isLeast hx, ilog2Macro_eq hx, ?_⟩
  rw [ilog2Macro_eq hx]
  by_cases h0 : x = 0
  · simp [h0, ilog2]
  · rw [if_neg h0, ilog2_eq hx h0]
    split
    · next h16 => exact iff_of_true rfl h16
    · next h16 => exact iff_of_false (Nat.ne_of_lt (Nat.lt_succ_self _)) h16

theorem lowest_bit_ilog2_five :
    IsLeast {i | (5 : Nat).testBit i} (lowestBit 5) ∧ ilog2 5 = ilog2Macro 5 :=
  have h := lowest_bit_ilog2 (show 5 < 2 ^ 32 by decide)
  ⟨(h.1 (by decide)).mpr (by decide), h.2.2.mpr (by decide)⟩

/-- Bit 8 is taken for bit 0, and the logarithm of the first word with 17 bits is
one too small. -/
theorem lowest_bit_ilog2_wrong :
    lowestBit 0x100 = 0 ∧ ¬ IsLeast {i | (0x100 : Nat).testBit i} (lowestBit 0x100) ∧
      ilog2 0x10000 = 16 ∧ ilog2Macro 0x10000 = 17 := by
  refine ⟨by decide, fun h => ?_, by decide, by decide⟩
  exact absurd h.1 (by decide)

end Shades
