import Mathlib.Tactic.Ring
import Mathlib.Tactic.Linarith
import Mathlib.Data.Nat.Bitwise

/-!
# Shades.Bits

Fixed-width bit fields over `Nat`: masks, shifts and disjoint `or`s turned
into `/`, `%`, `*` and `+`, so that the rest of the development reasons about
packed words by linear arithmetic only.

Nothing here is specific to the database: the lemmas say how a C expression
such as `(a << i) | b` or `(x >> i) & mask` reads as arithmetic when the
fields do not overlap.
-/

namespace Shades

/-! ## masks and shifts -/

/-- `x << n` in a register of 32 bits: the upper bits fall off. -/
def lshift32 (x n : Nat) : Nat := (x <<< n) % 2 ^ 32

/-- A shift to the left is a product, taken modulo the register width. -/
theorem lshift32_eq (x n : Nat) : lshift32 x n = x * 2 ^ n % 2 ^ 32 := by
  rw [lshift32, Nat.shiftLeft_eq]

/-- A mask of `n` ones keeps the residue modulo `2 ^ n`. -/
theorem and_mask (x n : Nat) : x &&& (2 ^ n - 1) = x % 2 ^ n :=
  Nat.and_two_pow_sub_one_eq_mod x n

/-- A mask with a cleared lowest bit reads the field above that bit. -/
theorem and_double_mask (x n : Nat) : x &&& (2 * (2 ^ n - 1)) = 2 * (x / 2 % 2 ^ n) := by
  have hdiv : (x &&& (2 * (2 ^ n - 1))) / 2 = x / 2 % 2 ^ n := by
    rw [Nat.and_div_two, Nat.mul_div_cancel_left _ (by decide), and_mask]
  have hmod : (x &&& (2 * (2 ^ n - 1))) % 2 = 0 := by
    have hmask : 2 * (2 ^ n - 1) % 2 ^ 1 = 0 := by omega
    have h := @Nat.and_mod_two_pow x (2 * (2 ^ n - 1)) 1
    rwa [hmask, Nat.and_zero, pow_one] at h
  omega

/-- Two bits make a digit to the base 4. -/
theorem two_pow_double (n : Nat) : 2 ^ (2 * n) = 4 ^ n := by
  rw [pow_mul]
  rfl

/-- Two disjoint fields joined by `or` are added. -/
theorem or_of_lt (a b n : Nat) (h : b < 2 ^ n) : (a <<< n) ||| b = a * 2 ^ n + b := by
  rw [← Nat.shiftLeft_add_eq_or_of_lt h, Nat.shiftLeft_eq]

/-- The same in a register, when nothing falls off. -/
theorem lshift32_or {a b n : Nat} (h : b < 2 ^ n) (hfit : a * 2 ^ n < 2 ^ 32) :
    lshift32 a n ||| b = a * 2 ^ n + b := by
  rw [lshift32, Nat.mod_eq_of_lt (by rw [Nat.shiftLeft_eq]; exact hfit), or_of_lt a b n h]

/-! ## addition and subtraction -/

/-- `x + y` in a register of 32 bits. -/
def add32 (x y : Nat) : Nat := (x + y) % 2 ^ 32

/-- `x - y` in a register of 32 bits. -/
def sub32 (x y : Nat) : Nat := (x + 2 ^ 32 - y) % 2 ^ 32

theorem add32_of_lt {x y : Nat} (h : x + y < 2 ^ 32) : add32 x y = x + y := Nat.mod_eq_of_lt h

theorem sub32_of_le {x y : Nat} (h : y ≤ x) (hx : x < 2 ^ 32) : sub32 x y = x - y := by
  unfold sub32
  omega

end Shades
