import Mathlib.Data.Nat.Bitwise
import Mathlib.Tactic.Ring

/-!
# 32-bit machine words as natural numbers

A machine word is a natural number below `2 ^ 32`; the operations that can leave the range reduce
modulo `2 ^ 32`, as the processor does.  The bit operations are those of `ℕ`.

`add32` and `sub32` are the two wrapping operations, each with the lemma that says when it does not
wrap.  `and_highMask` turns a mask with `k` low zero bits into rounding down to a multiple of
`2 ^ k`.
-/

namespace Machine

/-- Wrapping 32-bit addition. -/
def add32 (a b : ℕ) : ℕ := (a + b) % 4294967296

/-- Wrapping 32-bit subtraction. -/
def sub32 (a b : ℕ) : ℕ := (a + (4294967296 - b % 4294967296)) % 4294967296

/-- Wrapping 32-bit multiplication. -/
def mul32 (a b : ℕ) : ℕ := a * b % 4294967296

theorem add32_lt (a b : ℕ) : add32 a b < 4294967296 := Nat.mod_lt _ (by decide)

theorem sub32_lt (a b : ℕ) : sub32 a b < 4294967296 := Nat.mod_lt _ (by decide)

/-- Addition that stays in range is the addition of numbers. -/
theorem add32_of_lt {a b : ℕ} (h : a + b < 4294967296) : add32 a b = a + b :=
  Nat.mod_eq_of_lt h

/-- Subtraction that does not borrow is the subtraction of numbers. -/
theorem sub32_of_le {a b : ℕ} (ha : a < 4294967296) (h : b ≤ a) : sub32 a b = a - b := by
  unfold sub32
  omega

/-- Multiplication that stays in range is the multiplication of numbers. -/
theorem mul32_of_lt {a b : ℕ} (h : a * b < 4294967296) : mul32 a b = a * b :=
  Nat.mod_eq_of_lt h

/-! ### Masks -/

/-- Masking a 32-bit word with `k` low zero bits rounds it down to a multiple of `2 ^ k`. -/
theorem and_highMask {x k : ℕ} (hx : x < 2 ^ 32) (hk : k ≤ 32) :
    x &&& (2 ^ 32 - 2 ^ k) = x / 2 ^ k * 2 ^ k := by
  have hmask : 2 ^ 32 - 2 ^ k = (2 ^ (32 - k) - 1) <<< k := by
    rw [Nat.shiftLeft_eq, Nat.sub_mul, one_mul, ← pow_add, Nat.sub_add_cancel hk]
  rw [hmask, ← Nat.shiftLeft_eq, ← Nat.shiftRight_eq_div_pow]
  apply Nat.eq_of_testBit_eq
  intro i
  simp only [Nat.testBit_and, Nat.testBit_shiftLeft, Nat.testBit_two_pow_sub_one,
    Nat.testBit_shiftRight]
  by_cases hik : k ≤ i
  · by_cases hi : i < 32
    · have : i - k < 32 - k := by omega
      simp [hik, this]
    · have hxi : x.testBit i = false :=
        Nat.testBit_lt_two_pow (hx.trans_le (Nat.pow_le_pow_right (by decide) (by omega)))
      simp [hik, hxi]
  · simp [hik]

end Machine
