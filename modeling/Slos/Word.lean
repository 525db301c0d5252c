import Mathlib.Data.Nat.Bitwise
import Mathlib.Data.Int.ModEq
import Mathlib.Tactic.IntervalCases

/-!
# Thirty-two bit words

Unsigned words are natural numbers reduced by `u32`; `usub` is unsigned subtraction, which wraps,
and `int32` reads a word as a signed integer. Shifts and masks are those of `ℕ`.
-/

namespace Word

def size : ℕ := 4294967296

def u32 (n : ℕ) : ℕ := n % size

def usub (a b : ℕ) : ℕ := (a + (size - b % size)) % size

def int32 (n : ℕ) : ℤ := if n % size < 2147483648 then (n % size : ℕ) else (n % size : ℕ) - size

theorem u32_lt (n : ℕ) : u32 n < size := Nat.mod_lt n (by decide)

theorem u32_of_lt {n : ℕ} (h : n < size) : u32 n = n := Nat.mod_eq_of_lt h

theorem usub_lt (a b : ℕ) : usub a b < size := Nat.mod_lt _ (by decide)

theorem usub_of_le {a b : ℕ} (ha : a < size) (h : b ≤ a) : usub a b = a - b := by
  unfold usub size at *
  omega

/-- A subtraction that goes below zero comes back from the top of the word. -/
theorem usub_of_lt {a b : ℕ} (hb : b < size) (h : a < b) : usub a b = size - (b - a) := by
  unfold usub size at *
  omega

theorem int32_of_lt {n : ℕ} (h : n < 2147483648) : int32 n = n := by
  have hn : n % size = n := Nat.mod_eq_of_lt (h.trans (by decide))
  rw [int32, hn, if_pos h]

/-- Masking off the low `k` bits of a number below `2 ^ n` and shifting them out is shifting. -/
theorem and_high_shiftRight {x k n : ℕ} (hx : x < 2 ^ (k + n)) :
    (x &&& ((2 ^ n - 1) <<< k)) >>> k = x / 2 ^ k := by
  rw [Nat.shiftRight_and_distrib, Nat.shiftLeft_shiftRight, Nat.and_two_pow_sub_one_eq_mod,
    Nat.shiftRight_eq_div_pow, Nat.mod_eq_of_lt]
  exact Nat.div_lt_of_lt_mul (by rwa [← pow_add])

theorem and_mid_shiftRight (x k n : ℕ) :
    (x &&& ((2 ^ n - 1) <<< k)) >>> k = x / 2 ^ k % 2 ^ n := by
  rw [Nat.shiftRight_and_distrib, Nat.shiftLeft_shiftRight, Nat.and_two_pow_sub_one_eq_mod,
    Nat.shiftRight_eq_div_pow]

/-- Attribute bits below bit `k` do not reach the part of the word above it. -/
theorem or_low_shiftRight (x : ℕ) {a k : ℕ} (ha : a < 2 ^ k) : (x * 2 ^ k ||| a) >>> k = x := by
  rw [Nat.shiftRight_or_distrib, Nat.shiftRight_eq_div_pow, Nat.shiftRight_eq_div_pow,
    Nat.mul_div_cancel _ (by positivity), Nat.div_eq_of_lt ha, Nat.or_zero]

end Word
