import Mathlib.Logic.Function.Basic
import Mathlib.Data.Nat.Basic

/-!
# Counted loops that fill an array

`writeLoop a start n g` is the array left by `for (i = 0; i < n; i++) a[start + i] = g(i)`.
-/

def writeLoop {α : Type*} (a : ℕ → α) (start : ℕ) : ℕ → (ℕ → α) → ℕ → α
  | 0, _ => a
  | n + 1, g => Function.update (writeLoop a start n g) (start + n) (g n)

theorem writeLoop_apply {α : Type*} (a : ℕ → α) (start n : ℕ) (g : ℕ → α) (k : ℕ) :
    writeLoop a start n g k = if start ≤ k ∧ k < start + n then g (k - start) else a k := by
  induction n with
  | zero =>
      rw [writeLoop, if_neg (by omega)]
  | succ n ih =>
      rw [writeLoop, Function.update_apply, ih]
      by_cases hk : k = start + n
      · rw [if_pos hk, if_pos (by omega), hk, Nat.add_sub_cancel_left]
      · rw [if_neg hk]
        by_cases hin : start ≤ k ∧ k < start + n
        · rw [if_pos hin, if_pos (by omega)]
        · rw [if_neg hin, if_neg (by omega)]

theorem writeLoop_of_mem {α : Type*} {a : ℕ → α} {start n k : ℕ} {g : ℕ → α} (hs : start ≤ k)
    (hk : k < start + n) : writeLoop a start n g k = g (k - start) := by
  rw [writeLoop_apply, if_pos ⟨hs, hk⟩]

theorem writeLoop_of_not_mem {α : Type*} {a : ℕ → α} {start n k : ℕ} {g : ℕ → α}
    (h : k < start ∨ start + n ≤ k) : writeLoop a start n g k = a k := by
  rw [writeLoop_apply, if_neg (by omega)]
