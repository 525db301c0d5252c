import Mathlib.Logic.Function.Basic
import Mathlib.Data.List.Basic

/-!
# Ring buffers

Items numbered from the first one on are kept in `n` slots, item `k` in slot `k % n`. `Holds n slots xs`
says that the slots hold the last `n` items of `xs`. Writing the next slot appends an item, and an index
that wraps at the last slot stays the number of an item modulo `n`.
-/

namespace RingBuffer

variable {α : Type*} {n : ℕ} {slots : ℕ → α} {xs : List α}

def Holds (n : ℕ) (slots : ℕ → α) (xs : List α) : Prop :=
  ∀ k x, xs[k]? = some x → xs.length ≤ k + n → slots (k % n) = x

/-- The slot after `i`. -/
def next (n i : ℕ) : ℕ := if i = n - 1 then 0 else i + 1

theorem holds_nil (n : ℕ) (slots : ℕ → α) : Holds n slots [] := by
  intro k x hx
  cases hx

theorem next_mod (hn : 0 < n) (k : ℕ) : next n (k % n) = (k + 1) % n := by
  have hlt := Nat.mod_lt k hn
  rw [next, ← Nat.mod_add_mod]
  generalize k % n = j at hlt ⊢
  by_cases hlast : j = n - 1
  · rw [if_pos hlast, hlast, Nat.sub_add_cancel hn, Nat.mod_self]
  · rw [if_neg hlast, Nat.mod_eq_of_lt (by omega)]

theorem next_lt {i : ℕ} (hi : i < n) : next n i < n := by
  rw [next]
  split <;> omega

theorem next_ne {i : ℕ} (hn : 1 < n) : next n i ≠ i := by
  rw [next]
  split <;> omega

theorem mod_ne_of_lt {i j : ℕ} (hij : i < j) (hj : j < i + n) : i % n ≠ j % n := by
  intro h
  have hdvd : n ∣ j - i := Nat.dvd_of_mod_eq_zero (Nat.sub_mod_eq_zero_of_mod_eq h.symm)
  exact absurd (Nat.le_of_dvd (by omega) hdvd) (by omega)

/-- The next slot takes the next item; the item `n` places back is gone. -/
theorem Holds.push (h : Holds n slots xs) (x : α) :
    Holds n (Function.update slots (xs.length % n) x) (xs ++ [x]) := by
  intro k y hy hk
  rw [List.length_append, List.length_singleton] at hk
  rcases Nat.lt_trichotomy k xs.length with hlt | heq | hgt
  · rw [List.getElem?_append_left hlt] at hy
    rw [Function.update_of_ne (mod_ne_of_lt hlt (by omega))]
    exact h k y hy (by omega)
  · rw [heq, List.getElem?_concat_length] at hy
    rw [heq, Function.update_self]
    exact Option.some.inj hy
  · rw [List.getElem?_eq_none (by rw [List.length_append, List.length_singleton]; omega)] at hy
    cases hy

/-- An item not more than `n` places back is read from its slot. -/
theorem Holds.read (h : Holds n slots xs) {k : ℕ} (hk : k < xs.length) (hlast : xs.length ≤ k + n) :
    xs[k]? = some (slots (k % n)) := by
  rw [h k _ (List.getElem?_eq_getElem hk) hlast]
  exact List.getElem?_eq_getElem hk

end RingBuffer
