import Mathlib.Data.Nat.Digits.Lemmas
import Mathlib.Tactic.Linarith

/-!
# Numerals

The numeral of a number in a base, the last digit first: the digits of `Nat.digits`, and one zero for zero. A loop that takes
digits off until nothing is left writes this numeral.
-/

namespace Numeral

variable {b n : ℕ}

def numeral (b n : ℕ) : List ℕ := if n = 0 then [0] else Nat.digits b n

/-- One round of a loop that goes on while the quotient is not zero. -/
theorem numeral_step (hb : 1 < b) (n : ℕ) : numeral b n = n % b :: if 0 < n / b then numeral b (n / b) else [] := by
  unfold numeral
  rcases Nat.eq_zero_or_pos n with rfl | hn
  · simp
  · rw [if_neg hn.ne', Nat.digits_def' hb hn]
    rcases Nat.eq_zero_or_pos (n / b) with hq | hq
    · rw [hq, Nat.digits_zero, if_neg (lt_irrefl 0)]
    · rw [if_pos hq, if_neg hq.ne']

theorem numeral_lt {d : ℕ} (hb : 1 < b) (hd : d ∈ numeral b n) : d < b := by
  unfold numeral at hd
  split_ifs at hd
  · rw [List.mem_singleton.mp hd]
    exact Nat.zero_lt_of_lt hb
  · exact Nat.digits_lt_base hb hd

theorem numeral_ne_nil (hb : 1 < b) (n : ℕ) : numeral b n ≠ [] := by
  rw [numeral_step hb]
  exact List.cons_ne_nil _ _

theorem numeral_length_le {k : ℕ} (hb : 1 < b) (hk : 0 < k) (hn : n < b ^ k) : (numeral b n).length ≤ k := by
  unfold numeral
  split_ifs
  · exact hk
  · exact (Nat.digits_length_le_iff hb n).mpr hn

/-- A loop that appends the last digit to what it has, and goes on with the quotient, appends the numeral. -/
theorem append_numeral {β : Type*} (hb : 1 < b) (loop : ℕ → ℕ → List β → List β) {digit : ℕ → β}
    (hstep : ∀ fuel n ds, loop (fuel + 1) n ds =
      if 0 < n / b then loop fuel (n / b) (ds ++ [digit (n % b)]) else ds ++ [digit (n % b)])
    {fuel : ℕ} (hfuel : 0 < fuel) (hn : n < b ^ fuel) (ds : List β) :
    loop fuel n ds = ds ++ (numeral b n).map digit := by
  induction fuel generalizing n ds with
  | zero => cases hfuel
  | succ fuel ih =>
      rw [hstep, numeral_step hb]
      split_ifs with hq
      · have hlt : n / b < b ^ fuel := Nat.div_lt_of_lt_mul (by rwa [pow_succ, Nat.mul_comm] at hn)
        have hpos : 0 < fuel := by
          rcases Nat.eq_zero_or_pos fuel with rfl | h
          · rw [pow_zero] at hlt
            omega
          · exact h
        rw [ih hpos hlt, List.append_assoc]
        rfl
      · rfl

end Numeral
