import Slos.ByteMemory

/-!
# Scattered data

Data kept in blocks of `k` bytes at the addresses of a list. `gather` reads the blocks one after the
other and `scatter` writes a list of bytes over them, `k` bytes a block. The rules say that what was
scattered over separate blocks is gathered again, that nothing outside the blocks changes, and how a
range of the gathered bytes is read off the blocks.
-/

namespace ScatterGather
open ByteMemory

def gather (m : Mem) (k : ℕ) (ps : List ℕ) : List UInt8 := ps.flatMap fun p => bytes m p k

def scatter (k : ℕ) : Mem → List ℕ → List UInt8 → Mem
  | m, [], _ => m
  | m, p :: ps, bs => scatter k (put m p (bs.take k)) ps (bs.drop k)

variable {m m' : Mem} {k p : ℕ} {ps : List ℕ} {bs : List UInt8}

@[simp] theorem gather_nil : gather m k [] = [] := rfl

theorem gather_cons : gather m k (p :: ps) = bytes m p k ++ gather m k ps := rfl

theorem length_gather : (gather m k ps).length = k * ps.length := by
  induction ps with
  | nil => rfl
  | cons p ps ih => rw [gather_cons, List.length_append, bytes_length, ih, List.length_cons,
      Nat.mul_succ, Nat.add_comm]

theorem gather_congr (h : ∀ p ∈ ps, ∀ x, p ≤ x → x < p + k → m' x = m x) :
    gather m' k ps = gather m k ps := by
  induction ps with
  | nil => rfl
  | cons p ps ih =>
      rw [gather_cons, gather_cons, bytes_congr (h p List.mem_cons_self),
        ih fun q hq => h q (List.mem_cons_of_mem p hq)]

theorem scatter_of_notMem {x : ℕ} (h : ∀ p ∈ ps, x < p ∨ p + k ≤ x) : scatter k m ps bs x = m x := by
  induction ps generalizing m bs with
  | nil => rfl
  | cons p ps ih =>
      rw [scatter, ih fun q hq => h q (List.mem_cons_of_mem p hq)]
      have hp := h p List.mem_cons_self
      have hlen := List.length_take_le k bs
      exact put_of_notMem (hp.imp_right fun hx => le_trans (Nat.add_le_add_left hlen p) hx)

@[simp] theorem scatter_nil : scatter k m ps [] = m := by
  induction ps with
  | nil => rfl
  | cons p ps ih => rw [scatter, List.take_nil, List.drop_nil, put_nil, ih]

theorem gather_scatter (hlen : bs.length ≤ k * ps.length) (hps : ps.Pairwise fun p q => p + k ≤ q) :
    (gather (scatter k m ps bs) k ps).take bs.length = bs := by
  induction ps generalizing m bs with
  | nil =>
      rw [List.length_nil, Nat.mul_zero, Nat.le_zero] at hlen
      rw [List.length_eq_zero_iff.mp hlen]
      rfl
  | cons p ps ih =>
      obtain ⟨hp, hps'⟩ := List.pairwise_cons.mp hps
      have hkeep : bytes (scatter k (put m p (bs.take k)) ps (bs.drop k)) p k =
          bytes (put m p (bs.take k)) p k := by
        refine bytes_congr fun x _ hx => scatter_of_notMem fun q hq => ?_
        exact Or.inl (hx.trans_le (hp q hq))
      have htake : (bytes (put m p (bs.take k)) p k).take (bs.take k).length = bs.take k := by
        rw [take_bytes (List.length_take_le k bs), bytes_put_self]
      rw [scatter, gather_cons, hkeep]
      rcases le_total bs.length k with h | h
      · rw [List.take_append_of_le_length (by rwa [bytes_length])]
        rwa [List.take_of_length_le h] at htake ⊢
      · have hdrop : (bs.drop k).length ≤ k * ps.length := by
          rw [List.length_cons, Nat.mul_succ] at hlen
          rw [List.length_drop]
          omega
        have hrest := ih (m := put m p (bs.take k)) hdrop hps'
        have hfull : bytes (put m p (bs.take k)) p k = bs.take k := by
          rwa [List.length_take, min_eq_left h, List.take_of_length_le bytes_length.le] at htake
        obtain ⟨d, hd⟩ := Nat.exists_eq_add_of_le h
        have hdlen : d = (bs.drop k).length := by
          rw [List.length_drop, hd, Nat.add_sub_cancel_left]
        rw [hfull, hd, List.take_append, List.length_take, min_eq_left h, Nat.add_sub_cancel_left,
          hdlen, hrest, List.take_of_length_le (by rw [List.length_take]; omega), List.take_append_drop]

theorem drop_gather {i off : ℕ} (h : i ≤ ps.length) :
    (gather m k ps).drop (k * i + off) = (gather m k (ps.drop i)).drop off := by
  induction i generalizing ps with
  | zero => rw [Nat.mul_zero, Nat.zero_add, List.drop_zero]
  | succ i ih =>
      cases ps with
      | nil => cases h
      | cons p ps =>
          have hsplit : k * (i + 1) + off = k + (k * i + off) := by
            rw [Nat.mul_succ]
            omega
          rw [gather_cons, hsplit, ← List.drop_drop, List.drop_left' bytes_length, List.drop_succ_cons]
          exact ih (Nat.le_of_succ_le_succ h)

/-- A range that starts in the first block. -/
theorem take_drop_gather {off n : ℕ} (h : off ≤ k) :
    ((gather m k (p :: ps)).drop off).take n =
      bytes m (p + off) (min n (k - off)) ++ (gather m k ps).take (n - min n (k - off)) := by
  rw [gather_cons, List.drop_append_of_le_length (by rwa [bytes_length]), drop_bytes h, List.take_append,
    bytes_length]
  rcases le_total n (k - off) with hn | hn
  · rw [min_eq_left hn, take_bytes hn, Nat.sub_self, Nat.sub_eq_zero_of_le hn]
  · rw [min_eq_right hn, List.take_of_length_le (by rwa [bytes_length])]

theorem apart_of_pairwise {a b : ℕ} (hps : ps.Pairwise fun p q => p + k ≤ q) (ha : a ∈ ps)
    (hb : b ∈ ps) : a = b ∨ a + k ≤ b ∨ b + k ≤ a := by
  induction ps with
  | nil => cases ha
  | cons p ps ih =>
      obtain ⟨hp, hps'⟩ := List.pairwise_cons.mp hps
      rcases List.mem_cons.mp ha with rfl | ha'
      · rcases List.mem_cons.mp hb with rfl | hb'
        · exact Or.inl rfl
        · exact Or.inr (Or.inl (hp b hb'))
      · rcases List.mem_cons.mp hb with rfl | hb'
        · exact Or.inr (Or.inr (hp a ha'))
        · exact ih hps' ha' hb'

end ScatterGather
