import Mathlib.Data.List.Basic
import Mathlib.Data.Nat.Bitwise
import Mathlib.Logic.Function.Basic

/-!
# Bitmaps stored in byte arrays

Bit `k` of a byte array is bit `k % 8` of byte `k / 8`. Setting or clearing one bit of one byte
changes exactly that bit of the bitmap, and a byte-by-byte search that skips full bytes finds the
least clear bit.
-/

namespace Bitmap

def bit (bm : ℕ → BitVec 8) (k : ℕ) : Bool := (bm (k / 8)).getLsbD (k % 8)

def setBit (bm : ℕ → BitVec 8) (i j : ℕ) : ℕ → BitVec 8 :=
  Function.update bm i (bm i ||| 1#8 <<< j)

def clearBit (bm : ℕ → BitVec 8) (i j : ℕ) : ℕ → BitVec 8 :=
  Function.update bm i (bm i &&& ~~~(1#8 <<< j))

theorem getLsbD_one_shiftLeft {j k : ℕ} (hk : k < 8) :
    (1#8 <<< j).getLsbD k = decide (k = j) := by
  simp only [BitVec.getLsbD_shiftLeft, BitVec.getLsbD_one, hk, decide_true, Bool.true_and]
  by_cases h : k < j
  · simp [h]; omega
  · have : (k - j = 0) ↔ k = j := by omega
    simp [h, this]

theorem and_shiftLeft_eq_zero_iff (b : BitVec 8) {j : ℕ} (hj : j < 8) :
    b &&& 1#8 <<< j = 0#8 ↔ b.getLsbD j = false := by
  constructor
  · intro h
    have hbit : (b &&& 1#8 <<< j).getLsbD j = (0#8).getLsbD j := by rw [h]
    simpa [getLsbD_one_shiftLeft hj] using hbit
  · intro h
    apply BitVec.eq_of_getLsbD_eq
    intro k hk
    rw [BitVec.getLsbD_and, getLsbD_one_shiftLeft hk]
    by_cases hkj : k = j
    · simp [hkj, h]
    · simp [hkj]

theorem bit_setBit (bm : ℕ → BitVec 8) {i j : ℕ} (hj : j < 8) (k : ℕ) :
    bit (setBit bm i j) k = (bit bm k || decide (k = 8 * i + j)) := by
  unfold bit setBit
  by_cases hi : k / 8 = i
  · have hk : k % 8 = j ↔ k = 8 * i + j := by omega
    rw [hi, Function.update_self, BitVec.getLsbD_or,
      getLsbD_one_shiftLeft (Nat.mod_lt _ (by decide)), decide_eq_decide.mpr hk]
  · have hk : k ≠ 8 * i + j := by omega
    rw [Function.update_of_ne hi]
    simp [hk]

theorem bit_clearBit (bm : ℕ → BitVec 8) {i j : ℕ} (hj : j < 8) (k : ℕ) :
    bit (clearBit bm i j) k = (bit bm k && !decide (k = 8 * i + j)) := by
  unfold bit clearBit
  have hk8 : k % 8 < 8 := Nat.mod_lt _ (by decide)
  by_cases hi : k / 8 = i
  · have hk : k % 8 = j ↔ k = 8 * i + j := by omega
    rw [hi, Function.update_self, BitVec.getLsbD_and, BitVec.getLsbD_not,
      getLsbD_one_shiftLeft hk8]
    simp [hk8, hk]
  · have hk : k ≠ 8 * i + j := by omega
    rw [Function.update_of_ne hi]
    simp [hk]

theorem bit_of_full {bm : ℕ → BitVec 8} {i : ℕ} (h : bm i = 0xFF#8) {k : ℕ} (hk : k / 8 = i) :
    bit bm k = true := by
  have hk8 : k % 8 < 8 := Nat.mod_lt _ (by decide)
  have hall : ∀ j < 8, (0xFF#8).getLsbD j = true := by decide
  rw [bit, hk, h, hall _ hk8]

/-- The least clear bit among the first `n` bits of one byte. -/
def clearBit? (b : BitVec 8) (n : ℕ) : Option ℕ :=
  (List.range n).find? fun j => b &&& 1#8 <<< j == 0#8

theorem clearBit?_eq_some {bm : ℕ → BitVec 8} {i n j : ℕ} (hn : n ≤ 8)
    (h : clearBit? (bm i) n = some j) :
    j < n ∧ bit bm (8 * i + j) = false ∧ ∀ k < j, bit bm (8 * i + k) = true := by
  obtain ⟨hj, hmem, hlt⟩ := List.find?_range_eq_some.mp h
  have hjn : j < n := List.mem_range.mp hmem
  have hbit : ∀ k < 8, bit bm (8 * i + k) = (bm i).getLsbD k := by
    intro k hk
    rw [bit, show (8 * i + k) / 8 = i by omega, show (8 * i + k) % 8 = k by omega]
  refine ⟨hjn, ?_, fun k hk => ?_⟩
  · rw [hbit j (by omega)]
    exact (and_shiftLeft_eq_zero_iff _ (by omega)).mp (by simpa using hj)
  · have hne := hlt k hk
    rw [hbit k (by omega)]
    by_contra hf
    have := (and_shiftLeft_eq_zero_iff (bm i) (show k < 8 by omega)).mpr (by simpa using hf)
    simp [this] at hne

theorem clearBit?_eq_none {bm : ℕ → BitVec 8} {i n : ℕ} (hn : n ≤ 8)
    (h : clearBit? (bm i) n = none) : ∀ k < n, bit bm (8 * i + k) = true := by
  intro k hk
  have hne := List.find?_eq_none.mp h k (List.mem_range.mpr hk)
  rw [bit, show (8 * i + k) / 8 = i by omega, show (8 * i + k) % 8 = k by omega]
  by_contra hf
  have := (and_shiftLeft_eq_zero_iff (bm i) (show k < 8 by omega)).mpr (by simpa using hf)
  simp [this] at hne

/-- The search of `m` whole bytes and then of the first `r` bits of the next byte. -/
def findClear (bm : ℕ → BitVec 8) (m r : ℕ) : Option (ℕ × ℕ) :=
  ((List.range m).findSome? fun i =>
    if bm i = 0xFF#8 then none else (clearBit? (bm i) 8).map (i, ·)).or
  ((clearBit? (bm m) r).map (m, ·))

theorem scan_eq_some {bm : ℕ → BitVec 8} {m i j : ℕ}
    (h : (List.range m).findSome? (fun i =>
      if bm i = 0xFF#8 then none else (clearBit? (bm i) 8).map (i, ·)) = some (i, j)) :
    i < m ∧ j < 8 ∧ bit bm (8 * i + j) = false ∧ ∀ k < 8 * i + j, bit bm k = true := by
  induction m with
  | zero => simp at h
  | succ m ih =>
      rw [List.range_succ, List.findSome?_append] at h
      cases hp : (List.range m).findSome? (fun i =>
          if bm i = 0xFF#8 then none else (clearBit? (bm i) 8).map (i, ·)) with
      | some q =>
          rw [hp, Option.some_or] at h
          cases h
          obtain ⟨hi, hrest⟩ := ih hp
          exact ⟨by omega, hrest⟩
      | none =>
          rw [hp, Option.none_or, List.findSome?_singleton] at h
          split_ifs at h with hfull
          obtain ⟨j', hj', he⟩ := Option.map_eq_some_iff.mp h
          obtain ⟨rfl, rfl⟩ := Prod.mk.inj he
          obtain ⟨hj8, hclear, hbelow⟩ := clearBit?_eq_some le_rfl hj'
          refine ⟨by omega, hj8, hclear, fun k hk => ?_⟩
          by_cases hki : k / 8 = m
          · have := hbelow (k % 8) (by omega)
            rwa [show 8 * m + k % 8 = k by omega] at this
          · have hnone := List.findSome?_eq_none_iff.mp hp (k / 8)
              (List.mem_range.mpr (by omega))
            split_ifs at hnone with hf
            · exact bit_of_full hf rfl
            · have := clearBit?_eq_none le_rfl (Option.map_eq_none_iff.mp hnone) (k % 8) (by omega)
              rwa [show 8 * (k / 8) + k % 8 = k by omega] at this

theorem scan_eq_none {bm : ℕ → BitVec 8} {m : ℕ}
    (h : (List.range m).findSome? (fun i =>
      if bm i = 0xFF#8 then none else (clearBit? (bm i) 8).map (i, ·)) = none) :
    ∀ k < 8 * m, bit bm k = true := by
  intro k hk
  have hnone := List.findSome?_eq_none_iff.mp h (k / 8) (List.mem_range.mpr (by omega))
  split_ifs at hnone with hf
  · exact bit_of_full hf rfl
  · have := clearBit?_eq_none le_rfl (Option.map_eq_none_iff.mp hnone) (k % 8) (by omega)
    rwa [show 8 * (k / 8) + k % 8 = k by omega] at this

/-- The search finds the least clear bit of the first `8 * m + r`. -/
theorem findClear_eq_some {bm : ℕ → BitVec 8} {m r i j : ℕ} (hr : r < 8)
    (h : findClear bm m r = some (i, j)) :
    8 * i + j < 8 * m + r ∧ j < 8 ∧ bit bm (8 * i + j) = false ∧
      ∀ k < 8 * i + j, bit bm k = true := by
  unfold findClear at h
  rcases Option.or_eq_some_iff.mp h with hs | ⟨hn, hs⟩
  · obtain ⟨hi, hj, hclear, hbelow⟩ := scan_eq_some hs
    exact ⟨by omega, hj, hclear, hbelow⟩
  · obtain ⟨j', hj', he⟩ := Option.map_eq_some_iff.mp hs
    cases he
    obtain ⟨hjr, hclear, hbelow⟩ := clearBit?_eq_some (by omega) hj'
    refine ⟨by omega, by omega, hclear, fun k hk => ?_⟩
    by_cases hkm : k < 8 * m
    · exact scan_eq_none hn k hkm
    · have := hbelow (k - 8 * m) (by omega)
      rwa [show 8 * m + (k - 8 * m) = k by omega] at this

theorem findClear_eq_none {bm : ℕ → BitVec 8} {m r : ℕ} (hr : r < 8)
    (h : findClear bm m r = none) : ∀ k < 8 * m + r, bit bm k = true := by
  unfold findClear at h
  obtain ⟨hn, hs⟩ := Option.or_eq_none_iff.mp h
  intro k hk
  by_cases hkm : k < 8 * m
  · exact scan_eq_none hn k hkm
  · have := clearBit?_eq_none (by omega) (Option.map_eq_none_iff.mp hs) (k - 8 * m) (by omega)
    rwa [show 8 * m + (k - 8 * m) = k by omega] at this

end Bitmap
