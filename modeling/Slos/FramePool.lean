import Slos.Word
import Slos.Bitmap
import Slos.WriteLoop
import Slos.MemLayout

/-!
# The frame pool

`init_framepool`, `get_frame` and `release_frame` of `frame_pool.c`. The bytes behind `pBitmap` are
carried in the pool as `bitmap`; bit `k` of the bitmap belongs to frame `base_frame_idx + k` when
the base is a multiple of eight.
-/

namespace Slos
open Word Bitmap

structure FramePool where
  baseFrameIdx : ℕ
  nFrames : ℕ
  inaccBaseFrameNo : ℕ
  inaccNFrames : ℕ
  pBitmap : ℕ
  nBitmapEntry : ℕ
  nRemainderBitmapEntry : ℕ
  bitmap : ℕ → BitVec 8

/-- `FRAMETOPHYADDR`, with the signed argument its callers pass. -/
def frameToPhyAddr (x : ℤ) : ℕ := (x * 4 * 1024 % size).toNat

/-- `FRAMEPOOL_FREE_ERR`, thirteen above the C library's last error number. -/
def framepoolFreeErr : ℤ := 2000 + 13

def preallocMask (n : ℕ) : BitVec 8 :=
  (List.range n).foldl (fun mask j => mask ||| 1#8 <<< j) 0#8

/-- The fields `inacc_baseFrameNo` and `inacc_nFrames` of the given pool stay as they are. -/
def initFramepool (p : FramePool) (baseFrameIdx frameNum bitmapFrameIdx : ℕ) : FramePool :=
  let cleared := writeLoop p.bitmap 0 4096 fun _ => 0#8
  let full := writeLoop cleared 0 (preallocFrameNum / 8) fun _ => 0xFF#8
  { p with
    baseFrameIdx := baseFrameIdx
    nFrames := frameNum
    pBitmap := if bitmapFrameIdx = 0 then kernelFrameBitmap else frameToPhyAddr bitmapFrameIdx
    nBitmapEntry := frameNum / 8
    nRemainderBitmapEntry := frameNum % 8
    bitmap := if bitmapFrameIdx = 0 then
        Function.update full (preallocFrameNum / 8)
          (full (preallocFrameNum / 8) ||| preallocMask (preallocFrameNum % 8))
      else cleared }

def getFrame (p : FramePool) : ℤ × FramePool :=
  match findClear p.bitmap p.nBitmapEntry p.nRemainderBitmapEntry with
  | some (i, j) =>
      (int32 (p.baseFrameIdx + i * 8 + j), { p with bitmap := setBit p.bitmap i j })
  | none => (-1, p)

def releaseFrame (p : FramePool) (frameNo : ℕ) : ℤ × FramePool :=
  let entryOffset := usub frameNo p.baseFrameIdx / 8
  let remainder := frameNo % 8
  if p.inaccBaseFrameNo ≤ frameNo ∧ frameNo < u32 (p.inaccBaseFrameNo + p.inaccNFrames) then
    (framepoolFreeErr, p)
  else if u32 (p.baseFrameIdx + p.nFrames) ≤ frameNo ∨ frameNo < p.baseFrameIdx then
    (framepoolFreeErr, p)
  else (0, { p with bitmap := clearBit p.bitmap entryOffset remainder })

namespace FramePool

def used (p : FramePool) (k : ℕ) : Prop := bit p.bitmap k = true

/-- The entry counts agree with the number of frames and every frame number fits an `int32_t`. -/
structure Sized (p : FramePool) : Prop where
  entries : p.nBitmapEntry = p.nFrames / 8
  remainder : p.nRemainderBitmapEntry = p.nFrames % 8
  bound : p.baseFrameIdx + p.nFrames < 2147483648

end FramePool

theorem preallocMask_zero : preallocMask 0 = 0#8 := rfl

theorem initFramepool_sized (p : FramePool) {base num : ℕ} (idx : ℕ)
    (h : base + num < 2147483648) : (initFramepool p base num idx).Sized :=
  ⟨rfl, rfl, h⟩

theorem initFramepool_kernel_used (p : FramePool) (base num k : ℕ) :
    (initFramepool p base num 0).used k ↔ k < preallocFrameNum ∨
      (8 * 4096 ≤ k ∧ p.used k) := by
  have hfull : ∀ i, (writeLoop (writeLoop p.bitmap 0 4096 fun _ => 0#8) 0 2048
      fun _ => 0xFF#8) i = if i < 2048 then 0xFF#8 else if i < 4096 then 0#8 else p.bitmap i := by
    intro i
    simp only [writeLoop_apply, Nat.zero_le, true_and, Nat.zero_add]
  have hbm : (initFramepool p base num 0).bitmap =
      writeLoop (writeLoop p.bitmap 0 4096 fun _ => 0#8) 0 2048 fun _ => 0xFF#8 := by
    funext i
    simp only [initFramepool, if_pos]
    rw [show preallocFrameNum % 8 = 0 from rfl, preallocMask_zero, BitVec.or_zero,
      Function.update_eq_self]
    rfl
  have hk8 : k % 8 < 8 := Nat.mod_lt _ (by decide)
  have hall : ∀ j < 8, (0xFF#8).getLsbD j = true := by decide
  unfold FramePool.used bit
  rw [hbm, hfull, show preallocFrameNum = 16384 from rfl]
  by_cases h1 : k / 8 < 2048
  · rw [if_pos h1, hall _ hk8]
    simp only [true_iff]
    omega
  · rw [if_neg h1]
    by_cases h2 : k / 8 < 4096
    · rw [if_pos h2]
      simp only [BitVec.getLsbD_zero, Bool.false_eq_true, false_iff]
      omega
    · rw [if_neg h2]
      have : ¬ k < 16384 := by omega
      have h3 : 8 * 4096 ≤ k := by omega
      simp only [this, h3, false_or, true_and]

theorem initFramepool_used (p : FramePool) (base num k : ℕ) {idx : ℕ} (hidx : idx ≠ 0) :
    (initFramepool p base num idx).used k ↔ 8 * 4096 ≤ k ∧ p.used k := by
  unfold FramePool.used bit initFramepool
  simp only [if_neg hidx, writeLoop_apply, Nat.zero_le, true_and, Nat.zero_add]
  by_cases h : k / 8 < 4096
  · rw [if_pos h]
    simp only [BitVec.getLsbD_zero, Bool.false_eq_true, false_iff]
    omega
  · rw [if_neg h]
    have hk : 8 * 4096 ≤ k := by omega
    simp only [hk, true_and]

/-- `get_frame` hands out the frame of the least clear bit and sets that bit, or there is none. -/
theorem getFrame_cases {p : FramePool} (hent : p.nBitmapEntry = p.nFrames / 8)
    (hrem : p.nRemainderBitmapEntry = p.nFrames % 8) :
    (∃ k < p.nFrames, ¬ p.used k ∧ (∀ m < k, p.used m) ∧
      getFrame p = (int32 (p.baseFrameIdx + k), { p with bitmap := setBit p.bitmap (k / 8) (k % 8) })) ∨
    ((∀ k < p.nFrames, p.used k) ∧ getFrame p = (-1, p)) := by
  have hr : p.nRemainderBitmapEntry < 8 := by omega
  have hn : 8 * p.nBitmapEntry + p.nRemainderBitmapEntry = p.nFrames := by omega
  cases hf : findClear p.bitmap p.nBitmapEntry p.nRemainderBitmapEntry with
  | none =>
      have hall := findClear_eq_none hr hf
      rw [hn] at hall
      right
      constructor
      · exact hall
      · rw [getFrame, hf]
  | some ij =>
      obtain ⟨i, j⟩ := ij
      obtain ⟨hlt, hj, hclear, hbelow⟩ := findClear_eq_some hr hf
      have hdiv : (8 * i + j) / 8 = i := by omega
      have hmod : (8 * i + j) % 8 = j := by omega
      have hadd : p.baseFrameIdx + (8 * i + j) = p.baseFrameIdx + i * 8 + j := by omega
      refine Or.inl ⟨8 * i + j, by omega, by simpa [FramePool.used] using hclear, hbelow, ?_⟩
      rw [getFrame, hf, hdiv, hmod, hadd]

/-- A pool with a clear bit hands out the frame of the least one and sets that bit. -/
theorem getFrame_of_free {p : FramePool} (hp : p.Sized) (h : ∃ k < p.nFrames, ¬ p.used k) :
    ∃ k < p.nFrames, ¬ p.used k ∧ (∀ m < k, p.used m) ∧
      (getFrame p).1 = (p.baseFrameIdx + k : ℕ) ∧
      (getFrame p).2 = { p with bitmap := setBit p.bitmap (k / 8) (k % 8) } := by
  have hb := hp.bound
  rcases getFrame_cases hp.entries hp.remainder with ⟨k, hk, hfree, hbelow, hget⟩ | ⟨hall, -⟩
  · refine ⟨k, hk, hfree, hbelow, ?_, ?_⟩
    · rw [hget, int32_of_lt (by omega)]
    · rw [hget]
  · obtain ⟨k, hk, hfree⟩ := h
    exact absurd (hall k hk) hfree

theorem getFrame_of_full {p : FramePool} (hp : p.Sized) (h : ∀ k < p.nFrames, p.used k) :
    getFrame p = (-1, p) := by
  rcases getFrame_cases hp.entries hp.remainder with ⟨k, hk, hfree, -⟩ | ⟨-, hget⟩
  · exact absurd (h k hk) hfree
  · exact hget

theorem used_setBit (p : FramePool) (k m : ℕ) :
    FramePool.used { p with bitmap := setBit p.bitmap (k / 8) (k % 8) } m ↔ p.used m ∨ m = k := by
  unfold FramePool.used
  rw [bit_setBit _ (Nat.mod_lt _ (by decide)), show 8 * (k / 8) + k % 8 = k by omega]
  simp

/-- Outside the inaccessible range, releasing a frame of a pool based at zero clears its bit. -/
theorem releaseFrame_of_base_zero {p : FramePool} (hb : p.baseFrameIdx = 0)
    (hi : p.inaccNFrames = 0) (hin : p.inaccBaseFrameNo < size) (hn : p.nFrames < size) {f : ℕ}
    (hf : f < p.nFrames) :
    releaseFrame p f = (0, { p with bitmap := clearBit p.bitmap (f / 8) (f % 8) }) := by
  have hacc : ¬ (p.inaccBaseFrameNo ≤ f ∧ f < u32 (p.inaccBaseFrameNo + p.inaccNFrames)) := by
    rw [hi, Nat.add_zero, u32_of_lt hin]; omega
  have hbound : ¬ (u32 (p.baseFrameIdx + p.nFrames) ≤ f ∨ f < p.baseFrameIdx) := by
    rw [hb, Nat.zero_add, u32_of_lt hn]; omega
  rw [releaseFrame, if_neg hacc, if_neg hbound, hb, usub_of_le (by omega) (Nat.zero_le f),
    Nat.sub_zero]

theorem used_clearBit (p : FramePool) (k m : ℕ) :
    FramePool.used { p with bitmap := clearBit p.bitmap (k / 8) (k % 8) } m ↔
      p.used m ∧ m ≠ k := by
  unfold FramePool.used
  rw [bit_clearBit _ (Nat.mod_lt _ (by decide)), show 8 * (k / 8) + k % 8 = k by omega]
  simp

end Slos
