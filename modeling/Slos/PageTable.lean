import Slos.FramePool

/-!
# Page directory and page table

`init_pgt` of `mm.c` and `handle_fault` and `free_page` of `page_table.c`. The words at
`KERN_PGD_START_BASE` and `KERN_PGT_START_BASE` are the arrays `pageDir` and `pageTbl`, which the
source indexes as `ppage_dir[i]` and `ppage_tbl[i]`; entry `i` of the table lies `4 * i` bytes above
its base, so the byte address `handle_fault` computes for a page is entry `pteIdx`. TTBR0 holds
`KERN_PGD_START_BASE`.
-/

namespace Slos
open Word Bitmap

structure PageState where
  kfp : FramePool
  pageDir : ℕ → ℕ
  pageTbl : ℕ → ℕ

def pgdIdx (va : ℕ) : ℕ := (va &&& 0xFFF00000) >>> 20

def pgtIdx (va : ℕ) : ℕ := (va &&& 0x000FF000) >>> 12

def pteIdx (va : ℕ) : ℕ := (pgdIdx va <<< 8) + pgtIdx va

/-- Every loop of `init_pgt`, in order, on the page directory. -/
def initPageDir (ppageDir : ℕ → ℕ) : ℕ → ℕ :=
  let zeroed := writeLoop ppageDir 0 (4 * 1024) fun _ => 0
  let mapped := writeLoop zeroed 0 (4 * 1024) fun k => u32 (kernPgtStartBase + k * 1024) ||| 0x1E1
  writeLoop mapped (1024 * 3 + 64) 64 fun _ => 0

/-- Every loop of `init_pgt`, in order, on the page table. -/
def initPageTbl (ppageTbl : ℕ → ℕ) : ℕ → ℕ :=
  let zeroed := writeLoop ppageTbl 0 (1024 * 4 * 256) fun _ => 0
  let ram := writeLoop zeroed 0 (1024 * 256) fun k => u32 (k * 4096) ||| 0x47E
  let axi := writeLoop ram 0 (1024 * 3 * 256) fun k => u32 (k * 4096) ||| 0x476
  let kern := writeLoop axi (0xC00 * 256) 0x20000 fun j => u32 (j * 4096) ||| 0x47E
  let iop := writeLoop kern (0xE00 * 256) 0x300 fun j => u32 (0xE0000000 + j * 4096) ||| 0x436
  let priv := writeLoop iop (0xE10 * 256) 0x1F000 fun j => u32 (0xE1000000 + j * 4096) ||| 0x432
  writeLoop priv 0xC4000 (64 * 256) fun _ => 0

def handleFault (s : PageState) (pfa : ℕ) : PageState :=
  let pde := s.pageDir (pgdIdx pfa)
  let pageDir := if pde &&& 0x3 = 0 then
      Function.update s.pageDir (pgdIdx pfa)
        ((kernPgtStartBase + ((pgdIdx pfa <<< 8) <<< 2)) ||| 0x1E1)
    else s.pageDir
  let (frameno, kfp) := getFrame s.kfp
  { kfp := kfp
    pageDir := pageDir
    pageTbl := Function.update s.pageTbl (pteIdx pfa) (frameToPhyAddr frameno ||| 0x472) }

/-- `free_page` gives back only frames of the heap. -/
def freePage (s : PageState) (freedAddr : ℕ) : PageState :=
  let frameNum := s.pageTbl (pteIdx freedAddr) >>> 12
  { kfp := if heapFrameStart ≤ frameNum ∧ frameNum < heapFrameStart + heapFrameNum then
        (releaseFrame s.kfp frameNum).2
      else s.kfp
    pageDir := s.pageDir
    pageTbl := Function.update s.pageTbl (pteIdx freedAddr) 0x0 }

/-- The low two bits of a second-level descriptor are zero exactly for a translation fault. -/
def Absent (pte : ℕ) : Prop := pte &&& 0x3 = 0

instance (pte : ℕ) : Decidable (Absent pte) := inferInstanceAs (Decidable (_ = _))

/-- The tables and the frame pool as `init_pgt` and `init_kernmem` leave them, over zeroed memory. -/
def bootPages : PageState where
  kfp := initFramepool
    { baseFrameIdx := 0, nFrames := 0, inaccBaseFrameNo := 0, inaccNFrames := 0, pBitmap := 0
      nBitmapEntry := 0, nRemainderBitmapEntry := 0, bitmap := fun _ => 0#8 }
    kernFrameStart kernFrameNum 0
  pageDir := initPageDir fun _ => 0
  pageTbl := initPageTbl fun _ => 0

theorem pgdIdx_eq {va : ℕ} (h : va < size) : pgdIdx va = va / 2 ^ 20 :=
  and_high_shiftRight (k := 20) (n := 12) h

theorem pgtIdx_eq (va : ℕ) : pgtIdx va = va / 2 ^ 12 % 2 ^ 8 :=
  and_mid_shiftRight va 12 8

theorem pteIdx_eq {va : ℕ} (h : va < size) : pteIdx va = va / 4096 := by
  rw [pteIdx, pgdIdx_eq h, pgtIdx_eq, Nat.shiftLeft_eq]
  omega

theorem initPageTbl_heap (t : ℕ → ℕ) {i : ℕ} (h : 0xC4000 ≤ i) (h' : i < 0xC8000) :
    initPageTbl t i = 0 := writeLoop_of_mem h h'

theorem frameToPhyAddr_natCast {f : ℕ} (h : f * 4096 < size) :
    frameToPhyAddr (f : ℕ) = f * 4096 := by
  unfold frameToPhyAddr size at *
  omega

theorem frame_of_pte (f : ℕ) : (f * 4096 ||| 0x472) >>> 12 = f :=
  or_low_shiftRight f (k := 12) (by decide)

theorem not_absent_mapped (f : ℕ) : ¬ Absent (f * 4096 ||| 0x472) := by
  have hbit : (f * 4096 ||| 0x472).testBit 1 = true := by
    have hattr : Nat.testBit 0x472 1 = true := by decide
    rw [Nat.testBit_or, hattr, Bool.or_true]
  intro h
  have hzero : ((f * 4096 ||| 0x472) &&& 0x3).testBit 1 = false := by
    rw [h, Nat.zero_testBit]
  rw [Nat.testBit_and, hbit] at hzero
  cases hzero

theorem absent_zero : Absent 0 := rfl

theorem freePage_kfp_of_heap (s : PageState) {va f : ℕ} (hf : s.pageTbl (pteIdx va) >>> 12 = f)
    (hlo : heapFrameStart ≤ f) (hhi : f < heapFrameStart + heapFrameNum) :
    (freePage s va).kfp = (releaseFrame s.kfp f).2 := by
  subst hf
  exact if_pos ⟨hlo, hhi⟩

theorem freePage_kfp_of_not_heap (s : PageState) {va : ℕ}
    (h : s.pageTbl (pteIdx va) >>> 12 < heapFrameStart) : (freePage s va).kfp = s.kfp :=
  if_neg fun hc => absurd hc.1 (Nat.not_le.mpr h)

end Slos
