import Slos.Machine
import Slos.Ownership
import Slos.PageTable
import Mathlib.Order.Interval.Finset.Nat

/-!
# Demand paging of the kernel heap

A run alternates page faults on absent heap pages with `free_page` calls on heap pages. The page
table is read as an ownership map: a present heap entry owns the frame in its upper twenty bits.
`Accounted` says that this map is exact for the frame bitmap, and every step keeps it, so a fault
always finds a free frame.
-/

namespace Slos.DemandPaging
open Word Bitmap Ownership FramePool

inductive PageStep
  | fault (va : ℕ)
  | free (va : ℕ)

def HeapAddr (va : ℕ) : Prop := kernelHeapStart ≤ va ∧ va < kernelHeapEnd

instance (va : ℕ) : Decidable (HeapAddr va) := inferInstanceAs (Decidable (_ ∧ _))

def pageStep (s : PageState) : PageStep → Option PageState
  | .fault va => if HeapAddr va ∧ Absent (s.pageTbl (pteIdx va)) then some (handleFault s va) else none
  | .free va => if HeapAddr va then some (freePage s va) else none

def heapPages : Finset ℕ := Finset.Ico (kernelHeapStart / 4096) (kernelHeapEnd / 4096)

def heapFrames : Finset ℕ := Finset.Ico heapFrameStart (heapFrameStart + heapFrameNum)

/-- The frame a page table entry maps. -/
def frameOf (pte : ℕ) : Option ℕ := if Absent pte then none else some (pte >>> 12)

/-- The pool `init_kernmem` sets up, with an empty inaccessible range. -/
def Kernel (p : FramePool) : Prop :=
  ∃ q : FramePool, p = initFramepool q kernFrameStart kernFrameNum 0 ∧
    q.inaccNFrames = 0 ∧ q.inaccBaseFrameNo < size

def Start (s : PageState) : Prop :=
  Kernel s.kfp ∧ ∃ t, s.pageTbl = initPageTbl t

structure Accounted (s : PageState) : Prop where
  sized : s.kfp.Sized
  base : s.kfp.baseFrameIdx = 0
  frames : s.kfp.nFrames = kernFrameNum
  inaccNone : s.kfp.inaccNFrames = 0
  inaccBase : s.kfp.inaccBaseFrameNo < size
  prealloc : ∀ k < preallocFrameNum, s.kfp.used k
  absentZero : ∀ p ∈ heapPages, Absent (s.pageTbl p) → s.pageTbl p = 0
  exact : Exact heapPages heapFrames (fun p => frameOf (s.pageTbl p)) s.kfp.used

theorem card_heapPages : heapPages.card = 16384 := by
  rw [heapPages, Nat.card_Ico]
  rfl

theorem card_heapFrames : heapFrames.card = 16384 := by
  rw [heapFrames, Nat.card_Ico]
  rfl

theorem mem_heapFrames {f : ℕ} : f ∈ heapFrames ↔ 16384 ≤ f ∧ f < 32768 := by
  rw [heapFrames, Finset.mem_Ico]
  rfl

theorem pteIdx_mem_heapPages {va : ℕ} (h : HeapAddr va) : pteIdx va ∈ heapPages := by
  unfold HeapAddr kernelHeapEnd kernelHeapStart kernelHeapSize at h
  rw [pteIdx_eq (by unfold size; omega), heapPages, Finset.mem_Ico]
  unfold kernelHeapEnd kernelHeapStart kernelHeapSize
  omega

theorem frameOf_zero : frameOf 0 = none := if_pos absent_zero

theorem frameOf_mapped (f : ℕ) : frameOf (f * 4096 ||| 0x472) = some f := by
  rw [frameOf, if_neg (not_absent_mapped f), frame_of_pte]

theorem start_accounted {s : PageState} (h : Start s) : Accounted s := by
  obtain ⟨⟨q, hq, hn, hb⟩, t, ht⟩ := h
  have hpte : ∀ p ∈ heapPages, s.pageTbl p = 0 := by
    intro p hp
    obtain ⟨h1, h2⟩ := Finset.mem_Ico.mp hp
    rw [ht, initPageTbl_heap t h1 h2]
  have hzero : ∀ p ∈ heapPages, frameOf (s.pageTbl p) = none := by
    intro p hp
    rw [hpte p hp, frameOf_zero]
  refine ⟨?_, by rw [hq]; rfl, by rw [hq]; rfl, by rw [hq]; exact hn, by rw [hq]; exact hb, ?_,
    fun p hp _ => hpte p hp, ?_⟩
  · rw [hq]
    exact initFramepool_sized q 0 (by decide)
  · intro k hk
    rw [hq, initFramepool_kernel_used]
    exact Or.inl hk
  · refine ⟨fun a ha b _ r har _ => ?_, fun a ha r har => ?_, fun r hr => ?_⟩
    · rw [hzero a ha] at har
      cases har
    · rw [hzero a ha] at har
      cases har
    · have hfree : ¬ s.kfp.used r := by
        obtain ⟨h1, h2⟩ := mem_heapFrames.mp hr
        rw [hq, initFramepool_kernel_used, show preallocFrameNum = 16384 from rfl]
        omega
      refine ⟨fun hu => absurd hu hfree, ?_⟩
      rintro ⟨a, ha, har⟩
      rw [hzero a ha] at har
      cases har

/-- With a heap page absent, `get_frame` hands out a heap frame that no page maps. -/
theorem getFrame_heap {s : PageState} (h : Accounted s) {p : ℕ} (hp : p ∈ heapPages)
    (habs : Absent (s.pageTbl p)) :
    ∃ f ∈ heapFrames, ¬ s.kfp.used f ∧ (getFrame s.kfp).1 = (f : ℕ) ∧
      (getFrame s.kfp).2 = { s.kfp with bitmap := setBit s.kfp.bitmap (f / 8) (f % 8) } := by
  have hn : s.kfp.nFrames = 32768 := h.frames
  have hpre : ∀ k < 16384, s.kfp.used k := h.prealloc
  obtain ⟨r, hr, hfree⟩ := h.exact.exists_free (by rw [card_heapPages, card_heapFrames]) hp
    (if_pos habs : frameOf (s.pageTbl p) = none)
  obtain ⟨k, hk, hkfree, _, hres, hpool⟩ :=
    getFrame_of_free h.sized ⟨r, by have := mem_heapFrames.mp hr; omega, hfree⟩
  have hk1 : 16384 ≤ k := by
    by_contra! hlt
    exact hkfree (hpre k hlt)
  refine ⟨k, mem_heapFrames.mpr ⟨hk1, by omega⟩, hkfree, ?_, hpool⟩
  rw [hres, h.base, Nat.zero_add]

theorem handleFault_accounted {s : PageState} (h : Accounted s) {va : ℕ} (hva : HeapAddr va)
    (habs : Absent (s.pageTbl (pteIdx va))) : Accounted (handleFault s va) := by
  have hp := pteIdx_mem_heapPages hva
  obtain ⟨f, hf, hfree, hres, hpool⟩ := getFrame_heap h hp habs
  have hflt : f * 4096 < size := by have := mem_heapFrames.mp hf; unfold size; omega
  have hkfp : (handleFault s va).kfp =
      { s.kfp with bitmap := setBit s.kfp.bitmap (f / 8) (f % 8) } := hpool
  have htbl : (handleFault s va).pageTbl =
      Function.update s.pageTbl (pteIdx va) (f * 4096 ||| 0x472) := by
    change Function.update s.pageTbl (pteIdx va) (frameToPhyAddr (getFrame s.kfp).1 ||| 0x472) = _
    rw [hres, frameToPhyAddr_natCast hflt]
  have hused : ∀ m, (handleFault s va).kfp.used m ↔ s.kfp.used m ∨ m = f := by
    intro m
    rw [hkfp]
    exact used_setBit s.kfp f m
  refine ⟨?_, by rw [hkfp]; exact h.base, by rw [hkfp]; exact h.frames,
    by rw [hkfp]; exact h.inaccNone, by rw [hkfp]; exact h.inaccBase,
    fun k hk => (hused k).mpr (Or.inl (h.prealloc k hk)), fun q hq hqabs => ?_, ?_⟩
  · rw [hkfp]
    exact ⟨h.sized.entries, h.sized.remainder, h.sized.bound⟩
  · by_cases hqva : q = pteIdx va
    · rw [htbl, hqva, Function.update_self] at hqabs
      exact absurd hqabs (not_absent_mapped f)
    · rw [htbl, Function.update_of_ne hqva] at hqabs ⊢
      exact h.absentZero q hq hqabs
  · refine h.exact.assign hp (if_pos habs) hf hfree ?_ ?_ (fun m _ => hused m)
    · rw [htbl, Function.update_self, frameOf_mapped]
    · intro q _ hq
      rw [htbl, Function.update_of_ne hq]

theorem freePage_accounted {s : PageState} (h : Accounted s) {va : ℕ} (hva : HeapAddr va) :
    Accounted (freePage s va) := by
  have hp := pteIdx_mem_heapPages hva
  have hself : frameOf ((freePage s va).pageTbl (pteIdx va)) = none := by
    change frameOf (Function.update s.pageTbl (pteIdx va) 0x0 (pteIdx va)) = none
    rw [Function.update_self, frameOf_zero]
  have hother : ∀ q ∈ heapPages, q ≠ pteIdx va →
      frameOf ((freePage s va).pageTbl q) = frameOf (s.pageTbl q) := by
    intro q _ hq
    change frameOf (Function.update s.pageTbl (pteIdx va) 0x0 q) = _
    rw [Function.update_of_ne hq]
  have habsent : ∀ q ∈ heapPages, Absent ((freePage s va).pageTbl q) →
      (freePage s va).pageTbl q = 0 := by
    intro q hq hqabs
    change Function.update s.pageTbl (pteIdx va) 0x0 q = 0
    by_cases hqva : q = pteIdx va
    · rw [hqva, Function.update_self]
    · change Absent (Function.update s.pageTbl (pteIdx va) 0x0 q) at hqabs
      rw [Function.update_of_ne hqva] at hqabs ⊢
      exact h.absentZero q hq hqabs
  by_cases habs : Absent (s.pageTbl (pteIdx va))
  · have hkfp : (freePage s va).kfp = s.kfp := by
      apply freePage_kfp_of_not_heap
      rw [h.absentZero _ hp habs]
      decide
    refine ⟨by rw [hkfp]; exact h.sized, by rw [hkfp]; exact h.base, by rw [hkfp]; exact h.frames,
      by rw [hkfp]; exact h.inaccNone, by rw [hkfp]; exact h.inaccBase,
      by rw [hkfp]; exact h.prealloc, habsent, ?_⟩
    refine h.exact.release hp hself hother fun x _ => ?_
    rw [hkfp, frameOf, if_pos habs]
    exact ⟨fun hu => ⟨hu, nofun⟩, And.left⟩
  · have hown : frameOf (s.pageTbl (pteIdx va)) = some (s.pageTbl (pteIdx va) >>> 12) := if_neg habs
    obtain ⟨f, hf⟩ : ∃ f, s.pageTbl (pteIdx va) >>> 12 = f := ⟨_, rfl⟩
    rw [hf] at hown
    have hin : f ∈ heapFrames := h.exact.mem _ hp f hown
    obtain ⟨hlo, hhi⟩ := Finset.mem_Ico.mp hin
    have hn : s.kfp.nFrames = 32768 := h.frames
    have hkfp : (freePage s va).kfp =
        { s.kfp with bitmap := clearBit s.kfp.bitmap (f / 8) (f % 8) } := by
      rw [freePage_kfp_of_heap s hf hlo hhi, releaseFrame_of_base_zero h.base h.inaccNone
        h.inaccBase (by rw [hn]; decide) (by have := mem_heapFrames.mp hin; omega)]
    have hused : ∀ m, (freePage s va).kfp.used m ↔ s.kfp.used m ∧ m ≠ f := by
      intro m
      rw [hkfp]
      exact used_clearBit s.kfp f m
    refine ⟨?_, by rw [hkfp]; exact h.base, by rw [hkfp]; exact h.frames,
      by rw [hkfp]; exact h.inaccNone, by rw [hkfp]; exact h.inaccBase,
      fun k hk => (hused k).mpr ⟨h.prealloc k hk, ?_⟩, habsent, ?_⟩
    · rw [hkfp]
      exact ⟨h.sized.entries, h.sized.remainder, h.sized.bound⟩
    · have hk' : k < 16384 := hk
      have := mem_heapFrames.mp hin
      omega
    · refine h.exact.release hp hself hother fun x _ => ?_
      rw [hused, hown]
      exact and_congr_right fun _ => ⟨fun hne he => hne (Option.some.inj he).symm,
        fun hne he => hne (he ▸ rfl)⟩

theorem pageStep_accounted (s : PageState) (i : PageStep) (t : PageState) (h : Accounted s)
    (ht : pageStep s i = some t) : Accounted t := by
  cases i with
  | fault va =>
      simp only [pageStep] at ht
      split_ifs at ht with hc
      cases ht
      exact handleFault_accounted h hc.1 hc.2
  | free va =>
      simp only [pageStep] at ht
      split_ifs at ht with hc
      cases ht
      exact freePage_accounted h hc

theorem run_accounted {s t : PageState} {is : List PageStep} (h : Start s)
    (ht : Machine.exec pageStep s is = some t) : Accounted t :=
  Machine.exec_invariant pageStep_accounted (start_accounted h) ht

/-- Every state of every run of faults and frees keeps the page accounting exact, and a fault on an
absent heap page never runs out of frames. -/
theorem demand_paging_accounting {s t : PageState} {is : List PageStep} (h : Start s)
    (ht : Machine.exec pageStep s is = some t) :
    (∀ p ∈ heapPages, ∀ q ∈ heapPages, ∀ f, frameOf (t.pageTbl p) = some f →
      frameOf (t.pageTbl q) = some f → p = q) ∧
    (∀ p ∈ heapPages, ∀ f, frameOf (t.pageTbl p) = some f →
      heapFrameStart ≤ f ∧ f < heapFrameStart + heapFrameNum) ∧
    (∀ f, heapFrameStart ≤ f → f < heapFrameStart + heapFrameNum →
      (bit t.kfp.bitmap f = true ↔ ∃! p, p ∈ heapPages ∧ frameOf (t.pageTbl p) = some f)) ∧
    (∀ k < preallocFrameNum, bit t.kfp.bitmap k = bit s.kfp.bitmap k) ∧
    (∀ va, HeapAddr va → Absent (t.pageTbl (pteIdx va)) → (getFrame t.kfp).1 ≠ -1) := by
  have hacc := run_accounted h ht
  refine ⟨hacc.exact.inj, fun p hp f hf => Finset.mem_Ico.mp (hacc.exact.mem p hp f hf),
    fun f hlo hhi => hacc.exact.used_iff_existsUnique (Finset.mem_Ico.mpr ⟨hlo, hhi⟩),
    fun k hk => ?_, fun va hva habs => ?_⟩
  · have h1 : bit t.kfp.bitmap k = true := hacc.prealloc k hk
    have h2 : bit s.kfp.bitmap k = true := (start_accounted h).prealloc k hk
    rw [h1, h2]
  · obtain ⟨f, _, _, hres, _⟩ := getFrame_heap hacc (pteIdx_mem_heapPages hva) habs
    rw [hres]
    exact ne_of_gt (lt_of_lt_of_le (by decide) (Int.natCast_nonneg f))

theorem pageStep_fault {s : PageState} {va : ℕ} (hva : HeapAddr va)
    (habs : Absent (s.pageTbl (pteIdx va))) : pageStep s (.fault va) = some (handleFault s va) :=
  if_pos ⟨hva, habs⟩

theorem handleFault_other {s : PageState} {va : ℕ} {p : ℕ} (h : p ≠ pteIdx va) :
    (handleFault s va).pageTbl p = s.pageTbl p := Function.update_of_ne h _ _

theorem demand_paging_first_fault : (getFrame (handleFault bootPages 0xC4000000).kfp).1 ≠ -1 := by
  have hstart : Start bootPages := ⟨⟨_, rfl, rfl, by decide⟩, _, rfl⟩
  have habs : ∀ va, 0xC4000000 ≤ va → va < 0xC8000000 → bootPages.pageTbl (pteIdx va) = 0 := by
    intro va h1 h2
    rw [pteIdx_eq (by unfold size; omega)]
    exact initPageTbl_heap _ (by omega) (by omega)
  have hrun : Machine.exec pageStep bootPages [.fault 0xC4000000] =
      some (handleFault bootPages 0xC4000000) := by
    have hfirst := habs 0xC4000000 (by decide) (by decide)
    have hstep : pageStep bootPages (.fault 0xC4000000) = some (handleFault bootPages 0xC4000000) :=
      pageStep_fault (by decide) (by rw [hfirst]; exact absent_zero)
    simp only [Machine.exec_cons, hstep, Option.bind_some, Machine.exec_nil]
  refine (demand_paging_accounting hstart hrun).2.2.2.2 0xC4001000 (by decide) ?_
  have hne : pteIdx 0xC4001000 ≠ pteIdx 0xC4000000 := by decide
  rw [handleFault_other hne, habs _ (by decide) (by decide)]
  exact absent_zero

end Slos.DemandPaging
