import Slos.DemandPaging

/-!
# The page map after boot

`init_pgt` fills one page directory and one table of a million entries by counted loops. `walk` is the two-level walk
of the short descriptor format, on the memory that holds both, and `addressMap` the map the comment in `init_pgt`
describes. The last loop that writes an entry decides it.
-/

namespace Slos.PageMap
open Word

structure Fill where
  start : ℕ
  count : ℕ
  entry : ℕ → ℕ

namespace Fill

def run (t : ℕ → ℕ) (l : Fill) : ℕ → ℕ := writeLoop t l.start l.count l.entry

def Writes (l : Fill) (k : ℕ) : Prop := l.start ≤ k ∧ k < l.start + l.count

instance (l : Fill) (k : ℕ) : Decidable (l.Writes k) := inferInstanceAs (Decidable (_ ∧ _))

variable {l : Fill} {ls : List Fill} {k : ℕ}

theorem run_of_writes (t : ℕ → ℕ) (h : l.Writes k) : l.run t k = l.entry (k - l.start) :=
  writeLoop_of_mem h.1 h.2

theorem run_of_not_writes (t : ℕ → ℕ) (h : ¬ l.Writes k) : l.run t k = t k := by
  apply writeLoop_of_not_mem
  unfold Writes at h
  omega

theorem foldl_of_not_writes (t : ℕ → ℕ) (h : ∀ l ∈ ls, ¬ l.Writes k) :
    ls.foldl (fun t l => l.run t) t k = t k := by
  induction ls generalizing t with
  | nil => rfl
  | cons l ls ih =>
    rw [List.foldl_cons, ih _ fun l' hl' => h l' (List.mem_cons_of_mem _ hl')]
    exact run_of_not_writes t (h l List.mem_cons_self)

/-- The last loop that writes an entry decides it. -/
theorem foldl_of_last (t : ℕ → ℕ) (i : ℕ) (hl : ls[i]? = some l) (hw : l.Writes k)
    (h : ∀ l' ∈ ls.drop (i + 1), ¬ l'.Writes k) :
    ls.foldl (fun t l => l.run t) t k = l.entry (k - l.start) := by
  obtain ⟨hi, hget⟩ := List.getElem?_eq_some_iff.mp hl
  have hsplit : ls = ls.take i ++ l :: ls.drop (i + 1) := by
    rw [← hget, ← List.drop_eq_getElem_cons hi, List.take_append_drop]
  rw [hsplit, List.foldl_append, List.foldl_cons, foldl_of_not_writes _ h]
  exact run_of_writes _ hw

end Fill

/-- What the walk finds for an address. -/
inductive Mapping
  | unmapped
  | page (frame attr : ℕ)
  | largePage (pte : ℕ)
  | wholeSection (pde : ℕ)
  deriving DecidableEq

/-- The walk of a memory of words. -/
def walk (mem : ℕ → ℕ) (ttb va : ℕ) : Mapping :=
  let pde := mem ((ttb + pgdIdx va * 4) / 4)
  if pde &&& 0x3 = 0x1 then
    let pte := mem ((pde >>> 10 <<< 10 + pgtIdx va * 4) / 4)
    if pte &&& 0x3 = 0x0 then .unmapped
    else if pte &&& 0x3 = 0x1 then .largePage pte
    else .page (pte >>> 12) (pte &&& 0xFFF)
  else if pde &&& 0x3 = 0x2 then .wholeSection pde
  else .unmapped

/-- `init_pgt` on the whole memory. -/
def initPgt (mem : ℕ → ℕ) : ℕ → ℕ :=
  let ppageDir := initPageDir fun i => mem (kernPgdStartBase / 4 + i)
  let ppageTbl := initPageTbl fun i => mem (kernPgtStartBase / 4 + i)
  fun w =>
    if kernPgdStartBase / 4 ≤ w ∧ w < kernPgdStartBase / 4 + 4 * 1024 then ppageDir (w - kernPgdStartBase / 4)
    else if kernPgtStartBase / 4 ≤ w ∧ w < kernPgtStartBase / 4 + 1024 * 4 * 256 then
      ppageTbl (w - kernPgtStartBase / 4)
    else mem w

/-- The map of the comment in `init_pgt`, with the heap left out. -/
def addressMap (va : ℕ) : Mapping :=
  if va < 0x40000000 then .page (va / 4096) 0x47E
  else if va < 0xC0000000 then .page (va / 4096) 0x476
  else if DemandPaging.HeapAddr va then .unmapped
  else if va < 0xE0000000 then .page ((va - 0xC0000000) / 4096) 0x47E
  else if va < 0xE0300000 then .page (va / 4096) 0x436
  else if va < 0xE1000000 then .unmapped
  else .page (va / 4096) 0x432

/-- The loops over the page table. -/
def tblFills : List Fill :=
  [ ⟨0, 1024 * 4 * 256, fun _ => 0⟩,
    ⟨0, 1024 * 256, fun k => u32 (k * 4096) ||| 0x47E⟩,
    ⟨0, 1024 * 3 * 256, fun k => u32 (k * 4096) ||| 0x476⟩,
    ⟨0xC00 * 256, 0x20000, fun j => u32 (j * 4096) ||| 0x47E⟩,
    ⟨0xE00 * 256, 0x300, fun j => u32 (0xE0000000 + j * 4096) ||| 0x436⟩,
    ⟨0xE10 * 256, 0x1F000, fun j => u32 (0xE1000000 + j * 4096) ||| 0x432⟩,
    ⟨0xC4000, 64 * 256, fun _ => 0⟩ ]

/-- The loop whose range an address is in; what no range has is left to the first one. -/
def ownFill (va : ℕ) : ℕ :=
  if va < 0x40000000 then 1
  else if va < 0xC0000000 then 2
  else if DemandPaging.HeapAddr va then 6
  else if va < 0xE0000000 then 3
  else if va < 0xE0300000 then 4
  else if va < 0xE1000000 then 0
  else 5

structure Right (mem : ℕ → ℕ) (va : ℕ) : Prop where
  walk : walk (initPgt mem) kernPgdStartBase va = addressMap va
  heap : DemandPaging.HeapAddr va → initPgt mem (kernPgtStartBase / 4 + pteIdx va) = 0
  kept : ∀ l ∈ tblFills.drop (ownFill va + 1), ¬ l.Writes (pteIdx va)

theorem foldl_fills (t : ℕ → ℕ) (a b c d e f g : Fill) : [a, b, c, d, e, f, g].foldl (fun t l => l.run t) t =
    g.run (f.run (e.run (d.run (c.run (b.run (a.run t)))))) := rfl

theorem initPageTbl_eq (t : ℕ → ℕ) : initPageTbl t = tblFills.foldl (fun t l => l.run t) t := by
  rw [tblFills, foldl_fills]
  rfl

theorem initPgt_tbl (mem : ℕ → ℕ) {k : ℕ} (hk : k < 2 ^ 20) :
    initPgt mem (kernPgtStartBase / 4 + k) = initPageTbl (fun i => mem (kernPgtStartBase / 4 + i)) k := by
  have hdir : kernPgdStartBase / 4 = 0x100000 := rfl
  have htbl : kernPgtStartBase / 4 = 0x101000 := rfl
  unfold initPgt
  simp only [hdir, htbl]
  rw [if_neg (by omega), if_pos (by omega), Nat.add_sub_cancel_left]

theorem initPgt_dir (mem : ℕ → ℕ) {i : ℕ} (hi : i < 4096) : initPgt mem ((kernPgdStartBase + i * 4) / 4) =
    if 0xC40 ≤ i ∧ i < 0xC80 then 0 else (i + 0x1010) * 1024 ||| 0x1E1 := by
  have hdir : kernPgdStartBase / 4 = 0x100000 := rfl
  have hword : (kernPgdStartBase + i * 4) / 4 = 0x100000 + i := by
    unfold kernPgdStartBase
    omega
  have hbase : u32 (kernPgtStartBase + i * 1024) = (i + 0x1010) * 1024 := by
    unfold u32 kernPgtStartBase size
    omega
  unfold initPgt initPageDir
  simp only [hword, hdir, writeLoop_apply, Nat.sub_zero, Nat.add_sub_cancel_left]
  rw [if_pos (by omega)]
  by_cases hheap : 0xC40 ≤ i ∧ i < 0xC80
  · rw [if_pos (by omega), if_pos hheap]
  · rw [if_neg (by omega), if_pos (by omega), if_neg hheap, hbase]

section Entries

variable (x : ℕ) {a : ℕ}

theorem or_attr (ha : a < 2 ^ 12) : x * 4096 ||| a = x * 4096 + a := by
  rw [Nat.mul_comm]
  exact (Nat.two_pow_add_eq_or_of_lt ha x).symm

theorem or_pde : x * 1024 ||| 0x1E1 = x * 1024 + 0x1E1 := by
  rw [Nat.mul_comm]
  exact (Nat.two_pow_add_eq_or_of_lt (i := 10) (by decide) x).symm

end Entries

section Walk

variable (mem : ℕ → ℕ) {va : ℕ}

/-- Away from the heap the directory leads to the entry of the page. -/
theorem walk_entry (hva : va < size) (hheap : ¬ DemandPaging.HeapAddr va) {pte : ℕ}
    (hpte : initPgt mem (kernPgtStartBase / 4 + va / 4096) = pte) :
    walk (initPgt mem) kernPgdStartBase va =
      if pte &&& 0x3 = 0x0 then .unmapped else if pte &&& 0x3 = 0x1 then .largePage pte
      else .page (pte >>> 12) (pte &&& 0xFFF) := by
  have hi : pgdIdx va < 4096 := by
    rw [pgdIdx_eq hva]
    unfold size at hva
    omega
  have hpde : initPgt mem ((kernPgdStartBase + pgdIdx va * 4) / 4) = (pgdIdx va + 0x1010) * 1024 + 0x1E1 := by
    rw [initPgt_dir mem hi, if_neg, or_pde]
    rw [pgdIdx_eq hva]
    unfold DemandPaging.HeapAddr kernelHeapEnd kernelHeapStart kernelHeapSize at hheap
    omega
  have hkind : ((pgdIdx va + 0x1010) * 1024 + 0x1E1) &&& 0x3 = 0x1 := by
    rw [show 0x3 = 2 ^ 2 - 1 from rfl, Nat.and_two_pow_sub_one_eq_mod]
    omega
  have hword : (((pgdIdx va + 0x1010) * 1024 + 0x1E1) >>> 10 <<< 10 + pgtIdx va * 4) / 4 =
      kernPgtStartBase / 4 + va / 4096 := by
    rw [Nat.shiftRight_eq_div_pow, Nat.shiftLeft_eq, pgdIdx_eq hva, pgtIdx_eq]
    unfold kernPgtStartBase
    omega
  unfold walk
  simp only [hpde, hkind, hword, hpte, if_true]

theorem walk_page (hva : va < size) (hheap : ¬ DemandPaging.HeapAddr va) {frame attr : ℕ} (hattr : attr < 2 ^ 12)
    (hsmall : 2 ≤ attr % 4) (hpte : initPgt mem (kernPgtStartBase / 4 + va / 4096) = frame * 4096 ||| attr) :
    walk (initPgt mem) kernPgdStartBase va = .page frame attr := by
  have hlow : (frame * 4096 ||| attr) &&& 0x3 = attr % 4 := by
    rw [or_attr _ hattr, show 0x3 = 2 ^ 2 - 1 from rfl, Nat.and_two_pow_sub_one_eq_mod]
    omega
  have hbits : (frame * 4096 ||| attr) &&& 0xFFF = attr := by
    rw [or_attr _ hattr, show 0xFFF = 2 ^ 12 - 1 from rfl, Nat.and_two_pow_sub_one_eq_mod]
    omega
  have hframe : (frame * 4096 ||| attr) >>> 12 = frame := or_low_shiftRight frame hattr
  rw [walk_entry mem hva hheap hpte, hlow, hbits, hframe, if_neg (by omega), if_neg (by omega)]

theorem walk_zero (hva : va < size) (hheap : ¬ DemandPaging.HeapAddr va)
    (hpte : initPgt mem (kernPgtStartBase / 4 + va / 4096) = 0) :
    walk (initPgt mem) kernPgdStartBase va = .unmapped := by
  rw [walk_entry mem hva hheap hpte]
  rfl

/-- The directory has no entry for the heap. -/
theorem walk_heap (hheap : DemandPaging.HeapAddr va) : walk (initPgt mem) kernPgdStartBase va = .unmapped := by
  unfold DemandPaging.HeapAddr kernelHeapEnd kernelHeapStart kernelHeapSize at hheap
  have hva : va < size := by
    unfold size
    omega
  have hpde : initPgt mem ((kernPgdStartBase + pgdIdx va * 4) / 4) = 0 := by
    rw [initPgt_dir mem (by rw [pgdIdx_eq hva]; omega), if_pos]
    rw [pgdIdx_eq hva]
    omega
  unfold walk
  simp [hpde]

/-- The entry that the last loop to write it leaves. -/
theorem entry_of_last (hva : va < size) {l : Fill} (i : ℕ) (hl : tblFills[i]? = some l) (hw : l.Writes (va / 4096))
    (h : ∀ l' ∈ tblFills.drop (i + 1), ¬ l'.Writes (va / 4096)) :
    initPgt mem (kernPgtStartBase / 4 + va / 4096) = l.entry (va / 4096 - l.start) := by
  rw [initPgt_tbl mem (by unfold size at hva; omega), initPageTbl_eq]
  exact Fill.foldl_of_last _ i hl hw h

theorem kept_of_ge (hva : va < size) (h : 0x40000000 ≤ va) :
    ∀ l ∈ tblFills.drop (ownFill va + 1), ¬ l.Writes (va / 4096) := by
  unfold size at hva
  have hheap : DemandPaging.HeapAddr va ↔ 0xC4000000 ≤ va ∧ va < 0xC8000000 := Iff.rfl
  simp only [ownFill, hheap]
  split_ifs <;> simp [tblFills, Fill.Writes] <;> omega

theorem walk_own (hva : va < size) (h : 0x40000000 ≤ va) (hheap : ¬ DemandPaging.HeapAddr va) {i : ℕ} {l : Fill}
    (hown : ownFill va = i) (hl : tblFills[i]? = some l) (hw : l.Writes (va / 4096)) {frame attr : ℕ}
    (hattr : attr < 2 ^ 12) (hsmall : 2 ≤ attr % 4) (hval : l.entry (va / 4096 - l.start) = frame * 4096 ||| attr) :
    walk (initPgt mem) kernPgdStartBase va = .page frame attr := by
  apply walk_page mem hva hheap hattr hsmall
  rw [entry_of_last mem hva i hl hw (hown ▸ kept_of_ge hva h), hval]

/-- From 0x40000000 on the walk gives what the comment says. -/
theorem walk_of_ge (hva : va < size) (h : 0x40000000 ≤ va) :
    walk (initPgt mem) kernPgdStartBase va = addressMap va := by
  have hlt := hva
  unfold size at hlt
  have h1 : ¬ va < 0x40000000 := not_lt.mpr h
  rw [addressMap, if_neg h1]
  by_cases h2 : va < 0xC0000000
  · have hheap : ¬ DemandPaging.HeapAddr va := fun hh => absurd hh.1 (by unfold kernelHeapStart; omega)
    rw [if_pos h2]
    apply walk_own mem hva h hheap (by rw [ownFill, if_neg h1, if_pos h2]) rfl (by simp only [Fill.Writes]; omega)
      (by decide) (by decide)
    simp only [Nat.sub_zero]
    rw [u32_of_lt (by unfold size; omega)]
  rw [if_neg h2]
  by_cases h3 : DemandPaging.HeapAddr va
  · rw [if_pos h3, walk_heap mem h3]
  rw [if_neg h3]
  by_cases h4 : va < 0xE0000000
  · rw [if_pos h4]
    apply walk_own mem hva h h3 (by rw [ownFill, if_neg h1, if_neg h2, if_neg h3, if_pos h4]) rfl
      (by simp only [Fill.Writes]; omega) (by decide) (by decide)
    have hframe : va / 4096 - 0xC00 * 256 = (va - 0xC0000000) / 4096 := by omega
    simp only [hframe]
    rw [u32_of_lt (by unfold size; omega)]
  rw [if_neg h4]
  by_cases h5 : va < 0xE0300000
  · rw [if_pos h5]
    apply walk_own mem hva h h3 (by rw [ownFill, if_neg h1, if_neg h2, if_neg h3, if_neg h4, if_pos h5]) rfl
      (by simp only [Fill.Writes]; omega) (by decide) (by decide)
    have hframe : 0xE0000000 + (va / 4096 - 0xE00 * 256) * 4096 = va / 4096 * 4096 := by omega
    simp only [hframe]
    rw [u32_of_lt (by unfold size; omega)]
  rw [if_neg h5]
  by_cases h6 : va < 0xE1000000
  · rw [if_pos h6]
    have hown : ownFill va = 0 := by rw [ownFill, if_neg h1, if_neg h2, if_neg h3, if_neg h4, if_neg h5, if_pos h6]
    apply walk_zero mem hva h3
    exact entry_of_last mem hva 0 rfl (by simp only [Fill.Writes]; omega) (hown ▸ kept_of_ge hva h)
  · rw [if_neg h6]
    apply walk_own mem hva h h3 (by rw [ownFill, if_neg h1, if_neg h2, if_neg h3, if_neg h4, if_neg h5, if_neg h6]) rfl
      (by simp only [Fill.Writes]; omega) (by decide) (by decide)
    have hframe : 0xE1000000 + (va / 4096 - 0xE10 * 256) * 4096 = va / 4096 * 4096 := by omega
    simp only [hframe]
    rw [u32_of_lt (by unfold size; omega)]

theorem heap_entry (hheap : DemandPaging.HeapAddr va) : initPgt mem (kernPgtStartBase / 4 + va / 4096) = 0 := by
  unfold DemandPaging.HeapAddr kernelHeapEnd kernelHeapStart kernelHeapSize at hheap
  rw [initPgt_tbl mem (by omega)]
  exact initPageTbl_heap _ (by omega) (by omega)

/-- The RAM gets the attributes of the AXI ports. -/
theorem walk_ram (h : va < 0x40000000) :
    walk (initPgt mem) kernPgdStartBase va = .page (va / 4096) 0x476 := by
  have hva : va < size := by
    unfold size
    omega
  have hheap : ¬ DemandPaging.HeapAddr va := fun hh => absurd hh.1 (by unfold kernelHeapStart; omega)
  apply walk_page mem hva hheap (by decide) (by decide)
  rw [entry_of_last mem hva 2 rfl (by simp only [Fill.Writes]; omega) (by simp [tblFills, Fill.Writes]; omega)]
  simp only [Nat.sub_zero]
  rw [u32_of_lt (by unfold size; omega)]

end Walk

/-- The map is right, and the loop of an address's own range the last to write its entry, exactly above the RAM: there
the loop of the AXI ports starts over at entry 0. -/
theorem page_map_iff (mem : ℕ → ℕ) (va : Fin size) : Right mem va ↔ 0x40000000 ≤ (va : ℕ) := by
  obtain ⟨va, hva⟩ := va
  have hidx : pteIdx va = va / 4096 := pteIdx_eq hva
  constructor
  · intro h
    by_contra hge
    have hlt : va < 0x40000000 := not_le.mp hge
    have hkept := h.kept
    rw [ownFill, if_pos hlt] at hkept
    have haxi : (⟨0, 1024 * 3 * 256, fun k => u32 (k * 4096) ||| 0x476⟩ : Fill) ∈ tblFills.drop 2 :=
      List.mem_cons_self
    apply hkept _ haxi
    simp only [Fill.Writes, hidx]
    omega
  · intro h
    constructor
    · exact walk_of_ge mem hva h
    · intro hheap
      rw [hidx]
      exact heap_entry mem hheap
    · rw [hidx]
      exact kept_of_ge hva h

/-- The kernel's code, in the RAM, is mapped as not cacheable. -/
theorem ram_not_cacheable : walk (initPgt fun _ => 0) kernPgdStartBase 0x100000 = .page 0x100 0x476 ∧
    addressMap 0x100000 = .page 0x100 0x47E ∧ ¬ Right (fun _ => 0) 0x100000 := by
  have hwalk : walk (initPgt fun _ => 0) kernPgdStartBase 0x100000 = .page 0x100 0x476 :=
    walk_ram (fun _ => 0) (by decide)
  refine ⟨hwalk, rfl, fun h => ?_⟩
  have hmap := h.walk
  rw [hwalk] at hmap
  exact absurd hmap (by decide)

end Slos.PageMap
