import Slos.LinkedNodes
import Slos.PageTable

/-!
# The virtual memory pool

`init_vmpool`, `allocate` and `release` of `vm_pool.c`, which `kmalloc` and `kfree` call. Pointers
are addresses with `0` for `NULL`; `desc p` is the region descriptor stored at address `p`, and
`plast_region + 1` lies `sizeof(struct region_desc)` bytes above `plast_region`.
-/

namespace Slos
open Word LinkedNodes

structure RegionDesc where
  startAddr : ℕ
  size : ℕ
  next : ℕ
  prev : ℕ

structure VmPool where
  baseAddress : ℕ
  size : ℕ
  plastRegion : ℕ
  regionSizeTotal : ℕ

structure HeapState where
  pool : VmPool
  desc : ℕ → RegionDesc
  pages : PageState

def pageSize : ℕ := 4 * 1024

def sizeofRegionDesc : ℕ := 16

def ptr (p : ℕ) : Option ℕ := if p = 0 then none else some p

def nextDesc (desc : ℕ → RegionDesc) (p : ℕ) : Option ℕ := ptr (desc p).next

def prevDesc (desc : ℕ → RegionDesc) (p : ℕ) : Option ℕ := ptr (desc p).prev

def setNext (desc : ℕ → RegionDesc) (p v : ℕ) : ℕ → RegionDesc :=
  Function.update desc p { desc p with next := v }

def setPrev (desc : ℕ → RegionDesc) (p v : ℕ) : ℕ → RegionDesc :=
  Function.update desc p { desc p with prev := v }

/-- The `pgnum` of `allocate` and `release`. -/
def pgnum (size : ℕ) : ℕ := (size >>> 12) + if size &&& 0xFFF = 0 then 0 else 1

def initVmpool (desc : ℕ → RegionDesc) (pages : PageState) (baseAddress size : ℕ) : HeapState where
  pool :=
    { baseAddress := baseAddress
      size := size
      plastRegion := baseAddress
      regionSizeTotal := pageSize }
  desc := Function.update desc baseAddress
    { startAddr := baseAddress, size := pageSize, next := 0, prev := 0 }
  pages := pages

/-- `while (plast_region->next) plast_region = plast_region->next`, from the base descriptor. -/
def walkToLast (s : HeapState) : ℕ := lastOf (nextDesc s.desc) Word.size s.pool.baseAddress

/-- The descriptor writes of `allocate`. -/
def appendDesc (desc : ℕ → RegionDesc) (plast pnew startAddr size : ℕ) : ℕ → RegionDesc :=
  Function.update (setNext desc plast pnew) pnew
    { startAddr := startAddr, size := size, next := 0, prev := plast }

def allocate (s : HeapState) (size : ℕ) : ℕ × HeapState :=
  let plast := if s.pool.plastRegion = 0 then walkToLast s else s.pool.plastRegion
  let pnew := u32 (plast + sizeofRegionDesc)
  let startAddr := u32 (s.pool.baseAddress + s.pool.regionSizeTotal)
  (startAddr,
    { pool :=
        { s.pool with
          plastRegion := pnew
          regionSizeTotal := u32 (s.pool.regionSizeTotal + u32 (pageSize * pgnum size)) }
      desc := appendDesc s.desc plast pnew startAddr size
      pages := s.pages })

/-- The descriptor writes of `release` that take `pcur` out of the list. -/
def unlinkDesc (desc : ℕ → RegionDesc) (pcur : ℕ) : ℕ → RegionDesc :=
  let before := setNext desc (desc pcur).prev (desc pcur).next
  if (before pcur).next = 0 then before
  else setPrev before (before pcur).next (before pcur).prev

/-- The end of the page table of the kernel, above its image and its stacks. -/
def kernelEnd : ℕ := kernPgtStartBase + 4 * 1024 * 1024

/-- What the kernel cannot go on without: its image, stacks and page tables, the registers of the
interrupt controller and the timer, and the page of the region descriptors. -/
def InUse (base page : ℕ) : Prop :=
  page * pageSize < kernelEnd ∨ page = 0xF8F00 ∨ page = 0xF8F01 ∨
    (base < (page + 1) * pageSize ∧ page * pageSize < base + pageSize)

instance (base page : ℕ) : Decidable (InUse base page) := inferInstanceAs (Decidable (_ ∨ _))

/-- No page of a region is in use by the kernel. -/
def KeepsOff (base start size : ℕ) : Prop :=
  ∀ i < pgnum size, ¬ InUse base (pteIdx (u32 (start + pageSize * i)))

instance (base start size : ℕ) : Decidable (KeepsOff base start size) :=
  inferInstanceAs (Decidable (∀ i < _, _))

def freePages (pages : PageState) (start n : ℕ) : PageState :=
  (List.range n).foldl (fun p i => freePage p (u32 (start + pageSize * i))) pages

/-- The branch of `release` for the descriptor it finds. -/
def releaseRegion (s : HeapState) (startAddress pcur : ℕ) : HeapState :=
  let n := pgnum (s.desc pcur).size
  { pool := { s.pool with regionSizeTotal := usub s.pool.regionSizeTotal (u32 (n * pageSize)) }
    desc := unlinkDesc s.desc pcur
    pages := freePages s.pages startAddress n }

/-- The end of `release`, which looks for the last region again when `plast_region` is gone. -/
def resetLast (s : HeapState) (startAddress : ℕ) : HeapState :=
  if (s.desc s.pool.plastRegion).startAddr = startAddress then
    { s with pool := { s.pool with plastRegion := walkToLast s } }
  else s

/-- `free_page` clears any entry of the page table. Where the region covers a page in use, the call
unmaps what it runs on or the list that it walks, and there is no state behind it. -/
def release (s : HeapState) (startAddress : ℕ) : Option HeapState :=
  match findFrom (nextDesc s.desc) (fun p => (s.desc p).startAddr == startAddress) Word.size
      s.pool.baseAddress with
  | none => some (resetLast s startAddress)
  | some pcur =>
      if KeepsOff s.pool.baseAddress startAddress (s.desc pcur).size then
        some (resetLast (releaseRegion s startAddress pcur) startAddress)
      else none

theorem pgnum_eq (size : ℕ) : pgnum size = (size + 4095) / 4096 := by
  have hmask : size &&& 0xFFF = size % 2 ^ 12 := Nat.and_two_pow_sub_one_eq_mod size 12
  rw [pgnum, hmask, Nat.shiftRight_eq_div_pow]
  split_ifs <;> omega

theorem extent_le {size n : ℕ} (h : n < pgnum size) : pageSize * n + pageSize ≤ pageSize * pgnum size := by
  unfold pageSize
  omega

/-- The pages behind the descriptors and below the interrupt controller are not in use. -/
theorem keepsOff_of_inside {base start size : ℕ} (hlow : kernelEnd ≤ base) (halign : base % pageSize = 0)
    (hlo : base + pageSize ≤ start) (hhi : start + pageSize * pgnum size ≤ 0xF8F00000) :
    KeepsOff base start size := by
  intro i hi hused
  have hle := extent_le hi
  have haddr : start + pageSize * i < Word.size := by
    unfold pageSize at *
    unfold Word.size
    omega
  rw [u32_of_lt haddr, pteIdx_eq haddr] at hused
  unfold InUse pageSize at *
  omega

theorem ptr_of_ne_zero {p : ℕ} (h : p ≠ 0) : ptr p = some p := if_neg h

@[simp] theorem ptr_zero : ptr 0 = none := rfl

theorem ptr_eq_some {p q : ℕ} : ptr p = some q ↔ p = q ∧ q ≠ 0 := by
  unfold ptr
  split_ifs with h
  · simp only [false_iff]
    rintro ⟨rfl, hq⟩
    exact hq h
  · simp only [Option.some.injEq]
    exact ⟨fun he => ⟨he, he ▸ h⟩, And.left⟩

theorem setNext_apply (desc : ℕ → RegionDesc) (p v q : ℕ) :
    setNext desc p v q = if q = p then { desc q with next := v } else desc q := by
  unfold setNext
  rw [Function.update_apply]
  split_ifs with h
  · rw [h]
  · rfl

theorem setPrev_apply (desc : ℕ → RegionDesc) (p v q : ℕ) :
    setPrev desc p v q = if q = p then { desc q with prev := v } else desc q := by
  unfold setPrev
  rw [Function.update_apply]
  split_ifs with h
  · rw [h]
  · rfl

@[simp] theorem setNext_startAddr (desc : ℕ → RegionDesc) (p v q : ℕ) :
    (setNext desc p v q).startAddr = (desc q).startAddr := by
  rw [setNext_apply]
  split_ifs <;> rfl

@[simp] theorem setNext_size (desc : ℕ → RegionDesc) (p v q : ℕ) :
    (setNext desc p v q).size = (desc q).size := by
  rw [setNext_apply]
  split_ifs <;> rfl

@[simp] theorem setNext_prev (desc : ℕ → RegionDesc) (p v q : ℕ) :
    (setNext desc p v q).prev = (desc q).prev := by
  rw [setNext_apply]
  split_ifs <;> rfl

@[simp] theorem setPrev_startAddr (desc : ℕ → RegionDesc) (p v q : ℕ) :
    (setPrev desc p v q).startAddr = (desc q).startAddr := by
  rw [setPrev_apply]
  split_ifs <;> rfl

@[simp] theorem setPrev_size (desc : ℕ → RegionDesc) (p v q : ℕ) :
    (setPrev desc p v q).size = (desc q).size := by
  rw [setPrev_apply]
  split_ifs <;> rfl

@[simp] theorem setPrev_next (desc : ℕ → RegionDesc) (p v q : ℕ) :
    (setPrev desc p v q).next = (desc q).next := by
  rw [setPrev_apply]
  split_ifs <;> rfl

section
variable (desc : ℕ → RegionDesc) {plast pnew : ℕ} (startAddr size : ℕ)

@[simp] theorem appendDesc_new : appendDesc desc plast pnew startAddr size pnew =
    { startAddr := startAddr, size := size, next := 0, prev := plast } := Function.update_self ..

theorem appendDesc_last (h : plast ≠ pnew) :
    appendDesc desc plast pnew startAddr size plast = { desc plast with next := pnew } := by
  rw [appendDesc, Function.update_of_ne h, setNext_apply, if_pos rfl]

theorem appendDesc_of_ne {q : ℕ} (hnew : q ≠ pnew) (hlast : q ≠ plast) :
    appendDesc desc plast pnew startAddr size q = desc q := by
  rw [appendDesc, Function.update_of_ne hnew, setNext_apply, if_neg hlast]

/-- The descriptors already in the list keep their region and their back pointer. -/
theorem appendDesc_old {q : ℕ} (hnew : q ≠ pnew) :
    (appendDesc desc plast pnew startAddr size q).startAddr = (desc q).startAddr ∧
      (appendDesc desc plast pnew startAddr size q).size = (desc q).size ∧
      (appendDesc desc plast pnew startAddr size q).prev = (desc q).prev := by
  rw [appendDesc, Function.update_of_ne hnew]
  exact ⟨setNext_startAddr .., setNext_size .., setNext_prev ..⟩

end

/-- Unlinking changes no start address. -/
@[simp] theorem unlinkDesc_startAddr (desc : ℕ → RegionDesc) (p q : ℕ) :
    (unlinkDesc desc p q).startAddr = (desc q).startAddr := by
  unfold unlinkDesc
  split_ifs <;> simp

@[simp] theorem unlinkDesc_size (desc : ℕ → RegionDesc) (p q : ℕ) :
    (unlinkDesc desc p q).size = (desc q).size := by
  unfold unlinkDesc
  split_ifs <;> simp

/-- Away from itself, unlinking `p` redirects the `next` of the descriptor before it. -/
theorem unlinkDesc_next {desc : ℕ → RegionDesc} {p : ℕ} (hp : (desc p).prev ≠ p) (q : ℕ) :
    (unlinkDesc desc p q).next = if q = (desc p).prev then (desc p).next else (desc q).next := by
  have hnext : (setNext desc (desc p).prev (desc p).next p).next = (desc p).next := by
    rw [setNext_apply, if_neg (Ne.symm hp)]
  unfold unlinkDesc
  rw [hnext]
  split_ifs with h0 hq hq <;> simp [setNext_apply, hq]

theorem unlinkDesc_prev {desc : ℕ → RegionDesc} {p : ℕ} (hp : (desc p).prev ≠ p) (q : ℕ)
    (hq0 : q ≠ 0) :
    (unlinkDesc desc p q).prev = if q = (desc p).next then (desc p).prev else (desc q).prev := by
  have hnext : (setNext desc (desc p).prev (desc p).next p).next = (desc p).next := by
    rw [setNext_apply, if_neg (Ne.symm hp)]
  unfold unlinkDesc
  rw [hnext]
  split_ifs with h0 hq hq
  · exact absurd (hq.trans h0) hq0
  · simp
  · rw [setPrev_apply, if_pos hq]
    simp
  · rw [setPrev_apply, if_neg hq]
    simp

end Slos
