import Slos.HeapRegions

/-!
# The list of region descriptors

The list that `allocate` and `release` keep in the descriptor page, for requests of any size and releases of any address,
also where regions overlap, addresses wrap and several regions have one start address. `allocate` puts the new descriptor
behind the last one in memory, and `release` looks for the last one again when the one it has unlinked was the last; so the
list stays ordered by address whichever descriptors go. A region may wrap over low memory, though, and `release` unmaps its
pages without looking at them: where the kernel or the descriptors stand in one of them, it does not come to an end.
-/

namespace Slos.RegionList
open Word LinkedNodes HeapRegions

/-- Any request whose descriptor fits into the descriptor page, and the release of any address but that of the base region. -/
def Admitted (s : HeapRun) : HeapStep → Prop
  | .alloc n => n < size ∧ s.heap.pool.plastRegion + 2 * sizeofRegionDesc ≤ s.heap.pool.baseAddress + pageSize
  | .free a => a < size ∧ a ≠ s.heap.pool.baseAddress

instance (s : HeapRun) : ∀ i, Decidable (Admitted s i)
  | .alloc _ => inferInstanceAs (Decidable (_ ∧ _))
  | .free _ => inferInstanceAs (Decidable (_ ∧ _))

def call (s : HeapRun) : HeapStep → Option HeapRun
  | .alloc n => some ⟨(allocate s.heap n).2, s.live ++ [⟨(allocate s.heap n).1, n⟩]⟩
  | .free a => (release s.heap a).map fun h => ⟨h, s.live.eraseP (·.start == a)⟩

def step (s : HeapRun) (i : HeapStep) : Option HeapRun := if Admitted s i then call s i else none

/-- What one call does to the list `ds` of the descriptors behind the base one. -/
def StepLaw (base : ℕ) (s t : HeapState) (ds : List ℕ) : HeapStep → Prop
  | .alloc n => ∃ d, Chain base t (ds ++ [d]) ∧ regionAt t.desc d = ⟨(allocate s n).1, n⟩ ∧
      ∀ q, q ≠ d → regionAt t.desc q = regionAt s.desc q
  | .free a => Chain base t (ds.eraseP fun d => (s.desc d).startAddr == a) ∧
      (∀ q, regionAt t.desc q = regionAt s.desc q) ∧ ((∀ d ∈ ds, (s.desc d).startAddr ≠ a) → t = s)

/-- The region that is released, the oldest of those that start at the address, covers no page in use by the kernel. -/
def ReleasesOff (base : ℕ) (s : HeapRun) : HeapStep → Prop
  | .alloc _ => True
  | .free a => ∀ r ∈ s.live.find? (·.start == a), KeepsOff base r.start r.size

instance (base : ℕ) (s : HeapRun) : ∀ i, Decidable (ReleasesOff base s i)
  | .alloc _ => isTrue trivial
  | .free _ => inferInstanceAs (Decidable (∀ r ∈ List.find? _ _, _))

/-- The descriptors behind the base one are `ds`, those of the live regions. -/
structure Listed (base : ℕ) (s : HeapRun) (ds : List ℕ) : Prop where
  baseEq : s.heap.pool.baseAddress = base
  baseStart : (s.heap.desc base).startAddr = base
  basePrev : prevDesc s.heap.desc base = none
  chain : Chain base s.heap ds
  live : s.live = ds.map (regionAt s.heap.desc)

def start (desc : ℕ → RegionDesc) (pages : PageState) (base n : ℕ) : HeapRun := ⟨initVmpool desc pages base n, []⟩

variable {base n a : ℕ} {s : HeapRun} {t : HeapState} {ds : List ℕ}

theorem start_listed (desc : ℕ → RegionDesc) (pages : PageState) (n : ℕ) (hpos : 0 < base) (hbase : base < size) :
    Listed base (start desc pages base n) [] := by
  have hself : (initVmpool desc pages base n).desc base =
      { startAddr := base, size := pageSize, next := 0, prev := 0 } := Function.update_self ..
  obtain ⟨ds, hds, hlive⟩ := (init_linked desc pages n hpos hbase).chain
  obtain rfl : ds = [] := List.map_eq_nil_iff.mp hlive.symm
  refine ⟨rfl, ?_, ?_, hds, rfl⟩
  · rw [start, hself]
  · rw [start, prevDesc, hself, ptr_zero]

/-- The new descriptor follows the last one. -/
theorem Listed.alloc (hpos : 0 < base) (hpage : base + pageSize ≤ size) (h : Listed base s ds)
    (hfits : s.heap.pool.plastRegion + 2 * sizeofRegionDesc ≤ base + pageSize) :
    StepLaw base s.heap (allocate s.heap n).2 ds (.alloc n) ∧
      Listed base ⟨(allocate s.heap n).2, s.live ++ [⟨(allocate s.heap n).1, n⟩]⟩ (ds ++ [s.heap.pool.plastRegion + 16]) := by
  have hplast : 0 < s.heap.pool.plastRegion := hpos.trans_le (h.chain.le_last base List.mem_cons_self)
  have hroom : s.heap.pool.plastRegion + 16 < size := by
    unfold sizeofRegionDesc at hfits
    omega
  have hnew : u32 (s.heap.pool.plastRegion + sizeofRegionDesc) = s.heap.pool.plastRegion + 16 := u32_of_lt hroom
  have hdesc : (allocate s.heap n).2.desc =
      appendDesc s.heap.desc s.heap.pool.plastRegion (s.heap.pool.plastRegion + 16) (allocate s.heap n).1 n := by
    simp only [allocate, if_neg hplast.ne', hnew]
  have hlast : (allocate s.heap n).2.pool.plastRegion = s.heap.pool.plastRegion + 16 := by
    simp only [allocate, if_neg hplast.ne', hnew]
  obtain ⟨hchain, hmap, hstart⟩ := h.chain.append hplast hroom hdesc hlast
  have hold (q : ℕ) (hq : q ≠ s.heap.pool.plastRegion + 16) :
      ((allocate s.heap n).2.desc q).startAddr = (s.heap.desc q).startAddr ∧
        ((allocate s.heap n).2.desc q).size = (s.heap.desc q).size ∧
        ((allocate s.heap n).2.desc q).prev = (s.heap.desc q).prev := by
    rw [hdesc]
    exact appendDesc_old s.heap.desc (allocate s.heap n).1 n hq
  have hbase : base ≠ s.heap.pool.plastRegion + 16 := by
    have hle := h.chain.le_last base List.mem_cons_self
    omega
  refine ⟨⟨s.heap.pool.plastRegion + 16, hchain, ?_, fun q hq => ?_⟩, h.baseEq, ?_, ?_, hchain, ?_⟩
  · rw [hdesc, regionAt, appendDesc_new]
  · rw [regionAt, (hold q hq).1, (hold q hq).2.1]
    rfl
  · exact (hstart base List.mem_cons_self).trans h.baseStart
  · rw [prevDesc, (hold base hbase).2.2]
    exact h.basePrev
  · rw [hmap, h.live]

/-- An address that no descriptor has is not released. -/
theorem Listed.release_absent (h : Listed base s ds) (hab : a ≠ base) (hnot : ∀ d ∈ ds, (s.heap.desc d).startAddr ≠ a) :
    release s.heap a = some s.heap := by
  have hall : ∀ d ∈ base :: ds, ((s.heap.desc d).startAddr == a) = false := by
    intro d hd
    apply beq_false_of_ne
    rcases List.mem_cons.mp hd with rfl | hd
    · rw [h.baseStart]
      exact hab.symm
    · exact hnot d hd
  have hlast : (s.heap.desc s.heap.pool.plastRegion).startAddr ≠ a := by
    have hmem : s.heap.pool.plastRegion ∈ base :: ds := h.chain.last ▸ List.getLastD_mem_cons
    exact ne_of_beq_false (hall _ hmem)
  have hfound : findFrom (nextDesc s.heap.desc) (fun p => (s.heap.desc p).startAddr == a) Word.size
      s.heap.pool.baseAddress = none := by
    rw [h.baseEq]
    exact findFrom_eq_none h.chain.forward hall _
  rw [release, hfound]
  exact congrArg some (if_neg hlast)

/-- Where the descriptor stands that is released. -/
theorem Listed.split (h : Listed base s ds) (ha : a ∈ s.live.map Region.start) :
    ∃ xs d ys, ds = xs ++ d :: ys ∧ (s.heap.desc d).startAddr = a ∧ (∀ x ∈ xs, (s.heap.desc x).startAddr ≠ a) ∧
      ds.eraseP (fun e => (s.heap.desc e).startAddr == a) = xs ++ ys ∧
      s.live.find? (·.start == a) = some (regionAt s.heap.desc d) := by
  obtain ⟨r, hr, hra⟩ := List.mem_map.mp ha
  rw [h.live] at hr
  obtain ⟨e, he, rfl⟩ := List.mem_map.mp hr
  obtain ⟨d, xs, ys, hxs, hd, rfl, herase⟩ :=
    List.exists_of_eraseP (p := fun e => (s.heap.desc e).startAddr == a) he (beq_iff_eq.mpr hra)
  have hxa : ∀ x ∈ xs, (s.heap.desc x).startAddr ≠ a := fun x hx hxa => hxs x hx (beq_iff_eq.mpr hxa)
  refine ⟨xs, d, ys, rfl, beq_iff_eq.mp hd, hxa, herase, ?_⟩
  have hfind : (xs ++ d :: ys).find? ((·.start == a) ∘ regionAt s.heap.desc) = some d :=
    List.find?_eq_some_iff_append.mpr ⟨hd, xs, ys, rfl, fun x hx => by simpa [regionAt] using hxa x hx⟩
  rw [h.live, List.find?_map, hfind, Option.map_some]

/-- No live region starts at an address that no descriptor has. -/
theorem Listed.mem_starts_iff (h : Listed base s ds) :
    a ∈ s.live.map Region.start ↔ ∃ d ∈ ds, (s.heap.desc d).startAddr = a := by
  rw [h.live, List.map_map, List.mem_map]
  rfl

/-- The call returns exactly when the region keeps off the pages in use. -/
theorem Listed.release_isSome_iff (h : Listed base s ds) (hab : a ≠ base) :
    (∃ t, release s.heap a = some t) ↔ ReleasesOff base s (.free a) := by
  by_cases ha : a ∈ s.live.map Region.start
  · obtain ⟨xs, d, ys, rfl, hd, hxs, -, hfind⟩ := h.split ha
    have hsome (t : HeapState) := release_eq_some_iff (t := t) h.baseEq h.baseStart h.chain hab hd hxs
    have hstart : (regionAt s.heap.desc d).start = a := hd
    constructor
    · rintro ⟨t, ht⟩ r hr
      obtain rfl := Option.some.inj (hfind.symm.trans hr)
      rw [hstart]
      exact ((hsome t).mp ht).1
    · intro hoff
      have hkeeps := hoff _ hfind
      rw [hstart] at hkeeps
      exact ⟨_, (hsome _).mpr ⟨hkeeps, rfl⟩⟩
  · have hnot : ∀ d ∈ ds, (s.heap.desc d).startAddr ≠ a := fun d hd hda => ha (h.mem_starts_iff.mpr ⟨d, hd, hda⟩)
    refine iff_of_true ⟨_, h.release_absent hab hnot⟩ fun r hr => ?_
    have hra : r.start = a := by simpa using List.find?_some hr
    exact absurd (hra ▸ List.mem_map_of_mem (List.mem_of_find?_eq_some hr)) ha

/-- Regions between the descriptors and the interrupt controller are released off the pages in use. -/
theorem releasesOff_of_inside (hlow : kernelEnd ≤ base) (halign : base % pageSize = 0)
    (hlive : ∀ r ∈ s.live, base + 4096 ≤ r.start ∧ r.start + extent r.size ≤ 0xF8F00000) (i : HeapStep) :
    ReleasesOff base s i := by
  cases i with
  | alloc n => trivial
  | free a =>
      intro r hr
      obtain ⟨hlo, hhi⟩ := hlive r (List.mem_of_find?_eq_some hr)
      rw [← extent_eq] at hhi
      exact keepsOff_of_inside hlow halign hlo hhi

/-- The first descriptor with the start address goes. -/
theorem Listed.release_present (hpos : 0 < base) (h : Listed base s ds) (hab : a ≠ base)
    (ha : a ∈ s.live.map Region.start) (ht : release s.heap a = some t) :
    Listed base ⟨t, s.live.eraseP (·.start == a)⟩ (ds.eraseP fun d => (s.heap.desc d).startAddr == a) ∧
      ∀ q, regionAt t.desc q = regionAt s.heap.desc q := by
  have hlive := h.live
  obtain ⟨xs, d, ys, rfl, hd, hxa, herase, -⟩ := h.split ha
  obtain ⟨hdesc, hbase, -, -⟩ := release_eq hpos h.baseEq h.baseStart h.chain hab hd hxa ht
  obtain ⟨hchain, hregion⟩ := h.chain.released hpos h.baseEq h.baseStart hab hd hxa ht
  have hmid := h.chain.backward.prev_mid
  obtain ⟨hprev, -⟩ := ptr_eq_some.mp hmid
  have hnd := h.chain.nodup
  have hself : (s.heap.desc d).prev ≠ d := by
    rw [hprev]
    intro heq
    rw [← List.cons_append] at hnd
    exact List.disjoint_of_nodup_append hnd (heq ▸ List.getLastD_mem_cons) List.mem_cons_self
  have hnext : base ≠ (s.heap.desc d).next := by
    intro heq
    have hnext := h.chain.forward.next_mid
    rw [nextDesc, ptr_of_ne_zero (heq ▸ hpos.ne')] at hnext
    have hmem : base ∈ ys := List.mem_of_head? (heq ▸ hnext.symm)
    exact (List.nodup_cons.mp hnd).1 (List.mem_append_right _ (List.mem_cons_of_mem _ hmem))
  rw [herase]
  refine ⟨⟨hbase, ?_, ?_, hchain, ?_⟩, congrFun hregion⟩
  · rw [hdesc, unlinkDesc_startAddr]
    exact h.baseStart
  · rw [prevDesc, hdesc, unlinkDesc_prev hself base hpos.ne', if_neg hnext]
    exact h.basePrev
  · rw [hregion, hlive, List.eraseP_map, ← herase]
    rfl

theorem Listed.free (hpos : 0 < base) (h : Listed base s ds) (hab : a ≠ base) (ht : release s.heap a = some t) :
    StepLaw base s.heap t ds (.free a) ∧
      Listed base ⟨t, s.live.eraseP (·.start == a)⟩ (ds.eraseP fun d => (s.heap.desc d).startAddr == a) := by
  by_cases ha : a ∈ s.live.map Region.start
  · obtain ⟨hlisted, hregion⟩ := h.release_present hpos hab ha ht
    refine ⟨⟨hlisted.chain, hregion, fun hnot => ?_⟩, hlisted⟩
    obtain ⟨d, hd, hda⟩ := h.mem_starts_iff.mp ha
    exact absurd hda (hnot d hd)
  · have hnot : ∀ d ∈ ds, (s.heap.desc d).startAddr ≠ a := fun d hd hda => ha (h.mem_starts_iff.mpr ⟨d, hd, hda⟩)
    obtain rfl := Option.some.inj ((h.release_absent hab hnot).symm.trans ht)
    have herase : (ds.eraseP fun d => (s.heap.desc d).startAddr == a) = ds :=
      List.eraseP_of_forall_not fun d hd => by simpa using hnot d hd
    have hlive : s.live.eraseP (·.start == a) = s.live := by
      apply List.eraseP_of_forall_not
      intro r hr hra
      exact ha (beq_iff_eq.mp hra ▸ List.mem_map_of_mem hr)
    rw [StepLaw, herase, hlive]
    exact ⟨⟨h.chain, fun _ => rfl, fun _ => rfl⟩, h⟩

theorem call_listed (hpos : 0 < base) (hpage : base + pageSize ≤ size) {i : HeapStep} {u : HeapRun} (h : Listed base s ds)
    (hi : Admitted s i) (hu : call s i = some u) : StepLaw base s.heap u.heap ds i ∧ ∃ ds', Listed base u ds' := by
  cases i with
  | alloc n =>
      cases hu
      have hfits := hi.2
      rw [h.baseEq] at hfits
      obtain ⟨hlaw, hlisted⟩ := h.alloc hpos hpage hfits
      exact ⟨hlaw, _, hlisted⟩
  | free a =>
      obtain ⟨t, ht, rfl⟩ := Option.map_eq_some_iff.mp hu
      obtain ⟨hlaw, hlisted⟩ := h.free hpos (h.baseEq ▸ hi.2) ht
      exact ⟨hlaw, _, hlisted⟩

theorem Listed.call_isSome_iff {i : HeapStep} (h : Listed base s ds) (hi : Admitted s i) :
    (∃ t, call s i = some t) ↔ ReleasesOff base s i := by
  cases i with
  | alloc n => exact iff_of_true ⟨_, rfl⟩ trivial
  | free a =>
      rw [← h.release_isSome_iff (h.baseEq ▸ hi.2)]
      simp only [call, Option.map_eq_some_iff]
      exact ⟨fun ⟨_, u, hu, _⟩ => ⟨u, hu⟩, fun ⟨u, hu⟩ => ⟨_, u, hu, rfl⟩⟩

/-- The call returns, and does to the list what it should, exactly when it unmaps no page in use. -/
theorem Listed.stepLaw_iff (hpos : 0 < base) (hpage : base + pageSize ≤ size) {i : HeapStep} (h : Listed base s ds)
    (hi : Admitted s i) : (∃ t, call s i = some t ∧ StepLaw base s.heap t.heap ds i) ↔ ReleasesOff base s i := by
  rw [← h.call_isSome_iff hi]
  exact ⟨fun ⟨t, ht, _⟩ => ⟨t, ht⟩, fun ⟨t, ht⟩ => ⟨t, ht, (call_listed hpos hpage h hi ht).1⟩⟩

/-- The kernel heap as `init_kernmem` leaves it. -/
def bootRun : HeapRun := start (fun _ => ⟨0, 0, 0, 0⟩) bootPages kernelHeapStart kernelHeapSize

end Slos.RegionList
