import Mathlib.Algebra.Order.BigOperators.Group.List
import Slos.RegionList

/-!
# Bounds of the heap

Where `allocate` places regions and descriptors. A region starts one page and the sum of the live extents above
the base, which is not compared with the size of the pool. A descriptor stands behind the one of the region
allocated last among those that are live, so it is as deep in the page as there are regions in the chain of
allocations that led to it, however few of them are still live.
-/

namespace Slos.HeapBounds
open Word LinkedNodes HeapRegions

/-- A live region and the place of its descriptor. -/
abbrev Placed := Region × ℕ

structure State where
  heap : HeapState
  live : List Placed

/-- The place of the descriptor of the region allocated last; the base descriptor is at 0. -/
def lastDepth (live : List Placed) : ℕ := (live.map Prod.snd).getLastD 0

def State.regions (s : State) : List Region := s.live.map Prod.fst

def State.run (s : State) : HeapRun := ⟨s.heap, s.regions⟩

/-- Any 32-bit size above zero, and the start of any live region. -/
def step (s : State) : HeapStep → Option State
  | .alloc n =>
      if 0 < n ∧ n < size then
        some ⟨(allocate s.heap n).2, s.live ++ [(⟨(allocate s.heap n).1, n⟩, lastDepth s.live + 1)]⟩
      else none
  | .free a =>
      if a ∈ s.regions.map Region.start then
        (release s.heap a).map fun h => ⟨h, s.live.eraseP (·.1.start == a)⟩
      else none

def start (desc : ℕ → RegionDesc) (pages : PageState) (base n : ℕ) : State := ⟨initVmpool desc pages base n, []⟩

/-- The address that is returned and the pages behind it lie in the heap, above the descriptor page. -/
def InHeap (base n : ℕ) (s : State) : HeapStep → Prop
  | .alloc m => base + 4096 ≤ (allocate s.heap m).1 ∧ (allocate s.heap m).1 + extent m ≤ base + n
  | .free _ => True

/-- The request and the live regions fit into the heap. -/
def Fits (n : ℕ) (s : State) : HeapStep → Prop
  | .alloc m => 4096 + liveExtent s.regions + extent m ≤ n
  | .free _ => True

/-- The descriptors a call writes. -/
def descWrites (s : HeapState) : HeapStep → List ℕ
  | .alloc _ =>
      let plast := if s.pool.plastRegion = 0 then walkToLast s else s.pool.plastRegion
      [plast, u32 (plast + sizeofRegionDesc)]
  | .free a =>
      match findFrom (nextDesc s.desc) (fun p => (s.desc p).startAddr == a) Word.size s.pool.baseAddress with
      | none => []
      | some pcur =>
          let before := setNext s.desc (s.desc pcur).prev (s.desc pcur).next
          (s.desc pcur).prev :: if (before pcur).next = 0 then [] else [(before pcur).next]

/-- The descriptors that are written lie in the descriptor page. -/
def InPage (base : ℕ) (s : State) (i : HeapStep) : Prop :=
  ∀ p ∈ descWrites s.heap i, base ≤ p ∧ p + sizeofRegionDesc ≤ base + 4096

/-- A new descriptor is one of the 255 behind the base descriptor. -/
def Shallow (s : State) : HeapStep → Prop
  | .alloc _ => lastDepth s.live < 255
  | .free _ => True

/-- The region that is released is not one placed at the base, and covers no page in use by the kernel. -/
def FreesOff (base : ℕ) (s : State) : HeapStep → Prop
  | .alloc _ => True
  | .free a => a ≠ base ∧ RegionList.ReleasesOff base s.run (.free a)

instance (n : ℕ) (s : State) : ∀ i, Decidable (Fits n s i)
  | .alloc _ => inferInstanceAs (Decidable (_ ≤ _))
  | .free _ => isTrue trivial

instance (base : ℕ) (s : State) : ∀ i, Decidable (FreesOff base s i)
  | .alloc _ => isTrue trivial
  | .free _ => inferInstanceAs (Decidable (_ ∧ RegionList.ReleasesOff _ _ _))

instance (base n : ℕ) (s : State) : ∀ i, Decidable (InHeap base n s i)
  | .alloc _ => inferInstanceAs (Decidable (_ ∧ _))
  | .free _ => isTrue trivial

instance (s : State) : ∀ i, Decidable (Shallow s i)
  | .alloc _ => inferInstanceAs (Decidable (_ < _))
  | .free _ => isTrue trivial

/-- A call writes no other descriptors. -/
theorem descWrites_frame {s t : State} {i : HeapStep} (h : step s i = some t) {p : ℕ}
    (hp : p ∉ descWrites s.heap i) : t.heap.desc p = s.heap.desc p := by
  cases i with
  | alloc n =>
      simp only [step] at h
      split_ifs at h
      cases h
      simp only [descWrites, List.mem_cons, List.not_mem_nil, or_false, not_or] at hp
      exact appendDesc_of_ne _ _ _ hp.2 hp.1
  | free a =>
      simp only [step] at h
      split_ifs at h
      obtain ⟨u, hu, rfl⟩ := Option.map_eq_some_iff.mp h
      simp only [descWrites] at hp
      unfold release at hu
      cases hfound : findFrom (nextDesc s.heap.desc) (fun p => (s.heap.desc p).startAddr == a) Word.size
          s.heap.pool.baseAddress with
      | none =>
          rw [hfound] at hu
          cases hu
          dsimp only
          unfold resetLast
          split <;> rfl
      | some pcur =>
          rw [hfound] at hp hu
          have hunlink : unlinkDesc s.heap.desc pcur p = s.heap.desc p := by
            unfold unlinkDesc
            dsimp only at hp ⊢
            split_ifs at hp ⊢ with hnext
            · rw [setNext_apply, if_neg (by simpa using hp)]
            · simp only [List.mem_cons, List.not_mem_nil, or_false, not_or] at hp
              rw [setPrev_apply, if_neg hp.2, setNext_apply, if_neg hp.1]
          dsimp only at hu
          split_ifs at hu
          cases hu
          dsimp only
          unfold resetLast
          split <;> exact hunlink

/-- The address of the descriptor of a region. -/
def descAt (base : ℕ) (r : Placed) : ℕ := base + 16 * r.2

/-- The descriptors stand where the live regions say, in their page. -/
structure Shelved (base : ℕ) (s : State) : Prop where
  listed : RegionList.Listed base s.run (s.live.map (descAt base))
  shallow : ∀ r ∈ s.live, r.2 ≤ 255

structure Inv (base n : ℕ) (s : State) : Prop extends Shelved base s where
  linked : HeapRegions.Linked base s.run
  within : s.heap.pool.regionSizeTotal ≤ n

theorem lastDepth_le {live : List Placed} {d : ℕ} (h : ∀ r ∈ live, r.2 ≤ d) : lastDepth live ≤ d := by
  cases live using List.reverseRecOn with
  | nil => exact Nat.zero_le d
  | append_singleton live r =>
      have hlast : lastDepth (live ++ [r]) = r.2 := by simp [lastDepth]
      rw [hlast]
      exact h r (by simp)

theorem getLastD_descAt (base : ℕ) (live : List Placed) :
    (live.map (descAt base)).getLastD base = base + 16 * lastDepth live := by
  cases live using List.reverseRecOn with
  | nil => rfl
  | append_singleton live r => simp [lastDepth, descAt]

theorem Shelved.plast {base : ℕ} {s : State} (h : Shelved base s) :
    s.heap.pool.plastRegion = base + 16 * lastDepth s.live :=
  h.listed.chain.last.trans (getLastD_descAt base s.live)

theorem Inv.total {base n : ℕ} {s : State} (h : Inv base n s) :
    s.heap.pool.regionSizeTotal = 4096 + liveExtent s.regions := h.linked.total

theorem start_shelved (desc : ℕ → RegionDesc) (pages : PageState) {base : ℕ} (n : ℕ) (hpos : 0 < base)
    (hbase : base < size) : Shelved base (start desc pages base n) :=
  ⟨RegionList.start_listed desc pages n hpos hbase, fun _ hr => absurd hr List.not_mem_nil⟩

theorem init_inv (desc : ℕ → RegionDesc) (pages : PageState) {base n : ℕ} (hpos : 0 < base) (hbase : base < size)
    (hn : 4096 ≤ n) : Inv base n (start desc pages base n) :=
  ⟨start_shelved desc pages n hpos hbase, init_linked desc pages n hpos hbase, hn⟩

section Calls

variable {base n m a : ℕ} {s t : State}

/-- A request is answered inside the heap exactly when it fits. -/
theorem Inv.inHeap_iff (h : Inv base n s) (hend : base + n ≤ size) (hm : 0 < m) :
    InHeap base n s (.alloc m) ↔ Fits n s (.alloc m) := by
  have haddr : (allocate s.heap m).1 = u32 (base + s.heap.pool.regionSizeTotal) :=
    congrArg (fun b => u32 (b + s.heap.pool.regionSizeTotal)) h.linked.baseEq
  have htotal := h.total
  have hwithin := h.within
  have hpos := extent_pos hm
  have hbase := h.linked.basePos
  unfold InHeap Fits
  dsimp only
  rw [haddr]
  rcases Nat.lt_or_ge (base + s.heap.pool.regionSizeTotal) size with hlt | hge
  · rw [u32_of_lt hlt]
    omega
  · have heq : base + s.heap.pool.regionSizeTotal = size := by omega
    rw [heq, u32, Nat.mod_self]
    omega

theorem Shelved.chain_inPage (h : Shelved base s) {d : ℕ} (hd : d ∈ base :: s.live.map (descAt base)) :
    base ≤ d ∧ d + 16 ≤ base + 4096 := by
  rcases List.mem_cons.mp hd with rfl | hd
  · omega
  · obtain ⟨r, hr, rfl⟩ := List.mem_map.mp hd
    have hle := h.shallow r hr
    unfold descAt
    omega

/-- A new descriptor lies in the page exactly when it is not too deep. -/
theorem Shelved.alloc_inPage_iff (hpos : 0 < base) (hpage : base + pageSize ≤ size) (h : Shelved base s) :
    InPage base s (.alloc m) ↔ Shallow s (.alloc m) := by
  have hplast := h.plast
  have hdepth := lastDepth_le h.shallow
  have hsize : pageSize = 4096 := rfl
  have hne : s.heap.pool.plastRegion ≠ 0 := by omega
  have hwrites : descWrites s.heap (.alloc m) =
      [s.heap.pool.plastRegion, u32 (s.heap.pool.plastRegion + sizeofRegionDesc)] := by
    simp only [descWrites, if_neg hne]
  have hsizeof : sizeofRegionDesc = 16 := rfl
  unfold InPage Shallow
  rw [hwrites]
  constructor
  · intro hin
    obtain ⟨hlo, hhi⟩ := hin _ (List.mem_cons_of_mem _ List.mem_cons_self)
    rcases Nat.lt_or_ge (s.heap.pool.plastRegion + sizeofRegionDesc) size with hlt | hge
    · rw [u32_of_lt hlt] at hhi
      dsimp only
      omega
    · have heq : s.heap.pool.plastRegion + sizeofRegionDesc = size := by omega
      rw [heq, u32, Nat.mod_self] at hlo
      omega
  · intro hlt p hp
    dsimp only at hlt
    have hnew : u32 (s.heap.pool.plastRegion + sizeofRegionDesc) = s.heap.pool.plastRegion + sizeofRegionDesc :=
      u32_of_lt (by omega)
    simp only [List.mem_cons, List.not_mem_nil, or_false, hnew] at hp
    omega

/-- A release writes descriptors of the list only. -/
theorem Shelved.free_inPage (h : Shelved base s) (hab : a ≠ base) (ha : a ∈ s.regions.map Region.start) :
    InPage base s (.free a) := by
  obtain ⟨xs, d, ys, hds, hda, hxa, -, -⟩ := h.listed.split ha
  have hchain := h.listed.chain
  rw [hds] at hchain
  have hfound : findFrom (nextDesc s.heap.desc) (fun p => (s.heap.desc p).startAddr == a) Word.size
      s.heap.pool.baseAddress = some d :=
    release_found h.listed.baseEq h.listed.baseStart hchain hab hda hxa
  obtain ⟨hprev, -⟩ := ptr_eq_some.mp hchain.backward.prev_mid
  have hprev_mem : (s.heap.desc d).prev ∈ base :: s.live.map (descAt base) := by
    rw [hds]
    change (s.run.heap.desc d).prev ∈ _
    rw [hprev, ← List.cons_append]
    exact List.mem_append_left _ List.getLastD_mem_cons
  have hself : (s.heap.desc d).prev ≠ d := by
    have hnd := hchain.nodup
    rw [← List.cons_append] at hnd
    change (s.run.heap.desc d).prev ≠ d
    rw [hprev]
    exact fun he => List.disjoint_of_nodup_append hnd (he ▸ List.getLastD_mem_cons) List.mem_cons_self
  have hnext : (setNext s.heap.desc (s.heap.desc d).prev (s.heap.desc d).next d).next = (s.heap.desc d).next := by
    rw [setNext_apply, if_neg (Ne.symm hself)]
  have hsizeof : sizeofRegionDesc = 16 := rfl
  intro p hp
  simp only [descWrites, hfound, hnext] at hp
  rw [hsizeof]
  rcases List.mem_cons.mp hp with rfl | hp
  · exact h.chain_inPage hprev_mem
  · split_ifs at hp with h0
    · cases hp
    · rw [List.mem_singleton.mp hp]
      apply h.chain_inPage
      have hhead : ys.head? = some (s.heap.desc d).next :=
        hchain.forward.next_mid.symm.trans (ptr_of_ne_zero h0)
      rw [hds]
      apply List.mem_cons_of_mem
      apply List.mem_append_right
      exact List.mem_cons_of_mem _ (List.mem_of_head? hhead)

/-- The base descriptor has no descriptor before it, so that its release writes through a null pointer. -/
theorem Shelved.base_not_inPage (hpos : 0 < base) (h : Shelved base s) : ¬ InPage base s (.free base) := by
  have hfound : findFrom (nextDesc s.heap.desc) (fun p => (s.heap.desc p).startAddr == base) Word.size
      s.heap.pool.baseAddress = some base := by
    have hforward : Forward (nextDesc s.heap.desc) base (s.live.map (descAt base)) := h.listed.chain.forward
    have hstart : (s.heap.desc base).startAddr = base := h.listed.baseStart
    rw [show s.heap.pool.baseAddress = base from h.listed.baseEq, findFrom_eq hforward _ h.listed.chain.length_lt,
      List.find?_cons, hstart, beq_self_eq_true]
  have hprev : (s.heap.desc base).prev = 0 := by
    by_contra hne
    exact absurd (h.listed.basePrev.symm.trans (ptr_of_ne_zero hne)) (by simp)
  intro hin
  have hzero := (hin 0 (by simp only [descWrites, hfound, hprev, List.mem_cons, true_or])).1
  omega

theorem Shelved.alloc (hpos : 0 < base) (hpage : base + pageSize ≤ size) (h : Shelved base s)
    (hshallow : Shallow s (.alloc m)) :
    Shelved base ⟨(allocate s.heap m).2, s.live ++ [(⟨(allocate s.heap m).1, m⟩, lastDepth s.live + 1)]⟩ := by
  have hplast := h.plast
  unfold Shallow at hshallow
  dsimp only at hshallow
  have hfits : s.heap.pool.plastRegion + 2 * sizeofRegionDesc ≤ base + pageSize := by
    unfold sizeofRegionDesc pageSize
    omega
  obtain ⟨-, hlisted⟩ := h.listed.alloc (n := m) hpos hpage hfits
  have hlast : s.heap.pool.plastRegion + 16 =
      descAt base (⟨(allocate s.heap m).1, m⟩, lastDepth s.live + 1) := by
    unfold descAt
    omega
  have hmap : s.live.map (descAt base) ++ [s.run.heap.pool.plastRegion + 16] =
      (s.live ++ [((⟨(allocate s.heap m).1, m⟩ : Region), lastDepth s.live + 1)]).map (descAt base) := by
    rw [show s.run.heap.pool.plastRegion + 16 = _ from hlast, List.map_append]
    rfl
  constructor
  · rw [hmap] at hlisted
    rw [State.run, State.regions, List.map_append]
    exact hlisted
  · intro r hr
    rcases List.mem_append.mp hr with hr | hr
    · exact h.shallow r hr
    · rw [List.mem_singleton.mp hr]
      exact hshallow

theorem eraseP_congr {α : Type} {p q : α → Bool} {l : List α} (h : ∀ a ∈ l, p a = q a) : l.eraseP p = l.eraseP q := by
  induction l with
  | nil => rfl
  | cons a l ih =>
      rw [List.eraseP_cons, List.eraseP_cons, h a List.mem_cons_self, ih fun b hb => h b (List.mem_cons_of_mem _ hb)]

theorem erase_regions (live : List Placed) (a : ℕ) :
    (live.eraseP (·.1.start == a)).map Prod.fst = (live.map Prod.fst).eraseP (·.start == a) := by
  rw [List.eraseP_map]
  rfl

theorem Shelved.free (hpos : 0 < base) (h : Shelved base s) (hab : a ≠ base) {u : HeapState}
    (hu : release s.heap a = some u) : Shelved base ⟨u, s.live.eraseP (·.1.start == a)⟩ := by
  have hstart (r : Placed) (hr : r ∈ s.live) : (s.heap.desc (descAt base r)).startAddr = r.1.start := by
    have hmap : s.live.map Prod.fst = s.live.map (regionAt s.heap.desc ∘ descAt base) := by
      rw [← List.map_map]
      exact h.listed.live
    rw [List.map_inj_left.mp hmap r hr]
    rfl
  have hds : (s.live.map (descAt base)).eraseP (fun e => (s.heap.desc e).startAddr == a) =
      (s.live.eraseP (·.1.start == a)).map (descAt base) := by
    rw [List.eraseP_map]
    congr 1
    exact eraseP_congr fun r hr => by rw [Function.comp_apply, hstart r hr]
  obtain ⟨-, hlisted⟩ := h.listed.free hpos hab hu
  constructor
  · rw [State.run, State.regions, erase_regions, ← hds]
    exact hlisted
  · exact fun r hr => h.shallow r (List.eraseP_subset hr)

theorem Inv.alloc (h : Inv base n s) (hend : base + n ≤ size) (hm : 0 < m) (hfits : Fits n s (.alloc m))
    (hshallow : Shallow s (.alloc m)) :
    Inv base n ⟨(allocate s.heap m).2, s.live ++ [(⟨(allocate s.heap m).1, m⟩, lastDepth s.live + 1)]⟩ := by
  have htotal := h.total
  have hplast := h.plast
  have hpage : pageSize = 4096 := rfl
  have hshelved := h.toShelved.alloc h.linked.basePos (by have hwithin := h.within; omega) hshallow
  unfold Fits at hfits
  unfold Shallow at hshallow
  dsimp only at hfits hshallow
  have hw : NoWrap s.heap m := by
    constructor
    · rw [show s.heap.pool.baseAddress = base from h.linked.baseEq]
      omega
    · rw [show sizeofRegionDesc = 16 from rfl]
      omega
  refine ⟨hshelved, ?_, ?_⟩
  · rw [State.run, State.regions, List.map_append]
    exact allocate_linked h.linked hm hw
  · have hadds : (allocate s.heap m).2.pool.regionSizeTotal = s.heap.pool.regionSizeTotal + extent m :=
      congrArg (·.2.pool.regionSizeTotal) (allocate_eq h.linked hm hw)
    dsimp only
    omega

theorem Inv.free (h : Inv base n s) (ha : a ∈ s.regions.map Region.start) {u : HeapState}
    (hu : release s.heap a = some u) : Inv base n ⟨u, s.live.eraseP (·.1.start == a)⟩ := by
  have hab : a ≠ base := by
    obtain ⟨r, hr, hra⟩ := List.mem_map.mp ha
    have habove := h.linked.above r hr
    omega
  have hlinked := release_linked h.linked ha hu
  have hsub : liveExtent (s.regions.eraseP (·.start == a)) ≤ liveExtent s.regions := by
    have hsublist : ((s.regions.eraseP (·.start == a)).map fun r => extent r.size).Sublist
        (s.regions.map fun r => extent r.size) := List.eraseP_sublist.map _
    exact List.Sublist.sum_le_sum hsublist fun _ _ => Nat.zero_le _
  refine ⟨h.toShelved.free h.linked.basePos hab hu, ?_, ?_⟩
  · rw [State.run, State.regions, erase_regions]
    exact hlinked
  · have htotal := h.total
    have hwithin := h.within
    have htotal' := hlinked.total
    dsimp only [State.run] at htotal' ⊢
    omega

/-- What every step keeps that fits and is not too deep. -/
theorem step_inv (hend : base + n ≤ size) (i : HeapStep) (h : Inv base n s) (hfits : Fits n s i) (hshallow : Shallow s i)
    (ht : step s i = some t) : Inv base n t := by
  cases i with
  | alloc m =>
      simp only [step] at ht
      split_ifs at ht with hm
      cases ht
      exact h.alloc hend hm.1 hfits hshallow
  | free a =>
      simp only [step] at ht
      split_ifs at ht with ha
      obtain ⟨u, hu, rfl⟩ := Option.map_eq_some_iff.mp ht
      exact h.free ha hu

theorem inHeap_iff (hend : base + n ≤ size) (i : HeapStep) (h : Inv base n s) (ht : step s i = some t) :
    InHeap base n s i ↔ Fits n s i := by
  cases i with
  | alloc m =>
      simp only [step] at ht
      split_ifs at ht with hm
      exact h.inHeap_iff hend hm.1
  | free a => exact Iff.rfl

/-- What every step keeps that is not too deep and unmaps no page in use, whatever the size of the request. -/
theorem step_shelved (hpos : 0 < base) (hpage : base + pageSize ≤ size) (i : HeapStep) (h : Shelved base s)
    (hshallow : Shallow s i) (hoff : FreesOff base s i) (ht : step s i = some t) : Shelved base t := by
  cases i with
  | alloc m =>
      simp only [step] at ht
      split_ifs at ht with hm
      cases ht
      exact h.alloc hpos hpage hshallow
  | free a =>
      simp only [step] at ht
      split_ifs at ht with ha
      obtain ⟨u, hu, rfl⟩ := Option.map_eq_some_iff.mp ht
      exact h.free hpos hoff.1 hu

theorem inPage_iff (hpos : 0 < base) (hpage : base + pageSize ≤ size) (i : HeapStep) (h : Shelved base s)
    (ht : step s i = some t) : InPage base s i ↔ Shallow s i ∧ FreesOff base s i := by
  cases i with
  | alloc m => exact (h.alloc_inPage_iff hpos hpage).trans (and_iff_left trivial).symm
  | free a =>
      simp only [step] at ht
      split_ifs at ht with ha
      obtain ⟨u, hu, -⟩ := Option.map_eq_some_iff.mp ht
      constructor
      · intro hin
        have hab : a ≠ base := by
          rintro rfl
          exact h.base_not_inPage hpos hin
        exact ⟨trivial, hab, (h.listed.release_isSome_iff hab).mp ⟨u, hu⟩⟩
      · exact fun hc => h.free_inPage hc.2.1 ha

end Calls

section Runs

variable (desc : ℕ → RegionDesc) (pages : PageState) {base n : ℕ}

/-- While the descriptors stay in their page, every region that is returned lies in the heap exactly when every
request fits into what the live regions leave of it. -/
theorem regions_in_heap_iff (hpos : 0 < base) (hn : 4096 ≤ n) (hend : base + n ≤ size) (is : List HeapStep) :
    Machine.StepsMeet step (fun s i => InHeap base n s i ∧ Shallow s i) (start desc pages base n) is ↔
      Machine.StepsMeet step (fun s i => Fits n s i ∧ Shallow s i) (start desc pages base n) is := by
  have hinit : Inv base n (start desc pages base n) := init_inv desc pages hpos (by omega) hn
  constructor
  · intro hin
    apply Machine.stepsMeet_of_stepsMeet (Inv base n) _ _ hinit hin
    · exact fun s i t h hc ht => step_inv hend i h ((inHeap_iff hend i h ht).mp hc.1) hc.2 ht
    · exact fun s i t h hc ht => ⟨(inHeap_iff hend i h ht).mp hc.1, hc.2⟩
  · intro hfits
    apply Machine.stepsMeet_of_stepsMeet (Inv base n) _ _ hinit hfits
    · exact fun s i t h hc ht => step_inv hend i h hc.1 hc.2 ht
    · exact fun s i t h hc ht => ⟨(inHeap_iff hend i h ht).mpr hc.1, hc.2⟩

/-- For requests of any size, every descriptor that is written lies in the descriptor page exactly when none is the
256th or later in the chain of allocations that leads to it, and no region is released that starts at the base or
covers a page in use by the kernel. -/
theorem descriptors_in_page_iff (n : ℕ) (hpos : 0 < base) (hpage : base + pageSize ≤ size) (is : List HeapStep) :
    Machine.StepsMeet step (InPage base) (start desc pages base n) is ↔
      Machine.StepsMeet step (fun s i => Shallow s i ∧ FreesOff base s i) (start desc pages base n) is := by
  have hbase : base < size := (Nat.lt_add_of_pos_right (by decide)).trans_le hpage
  have hinit : Shelved base (start desc pages base n) := start_shelved desc pages n hpos hbase
  constructor
  · intro hin
    apply Machine.stepsMeet_of_stepsMeet (Shelved base) _ _ hinit hin
    · intro s i t h hc ht
      obtain ⟨hshallow, hoff⟩ := (inPage_iff hpos hpage i h ht).mp hc
      exact step_shelved hpos hpage i h hshallow hoff ht
    · exact fun s i t h hc ht => (inPage_iff hpos hpage i h ht).mp hc
  · intro hc
    apply Machine.stepsMeet_of_stepsMeet (Shelved base) _ _ hinit hc
    · exact fun s i t h hc ht => step_shelved hpos hpage i h hc.1 hc.2 ht
    · exact fun s i t h hc ht => (inPage_iff hpos hpage i h ht).mpr hc

end Runs

section KernelHeap

/-- The kernel heap as `init_kernmem` leaves it. -/
def bootState : State := start (fun _ => ⟨0, 0, 0, 0⟩) bootPages kernelHeapStart kernelHeapSize

theorem regions_in_heap_two : Machine.StepsMeet step (fun s i => InHeap kernelHeapStart kernelHeapSize s i ∧ Shallow s i)
    bootState [.alloc 100, .alloc 8192, .free 0xC4001000, .alloc 5000] :=
  (regions_in_heap_iff (fun _ => ⟨0, 0, 0, 0⟩) bootPages (by decide) (by decide) (by decide)
    [.alloc 100, .alloc 8192, .free 0xC4001000, .alloc 5000]).mpr (by decide +kernel)

/-- A request of the size of the heap is answered with pages behind its end. -/
theorem region_behind_heap : ∃ t, step bootState (.alloc 0x4000000) = some t ∧
    (allocate bootState.heap 0x4000000).1 = 0xC4001000 ∧
    kernelHeapStart + kernelHeapSize < 0xC4001000 + extent 0x4000000 ∧
    ¬ Machine.StepsMeet step (InHeap kernelHeapStart kernelHeapSize) bootState [.alloc 0x4000000] := by
  refine ⟨_, rfl, by decide +kernel, by decide, ?_⟩
  decide +kernel

/-- Also with a request that wraps, whose region stays live. -/
theorem descriptors_in_page_two : Machine.StepsMeet step (InPage kernelHeapStart) bootState
    [.alloc 100, .alloc 0xFFFFFFFF, .alloc 8192, .free 0xC4001000, .alloc 5000] :=
  (descriptors_in_page_iff (fun _ => ⟨0, 0, 0, 0⟩) bootPages kernelHeapSize (by decide) (by decide)
    [.alloc 100, .alloc 0xFFFFFFFF, .alloc 8192, .free 0xC4001000, .alloc 5000]).mpr (by decide +kernel)

/-- The number of regions `init_vmpool` prints as supported: a page over `sizeof(struct vmpool)`. -/
def regionNumSupported : ℕ := pageSize / 24

def FewLive (s : State) : Prop := s.live.length ≤ regionNumSupported

theorem fewLive_of_two {s : State} (h : s.live.length ≤ 2) : FewLive s := h.trans (by decide)

/-- Another page is taken before the one at `a` is released. -/
def takeOver (a : ℕ) : List HeapStep := [.alloc 4096, .free a]

/-- One page is live, with its descriptor in place `d`. -/
structure OnePage (a d : ℕ) (s : State) : Prop where
  inv : Inv kernelHeapStart kernelHeapSize s
  low : a ≤ 0xC4002000
  live : s.live = [(⟨a, 4096⟩, d)]

theorem alloc_page {s : State} (h : Inv kernelHeapStart kernelHeapSize s) (hextent : liveExtent s.regions ≤ 4096)
    (hd : lastDepth s.live < 255) : ∃ t, step s (.alloc 4096) = some t ∧ Inv kernelHeapStart kernelHeapSize t ∧
      t.live = s.live ++ [(⟨0xC4001000 + liveExtent s.regions, 4096⟩, lastDepth s.live + 1)] := by
  have haddr : (allocate s.heap 4096).1 = 0xC4001000 + liveExtent s.regions := by
    have heq : (allocate s.heap 4096).1 = u32 (s.heap.pool.baseAddress + s.heap.pool.regionSizeTotal) := rfl
    have hbase : s.heap.pool.baseAddress = 0xC4000000 := h.linked.baseEq
    rw [heq, hbase, h.total, u32_of_lt (by unfold size; omega)]
    omega
  have hfits : Fits kernelHeapSize s (.alloc 4096) := by
    have hsize : kernelHeapSize = 0x4000000 := rfl
    have hpage : extent 4096 = 4096 := rfl
    unfold Fits
    dsimp only
    omega
  refine ⟨_, rfl, h.alloc (by decide) (by decide) hfits hd, ?_⟩
  dsimp only
  rw [haddr]

theorem OnePage.takeOver {a d : ℕ} {s : State} (h : OnePage a d s) (hd : d < 255) :
    ∃ t, Machine.exec step s (takeOver a) = some t ∧ OnePage 0xC4002000 (d + 1) t ∧
      Machine.Always step FewLive s (HeapBounds.takeOver a) := by
  have hlast : lastDepth s.live = d := by rw [h.live]; rfl
  have hextent : liveExtent s.regions = 4096 := by
    rw [State.regions, h.live]
    simp [extent]
  obtain ⟨u, hu, hinv, hlive⟩ := alloc_page h.inv hextent.le (hlast.trans_lt hd)
  rw [hlast, hextent, h.live] at hlive
  have hmem : a ∈ u.regions.map Region.start := by
    simp [State.regions, hlive]
  have hinside : ∀ r ∈ u.regions, kernelHeapStart + 4096 ≤ r.start ∧ r.start + extent r.size ≤ 0xF8F00000 := by
    intro r hr
    refine ⟨hinv.linked.above r hr, ?_⟩
    have hlow := h.low
    have hpage : extent 4096 = 4096 := rfl
    simp only [State.regions, hlive, List.cons_append, List.nil_append, List.map_cons, List.map_nil, List.mem_cons,
      List.not_mem_nil, or_false] at hr
    rcases hr with rfl | rfl <;> dsimp only <;> omega
  have hab : a ≠ kernelHeapStart := by
    obtain ⟨r, hr, hra⟩ := List.mem_map.mp hmem
    have habove := (hinside r hr).1
    omega
  obtain ⟨v, hv⟩ := (hinv.listed.release_isSome_iff hab).mpr
    (RegionList.releasesOff_of_inside (by decide) (by decide) hinside (.free a))
  have hfree : step u (.free a) = some ⟨v, u.live.eraseP (·.1.start == a)⟩ := by
    rw [step, if_pos hmem]
    exact Option.map_eq_some_iff.mpr ⟨v, hv, rfl⟩
  have hleft : u.live.eraseP (·.1.start == a) = [(⟨0xC4002000, 4096⟩, d + 1)] := by
    simp [hlive]
  refine ⟨_, ?_, ⟨hinv.free hmem hv, le_rfl, hleft⟩, ?_, fun u' hu' => ?_⟩
  · rw [HeapBounds.takeOver, Machine.exec_cons, hu, Option.bind_some, Machine.exec_cons, hfree]
    rfl
  · exact fewLive_of_two (by simp [h.live])
  · obtain rfl := Option.some.inj (hu.symm.trans hu')
    refine ⟨fewLive_of_two (by simp [hlive]), fun v hv => ?_⟩
    obtain rfl := Option.some.inj (hfree.symm.trans hv)
    exact fewLive_of_two (by simp [hleft])

/-- Each time the descriptor of the page that is left is one place deeper. -/
theorem OnePage.deeper {d : ℕ} {s : State} (h : OnePage 0xC4002000 d s) (k : ℕ) (hd : d + k ≤ 255) :
    ∃ t, Machine.exec step s (List.replicate k (HeapBounds.takeOver 0xC4002000)).flatten = some t ∧
      OnePage 0xC4002000 (d + k) t ∧
      Machine.Always step FewLive s (List.replicate k (HeapBounds.takeOver 0xC4002000)).flatten := by
  induction k generalizing d s with
  | zero => exact ⟨s, rfl, h, fewLive_of_two (by simp [h.live])⟩
  | succ k ih =>
      obtain ⟨u, hu, hone, hfew⟩ := h.takeOver (by omega)
      obtain ⟨t, ht, hdeep, hfew'⟩ := ih hone (by omega)
      rw [List.replicate_succ, List.flatten_cons]
      refine ⟨t, ?_, ?_, ?_⟩
      · rw [Machine.exec_append, hu, Option.bind_some, ht]
      · rw [Nat.add_comm k, ← Nat.add_assoc]
        exact hdeep
      · rw [Machine.always_append]
        refine ⟨hfew, fun v hv => ?_⟩
        obtain rfl := Option.some.inj (hu.symm.trans hv)
        exact hfew'

/-- 255 pages are taken, each but the first before the one before it is released. -/
def oneAfterAnother : List HeapStep :=
  [.alloc 4096] ++ (takeOver 0xC4001000 ++ (List.replicate 253 (takeOver 0xC4002000)).flatten)

theorem oneAfterAnother_onePage : ∃ s, Machine.exec step bootState oneAfterAnother = some s ∧
    OnePage 0xC4002000 255 s ∧ Machine.Always step FewLive bootState oneAfterAnother := by
  have hinit : Inv kernelHeapStart kernelHeapSize bootState := init_inv _ _ (by decide) (by decide) (by decide)
  obtain ⟨s, hs, hinv, hlive⟩ := alloc_page hinit (by decide) (by decide)
  have hone : OnePage 0xC4001000 1 s := ⟨hinv, by decide, hlive⟩
  obtain ⟨u, hu, hone', hfew⟩ := hone.takeOver (by decide)
  obtain ⟨t, ht, hdeep, hfew'⟩ := hone'.deeper 253 (by decide)
  have hfirst : Machine.exec step bootState [.alloc 4096] = some s := by
    rw [Machine.exec_cons, hs]
    rfl
  refine ⟨t, ?_, hdeep, ?_⟩
  · rw [oneAfterAnother, Machine.exec_append, hfirst, Option.bind_some, Machine.exec_append, hu, Option.bind_some, ht]
  · rw [oneAfterAnother, Machine.always_append]
    constructor
    · refine ⟨fewLive_of_two (by decide), fun v hv => ?_⟩
      obtain rfl := Option.some.inj (hs.symm.trans hv)
      exact fewLive_of_two (by simp [hone.live])
    · intro v hv
      obtain rfl := Option.some.inj (hfirst.symm.trans hv)
      rw [Machine.always_append]
      refine ⟨hfew, fun v hv => ?_⟩
      obtain rfl := Option.some.inj (hu.symm.trans hv)
      exact hfew'

/-- With two pages live at most, the descriptor of the 256th page that is taken lies behind the page of the
descriptors. -/
theorem descriptor_behind_page : ∃ s, Machine.exec step bootState oneAfterAnother = some s ∧
    Machine.Always step FewLive bootState oneAfterAnother ∧ s.live.length = 1 ∧
    kernelHeapStart + 4096 ∈ descWrites s.heap (.alloc 4096) ∧ ¬ InPage kernelHeapStart s (.alloc 4096) := by
  obtain ⟨s, hs, hone, hfew⟩ := oneAfterAnother_onePage
  have hplast : s.heap.pool.plastRegion = kernelHeapStart + 16 * 255 := by
    rw [hone.inv.plast, hone.live]
    rfl
  have hwrites : descWrites s.heap (.alloc 4096) = [kernelHeapStart + 16 * 255, kernelHeapStart + 4096] := by
    simp only [descWrites, hplast]
    rfl
  refine ⟨s, hs, hfew, by simp [hone.live], by simp [hwrites], fun hin => ?_⟩
  have hlast := (hin (kernelHeapStart + 4096) (by simp [hwrites])).2
  exact absurd hlast (by decide)

end KernelHeap

end Slos.HeapBounds
