import Slos.Machine
import Slos.VmPool
import Mathlib.Data.Finset.Card
import Mathlib.Data.Finset.Range
import Mathlib.Algebra.BigOperators.Group.List.Basic

/-!
# Live heap regions

A run calls `allocate` and `release` on one pool. Beside the heap it carries the owners' view: the
regions returned by `allocate` and not yet released, oldest first. `Linked` ties the two together:
the descriptor list holds exactly the live regions and `region_size_total` is one page more than the
sum of their extents. That total is also the offset at which the next region is placed.
-/

namespace Slos.HeapRegions
open Word LinkedNodes

structure Region where
  start : ℕ
  size : ℕ
  deriving DecidableEq

/-- The page-rounded size of a request. -/
def extent (size : ℕ) : ℕ := 4096 * ((size + 4095) / 4096)

structure HeapRun where
  heap : HeapState
  live : List Region

inductive HeapStep
  | alloc (size : ℕ)
  | free (start : ℕ)

/-- Neither the new region nor its descriptor reaches past the top of the address space. -/
def NoWrap (s : HeapState) (n : ℕ) : Prop :=
  s.pool.baseAddress + s.pool.regionSizeTotal + extent n ≤ size ∧
    s.pool.plastRegion + 2 * sizeofRegionDesc ≤ size

instance (s : HeapState) (n : ℕ) : Decidable (NoWrap s n) := inferInstanceAs (Decidable (_ ∧ _))

def heapStep (s : HeapRun) : HeapStep → Option HeapRun
  | .alloc n =>
      if 0 < n ∧ n < size ∧ NoWrap s.heap n then
        some ⟨(allocate s.heap n).2, s.live ++ [⟨(allocate s.heap n).1, n⟩]⟩
      else none
  | .free a =>
      if a ∈ s.live.map Region.start then
        (release s.heap a).map fun h => ⟨h, s.live.eraseP (·.start == a)⟩
      else none

def Apart (r q : Region) : Prop :=
  r.start + extent r.size ≤ q.start ∨ q.start + extent q.size ≤ r.start

instance (r q : Region) : Decidable (Apart r q) := inferInstanceAs (Decidable (_ ∨ _))

/-- The live extents are pairwise disjoint and none meets the descriptor page. -/
def Disjointness (base : ℕ) (s : HeapRun) : Prop :=
  s.live.Pairwise Apart ∧ ∀ r ∈ s.live, base + 4096 ≤ r.start ∨ r.start + extent r.size ≤ base

instance (base : ℕ) (s : HeapRun) : Decidable (Disjointness base s) :=
  inferInstanceAs (Decidable (_ ∧ _))

/-- The number of bytes the live regions take, rounded up to pages. -/
def liveExtent (live : List Region) : ℕ := (live.map fun r => extent r.size).sum

/-- No live region reaches into the pages that follow the first `4096 + liveExtent` bytes. -/
def WindowClear (base : ℕ) (s : HeapRun) : HeapStep → Prop
  | .alloc n => ∀ r ∈ s.live, r.start + extent r.size ≤ base + 4096 + liveExtent s.live ∨
      base + 4096 + liveExtent s.live + extent n ≤ r.start
  | .free _ => True

instance (base : ℕ) (s : HeapRun) : ∀ i, Decidable (WindowClear base s i)
  | .alloc _ => inferInstanceAs (Decidable (∀ r ∈ s.live, _))
  | .free _ => isTrue trivial

/-- The descriptor of a new region lies inside the descriptor page. Past that page it would lie in
a region, whose pages `release` unmaps. -/
def DescriptorFits (base : ℕ) (s : HeapRun) : HeapStep → Prop
  | .alloc _ => s.heap.pool.plastRegion + 2 * sizeofRegionDesc ≤ base + 4096
  | .free _ => True

instance (base : ℕ) (s : HeapRun) : ∀ i, Decidable (DescriptorFits base s i)
  | .alloc _ => inferInstanceAs (Decidable (_ ≤ _))
  | .free _ => isTrue trivial

def regionAt (desc : ℕ → RegionDesc) (d : ℕ) : Region := ⟨(desc d).startAddr, (desc d).size⟩

/-- The descriptors after the base one are `ds`, at increasing addresses. -/
structure Chain (base : ℕ) (s : HeapState) (ds : List ℕ) : Prop where
  forward : Forward (nextDesc s.desc) base ds
  backward : Backward (prevDesc s.desc) base ds
  increasing : (base :: ds).Pairwise (· < ·)
  bounded : ∀ d ∈ base :: ds, d < size
  last : s.pool.plastRegion = ds.getLastD base

structure Linked (base : ℕ) (s : HeapRun) : Prop where
  basePos : 0 < base
  baseEq : s.heap.pool.baseAddress = base
  baseStart : (s.heap.desc base).startAddr = base
  chain : ∃ ds, Chain base s.heap ds ∧ s.live = ds.map (regionAt s.heap.desc)
  total : s.heap.pool.regionSizeTotal = 4096 + liveExtent s.live
  totalLt : s.heap.pool.regionSizeTotal < size
  above : ∀ r ∈ s.live, base + 4096 ≤ r.start

theorem extent_eq (n : ℕ) : pageSize * pgnum n = extent n := by
  rw [pgnum_eq]
  rfl

theorem extent_pos {n : ℕ} (h : 0 < n) : 0 < extent n := by
  unfold extent
  omega

@[simp] theorem liveExtent_nil : liveExtent [] = 0 := rfl

@[simp] theorem liveExtent_append (l l' : List Region) :
    liveExtent (l ++ l') = liveExtent l + liveExtent l' := by
  simp [liveExtent]

@[simp] theorem liveExtent_cons (r : Region) (l : List Region) :
    liveExtent (r :: l) = extent r.size + liveExtent l := by
  simp [liveExtent]

theorem Chain.nodup {base : ℕ} {s : HeapState} {ds : List ℕ} (h : Chain base s ds) :
    (base :: ds).Nodup := h.increasing.imp fun hlt => hlt.ne

theorem Chain.length_lt {base : ℕ} {s : HeapState} {ds : List ℕ} (h : Chain base s ds) :
    ds.length < size := by
  have hsub : (base :: ds).toFinset ⊆ Finset.range size := by
    intro d hd
    exact Finset.mem_range.mpr (h.bounded d (List.mem_toFinset.mp hd))
  have hcard := Finset.card_le_card hsub
  rw [List.toFinset_card_of_nodup h.nodup, Finset.card_range, List.length_cons] at hcard
  omega

theorem Chain.le_last {base : ℕ} {s : HeapState} {ds : List ℕ} (h : Chain base s ds) :
    ∀ d ∈ base :: ds, d ≤ s.pool.plastRegion := by
  rw [h.last]
  intro d hd
  have hinc := h.increasing
  clear h
  induction ds generalizing base with
  | nil => exact (List.mem_singleton.mp hd).le
  | cons x xs ih =>
      rw [List.getLastD_cons]
      obtain ⟨hlt, hinc'⟩ := List.pairwise_cons.mp hinc
      rcases List.mem_cons.mp hd with rfl | hd'
      · exact (hlt _ List.getLastD_mem_cons).le
      · exact ih hd' hinc'

theorem init_linked (desc : ℕ → RegionDesc) (pages : PageState) {base : ℕ} (n : ℕ)
    (hpos : 0 < base) (hbase : base < size) :
    Linked base ⟨initVmpool desc pages base n, []⟩ := by
  have hself : (initVmpool desc pages base n).desc base =
      { startAddr := base, size := pageSize, next := 0, prev := 0 } := Function.update_self ..
  refine ⟨hpos, rfl, by rw [hself], ⟨[], ⟨?_, trivial, List.pairwise_singleton _ _, ?_, rfl⟩, rfl⟩,
    rfl, (by decide : 4096 < size), fun r hr => absurd hr List.not_mem_nil⟩
  · rw [Forward, nextDesc, hself, ptr_zero]
  · intro d hd
    rwa [List.mem_singleton.mp hd]

theorem Linked.plast_pos {base : ℕ} {s : HeapRun} (h : Linked base s) :
    0 < s.heap.pool.plastRegion := by
  obtain ⟨ds, hds, -⟩ := h.chain
  exact h.basePos.trans_le (hds.le_last base List.mem_cons_self)

/-- What `allocate` does when no address wraps. -/
theorem allocate_eq {base : ℕ} {s : HeapRun} (h : Linked base s) {n : ℕ}
    (hn : 0 < n) (hw : NoWrap s.heap n) :
    allocate s.heap n = (base + s.heap.pool.regionSizeTotal,
      { pool :=
          { s.heap.pool with
            plastRegion := s.heap.pool.plastRegion + 16
            regionSizeTotal := s.heap.pool.regionSizeTotal + extent n }
        desc := appendDesc s.heap.desc s.heap.pool.plastRegion (s.heap.pool.plastRegion + 16)
          (base + s.heap.pool.regionSizeTotal) n
        pages := s.heap.pages }) := by
  obtain ⟨hw1, hw2⟩ := hw
  have hpos := h.plast_pos
  have hb := h.basePos
  have he := extent_pos hn
  rw [h.baseEq] at hw1
  unfold sizeofRegionDesc at hw2
  unfold allocate sizeofRegionDesc
  rw [if_neg hpos.ne', extent_eq, h.baseEq]
  have h1 : u32 (s.heap.pool.plastRegion + 16) = s.heap.pool.plastRegion + 16 :=
    u32_of_lt (by omega)
  have h2 : u32 (s.heap.pool.regionSizeTotal + u32 (extent n)) =
      s.heap.pool.regionSizeTotal + extent n := by
    rw [u32_of_lt (show extent n < size by omega), u32_of_lt (by omega)]
  dsimp only
  rw [h1, h2, u32_of_lt (show base + s.heap.pool.regionSizeTotal < size by omega)]

theorem Chain.append {base a n : ℕ} {s t : HeapState} {ds : List ℕ} (h : Chain base s ds)
    (hpos : 0 < s.pool.plastRegion) (hroom : s.pool.plastRegion + 16 < size)
    (hdesc : t.desc = appendDesc s.desc s.pool.plastRegion (s.pool.plastRegion + 16) a n)
    (hlast : t.pool.plastRegion = s.pool.plastRegion + 16) :
    Chain base t (ds ++ [s.pool.plastRegion + 16]) ∧
      (ds ++ [s.pool.plastRegion + 16]).map (regionAt t.desc) =
        ds.map (regionAt s.desc) ++ [⟨a, n⟩] ∧
      ∀ d ∈ base :: ds, (t.desc d).startAddr = (s.desc d).startAddr := by
  have hle := h.le_last
  have hnew : ∀ d ∈ base :: ds, d ≠ s.pool.plastRegion + 16 := by
    intro d hd
    have := hle d hd
    omega
  have hold : ∀ d ∈ base :: ds, (t.desc d).startAddr = (s.desc d).startAddr ∧
      (t.desc d).size = (s.desc d).size ∧ (t.desc d).prev = (s.desc d).prev := by
    intro d hd
    rw [hdesc]
    exact appendDesc_old s.desc a n (hnew d hd)
  refine ⟨⟨?_, ?_, ?_, ?_, ?_⟩, ?_, fun d hd => (hold d hd).1⟩
  · apply h.forward.snoc h.nodup
    · have hne : s.pool.plastRegion ≠ s.pool.plastRegion + 16 := by omega
      rw [← h.last, nextDesc, hdesc, appendDesc_last _ _ _ hne]
      exact ptr_of_ne_zero (Nat.succ_ne_zero _)
    · rw [nextDesc, hdesc, appendDesc_new, ptr_zero]
    · intro d hd hne
      rw [← h.last] at hne
      rw [nextDesc, hdesc, appendDesc_of_ne _ _ _ (hnew d hd) hne]
      rfl
  · apply h.backward.snoc
    · rw [← h.last, prevDesc, hdesc, appendDesc_new]
      exact ptr_of_ne_zero hpos.ne'
    · intro d hd
      rw [prevDesc, (hold d (List.mem_cons_of_mem _ hd)).2.2]
      rfl
  · rw [← List.cons_append]
    refine List.pairwise_append.mpr ⟨h.increasing, List.pairwise_singleton _ _, ?_⟩
    intro d hd e he
    rw [List.mem_singleton.mp he]
    have := hle d hd
    omega
  · intro d hd
    rw [← List.cons_append] at hd
    rcases List.mem_append.mp hd with hd | hd
    · exact h.bounded d hd
    · rwa [List.mem_singleton.mp hd]
  · rw [hlast, List.getLastD_concat]
  · rw [List.map_append, List.map_singleton]
    congr 1
    · apply List.map_congr_left
      intro d hd
      obtain ⟨h1, h2, -⟩ := hold d (List.mem_cons_of_mem _ hd)
      rw [regionAt, h1, h2]
      rfl
    · rw [regionAt, hdesc, appendDesc_new]

theorem allocate_chain {base : ℕ} {s : HeapRun} (h : Linked base s) {n : ℕ} (hn : 0 < n) (hw : NoWrap s.heap n)
    {ds : List ℕ} (hds : Chain base s.heap ds) (hlive : s.live = ds.map (regionAt s.heap.desc)) :
    Chain base (allocate s.heap n).2 (ds ++ [s.heap.pool.plastRegion + 16]) ∧
      s.live ++ [⟨(allocate s.heap n).1, n⟩] =
        (ds ++ [s.heap.pool.plastRegion + 16]).map (regionAt (allocate s.heap n).2.desc) ∧
      ((allocate s.heap n).2.desc base).startAddr = base := by
  have hroom := hw.2
  unfold sizeofRegionDesc at hroom
  rw [allocate_eq h hn hw]
  obtain ⟨hchain, hmap, hstart⟩ := hds.append (a := base + s.heap.pool.regionSizeTotal) (n := n)
    (t := ⟨{ s.heap.pool with
        plastRegion := s.heap.pool.plastRegion + 16
        regionSizeTotal := s.heap.pool.regionSizeTotal + extent n }, _, s.heap.pages⟩)
    h.plast_pos (by omega) rfl rfl
  refine ⟨hchain, ?_, (hstart base List.mem_cons_self).trans h.baseStart⟩
  rw [hlive]
  exact hmap.symm

theorem allocate_linked {base : ℕ} {s : HeapRun} (h : Linked base s) {n : ℕ} (hn : 0 < n)
    (hw : NoWrap s.heap n) :
    Linked base ⟨(allocate s.heap n).2, s.live ++ [⟨(allocate s.heap n).1, n⟩]⟩ := by
  have htot := h.total
  have hextent := hw.1
  have he := extent_pos hn
  have hb := h.basePos
  rw [h.baseEq] at hextent
  obtain ⟨ds, hds, hlive⟩ := h.chain
  obtain ⟨hchain, hmap, hstart⟩ := allocate_chain h hn hw hds hlive
  have heq := allocate_eq h hn hw
  have htotal : (allocate s.heap n).2.pool.regionSizeTotal = s.heap.pool.regionSizeTotal + extent n := by rw [heq]
  refine ⟨hb, ?_, hstart, ⟨_, hchain, hmap⟩, ?_, ?_, ?_⟩
  · rw [heq]
    exact h.baseEq
  · dsimp only
    rw [htotal, htot]
    simp only [liveExtent_append, liveExtent_cons, liveExtent_nil]
    omega
  · dsimp only
    omega
  · intro r hr
    rcases List.mem_append.mp hr with hr | hr
    · exact h.above r hr
    · rw [List.mem_singleton.mp hr, heq]
      dsimp only
      omega

theorem Chain.pos {base : ℕ} {s : HeapState} {ds : List ℕ} (h : Chain base s ds)
    (hb : 0 < base) : ∀ d ∈ base :: ds, 0 < d := by
  intro d hd
  rcases List.mem_cons.mp hd with rfl | hd
  · exact hb
  · exact hb.trans (List.rel_of_pairwise_cons h.increasing hd)

theorem Chain.unlink {base d : ℕ} {s t : HeapState} {xs ys : List ℕ}
    (h : Chain base s (xs ++ d :: ys)) (hb : 0 < base) (hdesc : t.desc = unlinkDesc s.desc d) :
    Forward (nextDesc t.desc) base (xs ++ ys) ∧ Backward (prevDesc t.desc) base (xs ++ ys) := by
  have hpos := h.pos hb
  have hnd := h.nodup
  obtain ⟨hbase, hnd'⟩ := List.nodup_cons.mp hnd
  have hnext := h.forward.next_mid
  obtain ⟨hprev, hprev0⟩ := ptr_eq_some.mp h.backward.prev_mid
  have hself : (s.desc d).prev ≠ d := by
    rw [hprev]
    intro he
    rw [← List.cons_append] at hnd
    exact List.disjoint_of_nodup_append hnd (he ▸ List.getLastD_mem_cons) List.mem_cons_self
  constructor
  · apply h.forward.unlink hnd
    · rw [nextDesc, hdesc, unlinkDesc_next hself, if_pos hprev.symm]
      rfl
    · intro q _ hq
      rw [nextDesc, hdesc, unlinkDesc_next hself, if_neg (hprev ▸ hq)]
      rfl
  · apply h.backward.unlink hnd'
    · intro y hy
      rw [← hnext] at hy
      obtain ⟨hy1, hy0⟩ := ptr_eq_some.mp hy
      rw [prevDesc, hdesc, unlinkDesc_prev hself _ hy0, if_pos hy1.symm]
      rfl
    · intro q hq hne
      have hmem : q ∈ base :: (xs ++ d :: ys) := by
        rw [List.mem_append] at hq
        simp only [List.mem_cons, List.mem_append]
        tauto
      have hq0 : q ≠ 0 := (hpos q hmem).ne'
      have hqn : q ≠ (s.desc d).next := by
        intro he
        rw [← hnext] at hne
        exact hne (ptr_eq_some.mpr ⟨he.symm, hq0⟩)
      rw [prevDesc, hdesc, unlinkDesc_prev hself _ hq0, if_neg hqn]
      rfl

theorem walkToLast_eq {base : ℕ} {s : HeapState} {ps : List ℕ} (hb : s.pool.baseAddress = base)
    (h : Forward (nextDesc s.desc) base ps) (hlen : ps.length ≤ size) :
    walkToLast s = ps.getLastD base := by
  subst hb
  exact lastOf_eq h hlen

/-- `release` finds the first descriptor with the start address. -/
theorem release_found {base a : ℕ} {s : HeapState} {xs ys : List ℕ} {d : ℕ} (hbase : s.pool.baseAddress = base)
    (hstart : (s.desc base).startAddr = base) (h : Chain base s (xs ++ d :: ys)) (hab : a ≠ base)
    (hd : (s.desc d).startAddr = a) (hxs : ∀ x ∈ xs, (s.desc x).startAddr ≠ a) :
    findFrom (nextDesc s.desc) (fun p => (s.desc p).startAddr == a) Word.size s.pool.baseAddress = some d := by
  rw [hbase, findFrom_eq h.forward _ h.length_lt, List.find?_cons]
  have hne : ((s.desc base).startAddr == a) = false := by
    rw [hstart]
    exact beq_false_of_ne hab.symm
  rw [hne]
  refine List.find?_eq_some_iff_append.mpr ⟨by simpa using hd, xs, ys, rfl, fun x hx => ?_⟩
  simpa using hxs x hx

theorem release_eq_some_iff {base a : ℕ} {s t : HeapState} {xs ys : List ℕ} {d : ℕ} (hbase : s.pool.baseAddress = base)
    (hstart : (s.desc base).startAddr = base) (h : Chain base s (xs ++ d :: ys)) (hab : a ≠ base)
    (hd : (s.desc d).startAddr = a) (hxs : ∀ x ∈ xs, (s.desc x).startAddr ≠ a) :
    release s a = some t ↔ KeepsOff base a (s.desc d).size ∧ t = resetLast (releaseRegion s a d) a := by
  unfold release
  rw [release_found hbase hstart h hab hd hxs]
  dsimp only
  rw [hbase]
  split_ifs with hoff
  · rw [Option.some.injEq, eq_comm, and_iff_right hoff]
  · exact iff_of_false (by simp) fun hc => hoff hc.1

/-- What `release` does on the start address of a live region: the first descriptor with that
address goes, and `plast_region` is the last of those that stay. -/
theorem release_eq {base a : ℕ} {s t : HeapState} {xs ys : List ℕ} {d : ℕ} (hb : 0 < base)
    (hbase : s.pool.baseAddress = base) (hstart : (s.desc base).startAddr = base)
    (h : Chain base s (xs ++ d :: ys)) (hab : a ≠ base) (hd : (s.desc d).startAddr = a)
    (hxs : ∀ x ∈ xs, (s.desc x).startAddr ≠ a) (ht : release s a = some t) :
    t.desc = unlinkDesc s.desc d ∧ t.pool.baseAddress = base ∧
      t.pool.plastRegion = (xs ++ ys).getLastD base ∧
      t.pool.regionSizeTotal = usub s.pool.regionSizeTotal (u32 (extent (s.desc d).size)) := by
  obtain ⟨-, hrel⟩ := (release_eq_some_iff hbase hstart h hab hd hxs).mp ht
  have hext : pgnum (s.desc d).size * pageSize = extent (s.desc d).size := by
    rw [Nat.mul_comm]
    exact extent_eq _
  obtain ⟨hfwd, -⟩ := h.unlink (t := releaseRegion s a d) hb rfl
  have hlen := h.length_lt
  rw [List.length_append, List.length_cons] at hlen
  have hwalk : walkToLast (releaseRegion s a d) = (xs ++ ys).getLastD base :=
    walkToLast_eq hbase hfwd (by rw [List.length_append]; omega)
  have htotal : (releaseRegion s a d).pool.regionSizeTotal =
      usub s.pool.regionSizeTotal (u32 (extent (s.desc d).size)) := by
    rw [← hext, releaseRegion]
  rw [hrel, resetLast]
  split_ifs with hlast
  · exact ⟨rfl, hbase, hwalk, htotal⟩
  · refine ⟨rfl, hbase, ?_, htotal⟩
    have hmem : s.pool.plastRegion = (xs ++ d :: ys).getLastD base := h.last
    have hkeep : ys ≠ [] := by
      rintro rfl
      rw [List.getLastD_concat] at hmem
      apply hlast
      rw [show (releaseRegion s a d).pool.plastRegion = d from hmem]
      exact (unlinkDesc_startAddr s.desc d d).trans hd
    change s.pool.plastRegion = _
    obtain ⟨y, ys, rfl⟩ := List.exists_cons_of_ne_nil hkeep
    rw [hmem]
    simp

/-- The list goes on without the descriptor that was found, and no other region changes. -/
theorem Chain.released {base a : ℕ} {s t : HeapState} {xs ys : List ℕ} {d : ℕ} (hb : 0 < base)
    (hbase : s.pool.baseAddress = base) (hstart : (s.desc base).startAddr = base)
    (h : Chain base s (xs ++ d :: ys)) (hab : a ≠ base) (hd : (s.desc d).startAddr = a)
    (hxs : ∀ x ∈ xs, (s.desc x).startAddr ≠ a) (ht : release s a = some t) :
    Chain base t (xs ++ ys) ∧ regionAt t.desc = regionAt s.desc := by
  obtain ⟨hdesc, -, hlast, -⟩ := release_eq hb hbase hstart h hab hd hxs ht
  obtain ⟨hfwd, hbwd⟩ := h.unlink hb hdesc
  have hsub : (base :: (xs ++ ys)).Sublist (base :: (xs ++ d :: ys)) := by simp
  refine ⟨⟨hfwd, hbwd, h.increasing.sublist hsub, fun q hq => h.bounded q (hsub.subset hq), hlast⟩, ?_⟩
  funext q
  rw [hdesc, regionAt, unlinkDesc_startAddr, unlinkDesc_size]
  rfl

/-- Where the descriptor of a live region stands that is released. -/
theorem Linked.released {base a : ℕ} {s : HeapRun} (h : Linked base s) (ha : a ∈ s.live.map Region.start)
    {ds : List ℕ} (hlive : s.live = ds.map (regionAt s.heap.desc)) :
    ∃ xs d ys, ds = xs ++ d :: ys ∧ (s.heap.desc d).startAddr = a ∧ (∀ x ∈ xs, (s.heap.desc x).startAddr ≠ a) ∧
      ds.eraseP (fun e => (s.heap.desc e).startAddr == a) = xs ++ ys ∧ a ≠ base := by
  obtain ⟨r, hr, hra⟩ := List.mem_map.mp ha
  have hab : a ≠ base := by
    have := h.above r hr
    omega
  rw [hlive] at hr
  obtain ⟨e, he, rfl⟩ := List.mem_map.mp hr
  obtain ⟨d, xs, ys, hxs, hd, rfl, herase⟩ :=
    List.exists_of_eraseP (p := fun e => (s.heap.desc e).startAddr == a) he (beq_iff_eq.mpr hra)
  exact ⟨xs, d, ys, rfl, beq_iff_eq.mp hd, fun x hx hxa => hxs x hx (beq_iff_eq.mpr hxa), herase, hab⟩

theorem release_chain {base a : ℕ} {s : HeapRun} {t : HeapState} (h : Linked base s)
    (ha : a ∈ s.live.map Region.start) {ds : List ℕ} (hds : Chain base s.heap ds)
    (hlive : s.live = ds.map (regionAt s.heap.desc)) (ht : release s.heap a = some t) :
    Chain base t (ds.eraseP fun e => (s.heap.desc e).startAddr == a) ∧
      s.live.eraseP (·.start == a) =
        (ds.eraseP fun e => (s.heap.desc e).startAddr == a).map (regionAt t.desc) := by
  obtain ⟨xs, d, ys, rfl, hda, hxa, herase, hab⟩ := h.released ha hlive
  obtain ⟨hchain, hregion⟩ := hds.released h.basePos h.baseEq h.baseStart hab hda hxa ht
  constructor
  · rw [herase]
    exact hchain
  · rw [hregion, hlive, List.eraseP_map]
    rfl

theorem release_linked {base : ℕ} {s : HeapRun} {t : HeapState} (h : Linked base s) {a : ℕ}
    (ha : a ∈ s.live.map Region.start) (ht : release s.heap a = some t) :
    Linked base ⟨t, s.live.eraseP (·.start == a)⟩ := by
  obtain ⟨ds, hds, hlive⟩ := h.chain
  obtain ⟨hchain, hmap⟩ := release_chain h ha hds hlive ht
  obtain ⟨xs, d, ys, rfl, hda, hxa, herase, hab⟩ := h.released ha hlive
  obtain ⟨hdesc, hbase, -, htotal⟩ := release_eq h.basePos h.baseEq h.baseStart hds hab hda hxa ht
  have hlive' : s.live.eraseP (·.start == a) = (xs ++ ys).map (regionAt s.heap.desc) := by
    rw [hlive, List.eraseP_map, ← herase]
    rfl
  have hsum : liveExtent s.live = liveExtent ((xs ++ ys).map (regionAt s.heap.desc)) +
      extent (s.heap.desc d).size := by
    rw [hlive]
    simp only [List.map_append, List.map_cons, liveExtent_append, liveExtent_cons, regionAt]
    omega
  have htot := h.total
  have hlt := h.totalLt
  have hsub' : usub s.heap.pool.regionSizeTotal (u32 (extent (s.heap.desc d).size)) =
      4096 + liveExtent ((xs ++ ys).map (regionAt s.heap.desc)) := by
    rw [u32_of_lt (by omega), usub_of_le hlt (by omega)]
    omega
  refine ⟨h.basePos, hbase, ?_, ⟨_, hchain, hmap⟩, ?_, ?_, ?_⟩
  · rw [hdesc, unlinkDesc_startAddr]
    exact h.baseStart
  · rw [htotal, hsub', hlive']
  · rw [htotal, hsub']
    omega
  · exact fun q hq => h.above q (List.eraseP_subset hq)

theorem heapStep_linked {base : ℕ} (s : HeapRun) (i : HeapStep) (t : HeapRun)
    (h : Linked base s) (ht : heapStep s i = some t) : Linked base t := by
  cases i with
  | alloc n =>
      simp only [heapStep] at ht
      split_ifs at ht with hc
      cases ht
      exact allocate_linked h hc.1 hc.2.2
  | free a =>
      simp only [heapStep] at ht
      split_ifs at ht with hc
      obtain ⟨u, hu, rfl⟩ := Option.map_eq_some_iff.mp ht
      exact release_linked h hc hu

/-- A live set that is disjoint stays so across a step exactly when the step finds its window
clear. -/
theorem disjointness_step {base : ℕ} {s t : HeapRun} {i : HeapStep} (h : Linked base s)
    (hs : Disjointness base s) (ht : heapStep s i = some t) :
    Disjointness base t ↔ WindowClear base s i := by
  cases i with
  | alloc n =>
      simp only [heapStep] at ht
      split_ifs at ht with hc
      cases ht
      have hstart : (allocate s.heap n).1 = base + 4096 + liveExtent s.live := by
        rw [allocate_eq h hc.1 hc.2.2]
        dsimp only
        rw [h.total, Nat.add_assoc]
      unfold Disjointness WindowClear
      rw [List.pairwise_append, hstart]
      constructor
      · rintro ⟨⟨-, -, hnew⟩, -⟩ r hr
        exact hnew r hr _ (List.mem_singleton_self _)
      · intro hclear
        refine ⟨⟨hs.1, List.pairwise_singleton _ _, fun r hr q hq => ?_⟩, fun r hr => ?_⟩
        · rw [List.mem_singleton.mp hq]
          exact hclear r hr
        · rcases List.mem_append.mp hr with hr | hr
          · exact hs.2 r hr
          · rw [List.mem_singleton.mp hr]
            exact Or.inl (Nat.le_add_right _ _)
  | free a =>
      simp only [heapStep] at ht
      split_ifs at ht with hc
      obtain ⟨u, -, rfl⟩ := Option.map_eq_some_iff.mp ht
      refine ⟨fun _ => trivial, fun _ => ⟨hs.1.sublist List.eraseP_sublist, fun r hr => ?_⟩⟩
      exact hs.2 r (List.eraseP_subset hr)

/-- The kernel heap as `init_kernmem` leaves it. -/
def bootHeap : HeapRun :=
  ⟨initVmpool (fun _ => ⟨0, 0, 0, 0⟩) bootPages kernelHeapStart kernelHeapSize, []⟩

end Slos.HeapRegions
