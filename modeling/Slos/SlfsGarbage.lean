import Slos.Machine
import Slos.SlfsOpen
import Slos.SlfsPages

/-!
# Garbage collection

Runs of `slfs_open`, `slfs_write` and `slfs_delete` through any number of handles, and what
`collect_garbage` keeps and frees in the states they reach. As long as every write creates a file
there is nothing to collect, and nothing is lost.
-/

namespace Slos.Slfs
open Word ByteMemory Ramdisk ScatterGather

variable {m m' : Mem} {i : ℕ} {v w : Fs} {uninit : Uninit}

/-- A version that was written completely; `slfs_delete` writes one too. -/
structure Completed (m : Mem) (i : ℕ) : Prop where
  fileSize : (inodeAt m i).fileSize ≠ minusOne
  updateCnt : (inodeAt m i).updateCnt ≠ minusOne

/-- The newest completed version of a file that is not deleted. -/
structure Live (m : Mem) (i : ℕ) : Prop where
  completed : Completed m i
  undeleted : ¬ ((inodeAt m i).fileSize = 0 ∧ (inodeAt m i).datablkAddr = 0)
  newest : ∀ j < inodeMaxCnt, Completed m j → nameMatches (inodeAt m i).name (inodeAt m j).name →
    (inodeAt m j).updateCnt < (inodeAt m i).updateCnt ∨
      (inodeAt m j).updateCnt = (inodeAt m i).updateCnt ∧ i ≤ j

/-- The data blocks of the version in a slot. -/
def BlksOf (m : Mem) (i : ℕ) (ps : List ℕ) : Prop :=
  ∃ p qs, ps = p :: qs ∧ (inodeAt m i).datablkAddr = p ∧ Chain m p qs

/-- The newest versions are unchanged and everything else is free. -/
structure Collected (m m' : Mem) : Prop where
  inodes : ∀ i < inodeMaxCnt, Live m i → ∀ x < 56, m' (inodeAddr i + x) = m (inodeAddr i + x)
  blks : ∀ i < inodeMaxCnt, Live m i → ∀ ps, BlksOf m i ps → ∀ q ∈ ps, ∀ x < 512, m' (q + x) = m (q + x)
  freeInodes : ∀ i < inodeMaxCnt, ¬ Live m i → word m' (inodeAddr i + 8) = minusOne
  freeBlks : ∀ b ∈ blkAddrs datablkStart datablkMaxCnt,
    (∃ i < inodeMaxCnt, Live m i ∧ ∃ ps, BlksOf m i ps ∧ b ∈ ps) ∨ FreeBlk m' b

def CollectsGarbage (m : Mem) : Prop := ∀ (v : Fs) (uninit : Uninit), v.mem = m →
  ∃ v', collectGarbage uninit v = .ok () v' ∧ Collected m v'.mem

/-- Neither dangling nor deleted. -/
def Kept (inode : SlfsInode) : Prop := inode.fileSize ≠ minusOne →
  inode.updateCnt ≠ minusOne ∧ ¬ (inode.fileSize = 0 ∧ inode.datablkAddr = 0)

/-- The first pass finds nothing to do. -/
theorem collectObsolete_run {is : List ℕ} {deleted : List (ℕ × ℕ)} {last : SlfsInode}
    (his : ∀ i ∈ is, i < inodeMaxCnt) (hkept : ∀ i ∈ is, Kept (inodeAt w.mem i)) :
    ∃ last', collectObsolete uninit is deleted last w = .ok (deleted, last') w := by
  induction is generalizing last with
  | nil => exact ⟨last, rfl⟩
  | cons i is ih =>
      obtain ⟨hsize, hcnt, haddr, -⟩ := atAddr_ofBytes (m := w.mem) (a := inodeAddr i)
      have hk := hkept i List.mem_cons_self
      obtain ⟨last', hrest⟩ := ih
        (fun j hj => his j (List.mem_cons_of_mem i hj)) fun j hj => hkept j (List.mem_cons_of_mem i hj)
      refine ⟨last', ?_⟩
      rw [collectObsolete, bind_ok (readInode_run (his i List.mem_cons_self)), hsize, hcnt, haddr]
      by_cases hfree : word w.mem (inodeAddr i + 8) = minusOne
      · rw [if_pos hfree]
        exact hrest
      · obtain ⟨hlive, hkeep⟩ : word w.mem (inodeAddr i + 4) ≠ minusOne ∧
            ¬ (word w.mem (inodeAddr i + 8) = 0 ∧ word w.mem (inodeAddr i + 12) = 0) := hk hfree
        rw [if_neg hfree, if_neg hlive, if_neg hkeep]
        exact hrest

/-- A slot the last pass leaves as it is. -/
def Clean (page : Mem) (i : ℕ) : Prop :=
  word page (inodeAddr i + 4) = minusOne → FreeSlot page i

theorem cleanInode_of_clean {page : Mem} (hi : i < inodeMaxCnt) (h : Clean page i) :
    cleanInode [] page i = page := by
  have hsame : (if word page (inodeTabStart + i * inodeSize + 4) = minusOne then eraseInode page i
      else page) = page := by
    split
    · rename_i hcnt
      rw [slotAddr_eq hi] at hcnt
      funext x
      rw [eraseInode, slotAddr_eq hi, put_replicate]
      split
      · rename_i hx
        obtain ⟨k, rfl⟩ := Nat.exists_eq_add_of_le hx.1
        have hk : k < 56 := Nat.lt_of_add_lt_add_left hx.2
        exact (h hcnt k hk).symm
      · rfl
    · rfl
  rw [cleanInode]
  simp only [hsame]
  rfl

theorem foldl_cleanInode {page : Mem} {is : List ℕ} (his : ∀ i ∈ is, i < inodeMaxCnt)
    (h : ∀ i ∈ is, Clean page i) : is.foldl (cleanInode []) page = page := by
  induction is with
  | nil => rfl
  | cons i is ih =>
      rw [List.foldl_cons, cleanInode_of_clean (his i List.mem_cons_self) (h i List.mem_cons_self)]
      exact ih (fun j hj => his j (List.mem_cons_of_mem i hj)) fun j hj => h j (List.mem_cons_of_mem i hj)

/-- When the first two passes change nothing and the last one leaves every slot, only the garbage page table,
the last word of the metadata page and the swap page change. -/
theorem collectGarbage_clean {deleted : List (ℕ × ℕ)} {last : SlfsInode}
    (hobs : collectObsolete uninit (List.range inodeMaxCnt) [] uninit.inode v = .ok (deleted, last) v)
    (hdelete : deleteFiles uninit deleted last v = .ok () v) (hnone : cleanInode deleted = cleanInode [])
    (hclean : ∀ i < inodeMaxCnt, Clean v.mem i) : ∃ v', collectGarbage uninit v = .ok () v' ∧
      v'.mem = swapErased (copiedBack (swapWritten v.mem (clearedPage (loadedPage v metadataPageIdx)))
        metadataPageIdx 8) ∧ v'.file = v.file := by
  have hall : ∀ i ∈ List.range inodeMaxCnt, i < inodeMaxCnt := fun i hi => List.mem_range.mp hi
  obtain ⟨page, hpage⟩ : ∃ page, page = put (loadedPage v metadataPageIdx) garbagePageTabStart
    (List.replicate garbagePageTabSize 0xFF) := ⟨_, rfl⟩
  have hslot {i x : ℕ} (hi : i < inodeMaxCnt) (hx : x < 56) : page (inodeAddr i + x) = v.mem (inodeAddr i + x) := by
    have hi' : i < 32 := hi
    have haddr := inodeAddr_eq hi
    have htab : garbagePageTabStart = 1984 := rfl
    rw [hpage, put_of_lt (by rw [htab]; omega), loadedPage_apply (by omega)]
  have hclean' : ∀ i ∈ List.range inodeMaxCnt, Clean page i := by
    intro i hi hcnt x hx
    have hcnt' : word v.mem (inodeAddr i + 4) = minusOne := by
      rw [← hcnt]
      refine word_shift fun j hj => ?_
      rw [Nat.add_assoc]
      exact (hslot (hall i hi) (by omega)).symm
    rw [hslot (hall i hi) hx]
    exact hclean i (hall i hi) hcnt' x hx
  have hfold := foldl_cleanInode hall hclean'
  have hstore := storePage_metadata_run (w := { v with page := page })
  rw [collectGarbage, bind_ok hobs]
  dsimp only
  rw [bind_ok hdelete, bind_ok loadMetadata_run, modifyPage_bind, modifyPage_bind, hnone]
  dsimp only
  rw [← hpage, hfold]
  refine ⟨_, orIoErr_ok hstore, ?_, rfl⟩
  rw [hpage, ← clearedPage]

theorem collectGarbage_run (hkept : ∀ i < inodeMaxCnt, Kept (inodeAt v.mem i))
    (hclean : ∀ i < inodeMaxCnt, Clean v.mem i) : ∃ v', collectGarbage uninit v = .ok () v' ∧
      v'.mem = swapErased (copiedBack (swapWritten v.mem (clearedPage (loadedPage v metadataPageIdx)))
        metadataPageIdx 8) := by
  have hall : ∀ i ∈ List.range inodeMaxCnt, i < inodeMaxCnt := fun i hi => List.mem_range.mp hi
  obtain ⟨last, hobs⟩ : ∃ last, collectObsolete uninit (List.range inodeMaxCnt) [] uninit.inode v =
      .ok ([], last) v := collectObsolete_run hall fun i hi => hkept i (hall i hi)
  obtain ⟨v', hrun, hmem, -⟩ := collectGarbage_clean hobs rfl rfl hclean
  exact ⟨v', hrun, hmem⟩

/-- Every file has one version, written completely, and everything else is erased; `files` lists the data
blocks of the version in a slot. -/
structure Tidy (m : Mem) (files : ℕ → Option (List ℕ)) : Prop where
  free : ∀ i < inodeMaxCnt, files i = none → FreeSlot m i
  used : ∀ i < inodeMaxCnt, ∀ ps, files i = some ps →
    Completed m i ∧ (inodeAt m i).fileSize ≠ 0 ∧ BlksOf m i ps
  inside : ∀ i < inodeMaxCnt, ∀ ps, files i = some ps → ∀ q ∈ ps,
    q ∈ blkAddrs datablkStart datablkMaxCnt ∧ q + 512 ≤ swapPageStart
  rest : ∀ b ∈ blkAddrs datablkStart datablkMaxCnt,
    FreeBlk m b ∨ ∃ i < inodeMaxCnt, ∃ ps, files i = some ps ∧ b ∈ ps
  names : ∀ i < inodeMaxCnt, ∀ j < inodeMaxCnt, files i ≠ none → files j ≠ none →
    nameMatches (inodeAt m i).name (inodeAt m j).name → i = j

variable {files : ℕ → Option (List ℕ)}

theorem FreeSlot.not_completed (h : FreeSlot m i) : ¬ Completed m i := fun hc =>
  hc.fileSize (h.word_eq (by decide))

theorem Tidy.completed_iff (h : Tidy m files) (hi : i < inodeMaxCnt) :
    Completed m i ↔ files i ≠ none := by
  constructor
  · intro hc hnone
    exact (h.free i hi hnone).not_completed hc
  · intro hsome
    obtain ⟨ps, hps⟩ := Option.ne_none_iff_exists'.mp hsome
    exact (h.used i hi ps hps).1

theorem Tidy.live_iff (h : Tidy m files) (hi : i < inodeMaxCnt) : Live m i ↔ files i ≠ none := by
  constructor
  · intro hlive
    exact (h.completed_iff hi).mp hlive.completed
  · intro hsome
    obtain ⟨ps, hps⟩ := Option.ne_none_iff_exists'.mp hsome
    obtain ⟨hc, hsize, -⟩ := h.used i hi ps hps
    refine ⟨hc, fun hdel => hsize hdel.1, fun j hj hcj hname => Or.inr ?_⟩
    obtain rfl := h.names i hi j hj hsome ((h.completed_iff hj).mp hcj) hname
    exact ⟨rfl, le_rfl⟩

theorem BlksOf.unique {ps qs : List ℕ} (h : BlksOf m i ps) (h' : BlksOf m i qs) : ps = qs := by
  obtain ⟨p, ps, rfl, hp, hchain⟩ := h
  obtain ⟨q, qs, rfl, hq, hchain'⟩ := h'
  obtain rfl := hp.symm.trans hq
  rw [hchain.links.unique hchain'.links]

/-- What a collection with nothing to collect leaves of the device. -/
structure Swept (m m' : Mem) : Prop where
  inodes : ∀ x, 192 ≤ x → x < 1984 → m' x = m x
  below : ∀ x, 4096 ≤ x → x < swapPageStart → m' x = m x
  swap : ∀ x, swapPageStart ≤ x → x < 0x400000 → m' x = 0xFF

theorem swept_collected : Swept v.mem (swapErased (copiedBack
    (swapWritten v.mem (clearedPage (loadedPage v metadataPageIdx))) metadataPageIdx 8)) := by
  have hstart : swapPageStart = 4190208 := rfl
  have htab : garbagePageTabStart = 1984 := rfl
  refine ⟨fun x hlo hhi => ?_, fun x hlo hhi => ?_, fun x hlo hhi => ?_⟩
  · rw [metadataStored_apply, if_neg (by omega), if_pos (by omega), clearedPage_apply, if_neg (by omega),
      if_neg (by omega), loadedPage_apply (by omega)]
  · rw [metadataStored_apply, if_neg (by omega), if_neg (by omega)]
  · rw [metadataStored_apply, if_pos (by omega)]

theorem Swept.slot (h : Swept m m') (hi : i < inodeMaxCnt) :
    ∀ x < 56, m' (inodeAddr i + x) = m (inodeAddr i + x) := by
  intro x hx
  have hi' : i < 32 := hi
  have haddr := inodeAddr_eq hi
  exact h.inodes _ (by omega) (by omega)

theorem Swept.freeBlk (h : Swept m m') {b : ℕ} (hb : b ∈ blkAddrs datablkStart datablkMaxCnt)
    (hfree : FreeBlk m b) : FreeBlk m' b := by
  obtain ⟨hlo, hhi⟩ : 4096 ≤ b ∧ b + 512 ≤ 0x400000 := mem_blkAddrs hb
  have hword {a : ℕ} (ha : b + 504 ≤ a) (ha' : a + 4 ≤ b + 512) (hm : word m a = minusOne) :
      word m' a = minusOne := by
    refine word_eq_max.mpr fun j hj => ?_
    rcases lt_or_ge (a + j) swapPageStart with hlt | hge
    · rw [h.below _ (by omega) hlt]
      exact word_eq_max.mp hm j hj
    · exact h.swap _ hge (by omega)
  have hlow : b + datablkTailOffLow = b + 508 := rfl
  exact ⟨hword le_rfl (Nat.add_le_add_left (show 504 + 4 ≤ 512 by decide) b) hfree.1,
    hword (by omega) (by omega) hfree.2⟩

theorem Tidy.swept (h : Tidy m files) (hs : Swept m m') : Tidy m' files := by
  have hin {i : ℕ} (hi : i < inodeMaxCnt) := inodeAt_congr (hs.slot hi)
  refine ⟨fun i hi hnone x hx => ?_, fun i hi ps hps => ?_, h.inside, fun b hb => ?_, ?_⟩
  · rw [hs.slot hi x hx]
    exact h.free i hi hnone x hx
  · obtain ⟨hsize, hcnt, haddr, -⟩ := hin hi
    obtain ⟨hc, hpos, p, qs, rfl, hp, hchain⟩ := h.used i hi ps hps
    refine ⟨⟨hsize ▸ hc.fileSize, hcnt ▸ hc.updateCnt⟩, hsize ▸ hpos, p, qs, rfl, haddr.trans hp, ?_⟩
    refine hchain.congr fun q hq => word_congr fun x hlo hhi => ?_
    obtain ⟨hmem, hswap⟩ := h.inside i hi _ hps q hq
    have hstart : 4096 ≤ q := (mem_blkAddrs hmem).1
    exact hs.below x (by omega) (by omega)
  · exact (h.rest b hb).imp_left (hs.freeBlk hb)
  · intro i hi j hj hsi hsj hname
    refine h.names i hi j hj hsi hsj ?_
    rw [← nameMatches_congr (fun k hk => (hin hi).2.2.2 k (by omega))
      fun k hk => (hin hj).2.2.2 k (by omega)]
    exact hname

theorem Tidy.kept (h : Tidy m files) (hi : i < inodeMaxCnt) : Kept (inodeAt m i) := by
  intro hsize
  have hsome : files i ≠ none := fun hnone => hsize ((h.free i hi hnone).word_eq (by decide))
  obtain ⟨ps, hps⟩ := Option.ne_none_iff_exists'.mp hsome
  obtain ⟨hc, hpos, -⟩ := h.used i hi ps hps
  exact ⟨hc.updateCnt, fun hdel => hpos hdel.1⟩

theorem Tidy.clean (h : Tidy m files) (hi : i < inodeMaxCnt) : Clean m i := by
  intro hcnt
  by_contra hfree
  have hsome : files i ≠ none := fun hnone => hfree (h.free i hi hnone)
  exact ((h.completed_iff hi).mpr hsome).updateCnt hcnt

theorem Tidy.collect (h : Tidy v.mem files) :
    ∃ v', collectGarbage uninit v = .ok () v' ∧ Swept v.mem v'.mem := by
  obtain ⟨v', hrun, hmem⟩ := collectGarbage_run (v := v) (fun i hi => h.kept hi)
    fun i hi => h.clean hi
  exact ⟨v', hrun, hmem ▸ swept_collected⟩

theorem Tidy.collected (h : Tidy m files) (hs : Swept m m') : Collected m m' := by
  have h' := h.swept hs
  refine ⟨fun i hi hlive => hs.slot hi, fun i hi hlive ps hps q hq x hx => ?_, fun i hi hdead => ?_,
    fun b hb => ?_⟩
  · obtain ⟨qs, hqs⟩ := Option.ne_none_iff_exists'.mp ((h.live_iff hi).mp hlive)
    obtain rfl := hps.unique (h.used i hi qs hqs).2.2
    obtain ⟨hmem, hswap⟩ := h.inside i hi _ hqs q hq
    have hstart : 4096 ≤ q := (mem_blkAddrs hmem).1
    exact hs.below _ (by omega) (by omega)
  · have hnone : files i = none := not_not.mp fun hsome => hdead ((h.live_iff hi).mpr hsome)
    exact (h'.free i hi hnone).word_eq (by decide)
  · rcases h.rest b hb with hfree | ⟨i, hi, ps, hps, hbps⟩
    · exact Or.inr (hs.freeBlk hb hfree)
    · have hlive : Live m i := (h.live_iff hi).mpr (hps ▸ Option.some_ne_none ps)
      exact Or.inl ⟨i, hi, hlive, ps, (h.used i hi ps hps).2.2, hbps⟩

theorem Tidy.collectsGarbage (h : Tidy m files) : CollectsGarbage m := by
  rintro v uninit rfl
  obtain ⟨v', hrun, hs⟩ := h.collect
  exact ⟨v', hrun, h.collected hs⟩

section Created

variable {pf : SlfsFile} {p : ℕ} {qs : List ℕ} {bs : List UInt8}

theorem Tidy.freeInode_none (h : Tidy m files) (hi : freeInode m = some i) : files i = none := by
  by_contra hsome
  have hlt := freeInode_lt hi
  have hfree := freeInode_fileSize hi
  rw [slotAddr_eq hlt] at hfree
  exact ((h.completed_iff hlt).mpr hsome).fileSize hfree

/-- The first write of a file leaves the other slots. -/
theorem writtenNew_slot {j : ℕ} (hi : i < inodeMaxCnt) (hj : j < inodeMaxCnt) (hji : j ≠ i)
    (hin : ∀ q ∈ p :: qs, 4096 ≤ q) :
    ∀ x < 56, writtenNew m i pf uninit p qs bs (inodeAddr j + x) = m (inodeAddr j + x) := by
  intro x hx
  have hslot := inodeAddr_lt hj
  have haddr := inodeAddr_eq hi
  have haddr' := inodeAddr_eq hj
  have hpage : ramdiskPageSize = 4096 := rfl
  refine writtenNew_of_notMem (by omega) fun q hq => Or.inl ?_
  have hq' := hin q hq
  omega

/-- The first write of a file leaves the other blocks. -/
theorem writtenNew_blk {b x : ℕ} (hi : i < inodeMaxCnt)
    (hblks : ∀ q ∈ p :: qs, q ∈ blkAddrs datablkStart datablkMaxCnt)
    (hb : b ∈ blkAddrs datablkStart datablkMaxCnt) (hnot : b ∉ p :: qs) (hlo : b ≤ x) (hhi : x < b + 512) :
    writtenNew m i pf uninit p qs bs x = m x := by
  have hslot : inodeAddr i + 56 < 4096 := inodeAddr_lt hi
  have hstart : 4096 ≤ b := (mem_blkAddrs hb).1
  refine writtenNew_of_notMem (by omega) fun q hq => ?_
  rcases apart_of_pairwise (blkAddrs_pairwise datablkStart datablkMaxCnt) hb (hblks q hq) with rfl | h | h
  · exact absurd hq hnot
  · exact Or.inl (hhi.trans_le h)
  · exact Or.inr (h.trans hlo)

theorem Tidy.create (h : Tidy m files) (hi : freeInode m = some i)
    (hblks : ∀ q ∈ p :: qs, q ∈ blkAddrs datablkStart datablkMaxCnt ∧ q + 512 ≤ swapPageStart ∧ FreeBlk m q)
    (hpair : (p :: qs).Pairwise fun a b => a + 512 ≤ b) (haddr : pf.datablkAddr = p)
    (hsize : 0 < pf.fileSize ∧ pf.fileSize < minusOne) (hcnt : pf.updateCnt < minusOne)
    (hname : ∀ j < inodeMaxCnt, Completed m j → nameMatches pf.name (inodeAt m j).name = false) :
    Tidy (writtenNew m i pf uninit p qs bs) (Function.update files i (some (p :: qs))) := by
  have hlt := freeInode_lt hi
  have hnone := h.freeInode_none hi
  have hbounds : ∀ q ∈ p :: qs, 4096 ≤ q ∧ q + 512 ≤ 0x400000 := fun q hq => mem_blkAddrs (hblks q hq).1
  have hin : ∀ q ∈ p :: qs, 4096 ≤ q := fun q hq => (hbounds q hq).1
  have hp : p + 512 ≤ 0x400000 := (hbounds p List.mem_cons_self).2
  have hword : minusOne < Word.size := by decide
  have hlow : pf.datablkAddr < Word.size := by
    rw [haddr]
    unfold Word.size
    omega
  obtain ⟨hnewSize, hnewCnt, hnewAddr, hnewName⟩ := writtenNew_inode (m := m) uninit bs
    hlt hin (hsize.2.trans hword) (hcnt.trans hword) hlow
  have hsame {j : ℕ} (hj : j < inodeMaxCnt) (hji : j ≠ i) : ∀ x < 56,
      writtenNew m i pf uninit p qs bs (inodeAddr j + x) = m (inodeAddr j + x) :=
    writtenNew_slot hlt hj hji hin
  have hslot {j : ℕ} (hj : j < inodeMaxCnt) (hji : j ≠ i) := inodeAt_congr (hsame hj hji)
  have hother {b : ℕ} (hb : b ∈ blkAddrs datablkStart datablkMaxCnt) (hnot : b ∉ p :: qs) {x : ℕ}
      (hlo : b ≤ x) (hhi : x < b + 512) : writtenNew m i pf uninit p qs bs x = m x :=
    writtenNew_blk hlt (fun q hq => (hblks q hq).1) hb hnot hlo hhi
  have hold {j : ℕ} (hj : j < inodeMaxCnt) {ps : List ℕ} (hps : files j = some ps) :
      ∀ q ∈ ps, q ∉ p :: qs := by
    obtain ⟨-, -, r, rs, rfl, -, hchain⟩ := h.used j hj ps hps
    exact fun q hq hmem => hchain.not_free q hq (hblks q hmem).2.2
  refine ⟨fun j hj hnone' x hx => ?_, fun j hj ps hps => ?_, fun j hj ps hps q hq => ?_,
    fun b hb => ?_, fun j hj k hk hsj hsk hmatch => ?_⟩
  · have hji : j ≠ i := by
      rintro rfl
      rw [Function.update_self] at hnone'
      cases hnone'
    rw [Function.update_of_ne hji] at hnone'
    rw [writtenNew_slot hlt hj hji hin x hx]
    exact h.free j hj hnone' x hx
  · by_cases hji : j = i
    · subst hji
      rw [Function.update_self] at hps
      cases hps
      refine ⟨⟨?_, ?_⟩, ?_, p, qs, rfl, hnewAddr.trans haddr, writtenNew_chain hlt hpair hbounds⟩
      · rw [hnewSize]
        exact hsize.2.ne
      · rw [hnewCnt]
        exact hcnt.ne
      · rw [hnewSize]
        exact hsize.1.ne'
    · rw [Function.update_of_ne hji] at hps
      obtain ⟨hs, hc, ha, -⟩ := hslot hj hji
      have hkeep := hold hj hps
      have hinside := h.inside j hj ps hps
      obtain ⟨hcompleted, hpos, r, rs, rfl, hr, hchain⟩ := h.used j hj ps hps
      refine ⟨⟨hs ▸ hcompleted.fileSize, hc ▸ hcompleted.updateCnt⟩, hs ▸ hpos, r, rs, rfl, ha.trans hr,
        hchain.congr fun q hq => word_congr fun x hlo hhi => ?_⟩
      exact hother (hinside q hq).1 (hkeep q hq) (by omega) (by omega)
  · by_cases hji : j = i
    · subst hji
      rw [Function.update_self] at hps
      cases hps
      exact ⟨(hblks q hq).1, (hblks q hq).2.1⟩
    · rw [Function.update_of_ne hji] at hps
      exact h.inside j hj ps hps q hq
  · by_cases hmem : b ∈ p :: qs
    · exact Or.inr ⟨i, hlt, p :: qs, Function.update_self .., hmem⟩
    · rcases h.rest b hb with hfree | ⟨j, hj, ps, hps, hbps⟩
      · exact Or.inl ((freeBlk_congr fun x hlo hhi => hother hb hmem (by omega) hhi).mpr hfree)
      · have hji : j ≠ i := by
          rintro rfl
          rw [hnone] at hps
          cases hps
        exact Or.inr ⟨j, hj, ps, (Function.update_of_ne hji ..).trans hps, hbps⟩
  · have hnew {k : ℕ} (hk : k < inodeMaxCnt) (hki : k ≠ i)
        (hsk : Function.update files i (some (p :: qs)) k ≠ none) :
        nameMatches (inodeAt (writtenNew m i pf uninit p qs bs) i).name
          (inodeAt (writtenNew m i pf uninit p qs bs) k).name = false := by
      rw [Function.update_of_ne hki] at hsk
      rw [nameMatches_congr hnewName fun x hx => (hslot hk hki).2.2.2 x (by omega)]
      exact hname k hk ((h.completed_iff hk).mpr hsk)
    by_cases hji : j = i
    · subst hji
      by_cases hki : k = j
      · exact hki.symm
      · rw [hnew hk hki hsk] at hmatch
        cases hmatch
    · by_cases hki : k = i
      · subst hki
        rw [nameMatches_comm, hnew hj hji hsj] at hmatch
        cases hmatch
      · rw [Function.update_of_ne hji] at hsj
        rw [Function.update_of_ne hki] at hsk
        refine h.names j hj k hk hsj hsk ?_
        rw [← nameMatches_congr (fun x hx => (hslot hj hji).2.2.2 x (by omega))
          fun x hx => (hslot hk hki).2.2.2 x (by omega)]
        exact hmatch

end Created

/-- The filesystem with the open files. -/
structure SlfsSys where
  fs : Fs
  handles : ℕ → SlfsFile

inductive SlfsCall
  | slfsOpen (h : ℕ) (pname : ℕ → UInt8)
  | slfsWrite (h : ℕ) (pbuf : Mem) (len : ℕ) (uninit : Uninit)
  | slfsDelete (h : ℕ) (uninit : Uninit)

/-- A call on one handle; it returns with or without an error, or never. -/
def runCall (s : SlfsSys) (h : ℕ) (x : FsM Unit) : Option SlfsSys :=
  match x { s.fs with file := s.handles h } with
  | .ok _ w => some ⟨w, Function.update s.handles h w.file⟩
  | .error .hang _ => none
  | .error _ w => some ⟨w, Function.update s.handles h w.file⟩

def slfsStep (s : SlfsSys) : SlfsCall → Option SlfsSys
  | .slfsOpen h pname => runCall s h (Slfs.slfsOpen pname)
  | .slfsWrite h pbuf len uninit => runCall s h (Slfs.slfsWrite pbuf len uninit)
  | .slfsDelete h uninit => runCall s h (Slfs.slfsDelete uninit)

/-- A write that creates a file: no version of the name is there, and there are blocks for it outside the
swap page. -/
structure Creates (m : Mem) (pf : SlfsFile) (len : ℕ) : Prop where
  fresh : Fresh pf
  updateCnt : pf.updateCnt = 0
  absent : ∀ i < inodeMaxCnt, Completed m i → nameMatches pf.name (inodeAt m i).name = false
  blks : (len + 503) / 504 ≤ (freeBlks m datablkStart datablkMaxCnt).length
  below : ∀ q ∈ takenBlks m ((len + 503) / 504), q + 512 ≤ swapPageStart

def LeavesTidy (s : SlfsSys) : SlfsCall → Prop
  | .slfsOpen _ _ => True
  | .slfsWrite h _ len _ => (s.handles h).openCnt = 0 ∨ len = 0 ∨ freeInode s.fs.mem = none ∨
      Creates s.fs.mem (s.handles h) len
  | .slfsDelete _ _ => freeInode s.fs.mem = none

theorem runCall_eq {s t : SlfsSys} {h : ℕ} {x : FsM Unit} (hrun : runCall s h x = some t) :
    t = ⟨stateAfter (x { s.fs with file := s.handles h }),
      Function.update s.handles h (stateAfter (x { s.fs with file := s.handles h })).file⟩ := by
  rw [runCall] at hrun
  cases hx : x { s.fs with file := s.handles h } with
  | ok a w =>
      rw [hx] at hrun
      cases hrun
      rfl
  | error e w =>
      rw [hx] at hrun
      cases e <;> cases hrun <;> rfl

theorem runCall_mem {s t : SlfsSys} {h : ℕ} {x : FsM Unit} (hrun : runCall s h x = some t) :
    t.fs = stateAfter (x { s.fs with file := s.handles h }) := congrArg SlfsSys.fs (runCall_eq hrun)

theorem runCall_ok {s : SlfsSys} {h : ℕ} {x : FsM Unit} {w : Fs}
    (hx : x { s.fs with file := s.handles h } = .ok () w) :
    runCall s h x = some ⟨w, Function.update s.handles h w.file⟩ := by
  rw [runCall, hx]

/-- With no inode left a call that takes one fails after a collection that finds nothing. -/
theorem Tidy.takeInode_none {w : Fs} (h : Tidy w.mem files) (hnone : freeInode w.mem = none) :
    ∃ w', takeInode uninit w = .error .noInode w' ∧ Swept w.mem w'.mem := by
  obtain ⟨v, hcollect, hs⟩ := h.collect (v := { w with page := loadedPage w metadataPageIdx })
  have hnone' : freeInode v.mem = none := by
    refine freeInode_eq_none.mpr fun i hi => ?_
    have hsize := freeInode_eq_none.mp hnone i hi
    rw [slotAddr_eq hi] at hsize ⊢
    have hsame := (inodeAt_congr (hs.slot hi)).1
    exact fun hv => hsize (hsame.symm.trans hv)
  refine ⟨{ v with page := loadedPage v metadataPageIdx }, ?_, hs⟩
  rw [takeInode_of_none hnone, bind_ok hcollect, updateFp_of_none hnone']

/-- A write that does not get an inode leaves the slots, and unless there was nothing to write it fails. -/
theorem Tidy.write_none {w : Fs} {pbuf : Mem} {len : ℕ} (h : Tidy w.mem files)
    (hnone : w.file.openCnt = 0 ∨ len = 0 ∨ freeInode w.mem = none) :
    Tidy (stateAfter (slfsWrite pbuf len uninit w)).mem files ∧
      (∀ i < inodeMaxCnt, ∀ x < 56,
        (stateAfter (slfsWrite pbuf len uninit w)).mem (inodeAddr i + x) = w.mem (inodeAddr i + x)) ∧
      (len = 0 ∨ succeeded (slfsWrite pbuf len uninit w) = false) := by
  by_cases hopen : w.file.openCnt = 0
  · rw [slfsWrite, getFile_bind, if_pos hopen]
    exact ⟨h, fun _ _ _ _ => rfl, Or.inr rfl⟩
  · by_cases hlen : len = 0
    · rw [slfsWrite, getFile_bind, if_neg hopen, if_pos hlen]
      exact ⟨h, fun _ _ _ _ => rfl, Or.inl hlen⟩
    · obtain ⟨w', htake, hs⟩ := h.takeInode_none
        (w := { w with file := { w.file with fileSize := grownSize w.file len } })
        ((hnone.resolve_left hopen).resolve_left hlen)
      rw [slfsWrite_eq hopen (Nat.pos_of_ne_zero hlen), bind_error htake]
      exact ⟨h.swept hs, fun _ hi => hs.slot hi, Or.inr rfl⟩

/-- A write that creates a file succeeds and fills in a free slot. -/
theorem Tidy.write_new {w : Fs} {pbuf : Mem} {len : ℕ} (h : Tidy w.mem files)
    (hi : freeInode w.mem = some i) (hlen : 0 < len) (hc : Creates w.mem w.file len) :
    ∃ ps w', slfsWrite pbuf len uninit w = .ok () w' ∧ Tidy w'.mem (Function.update files i (some ps)) ∧
      (∀ j < inodeMaxCnt, j ≠ i → ∀ x < 56, w'.mem (inodeAddr j + x) = w.mem (inodeAddr j + x)) ∧
      (inodeAt w'.mem i).inodeIdx = i ∧ ∀ j < 16, (inodeAt w'.mem i).name j = w.file.name j := by
  have hcount := hc.blks.trans (freeBlks_length_le w.mem datablkStart datablkMaxCnt)
  have hmax : datablkMaxCnt = 8184 := by decide
  have hlt : len < minusOne := by
    rw [hmax] at hcount
    simp only [minusOne]
    omega
  obtain ⟨p, qs, htaken, hqs⟩ := takenBlks_eq_cons (Nat.div_pos (by omega) (by decide)) hc.blks
  obtain ⟨w', hwrite, hfile, hmem⟩ := slfsWrite_fresh hc.fresh hlen
    (hlt.trans (by decide)) hi rfl htaken hqs
  have hblks : ∀ q ∈ p :: qs,
      q ∈ blkAddrs datablkStart datablkMaxCnt ∧ q + 512 ≤ swapPageStart ∧ FreeBlk w.mem q := by
    rw [← htaken]
    intro q hq
    have hfree := List.mem_of_mem_take hq
    exact ⟨mem_blkAddrs_of_mem_freeBlks hfree, hc.below q hq, (mem_freeBlks hfree).2.2⟩
  have hin : ∀ q ∈ p :: qs, 4096 ≤ q := fun q hq => (mem_blkAddrs (hblks q hq).1).1
  have hsize : w'.file.fileSize = len := by rw [hfile]; rfl
  have hcnt : w'.file.updateCnt = 1 := by
    rw [hfile]
    change u32 (w.file.updateCnt + 1) = 1
    rw [hc.updateCnt]
    rfl
  have haddr : w'.file.datablkAddr = p := by rw [hfile]; rfl
  have hidx : w'.file.inodeIdx = i := by rw [hfile]; rfl
  have hname : w'.file.name = w.file.name := by rw [hfile]; rfl
  have hslot : i < 32 := freeInode_lt hi
  have hp : p + 512 ≤ swapPageStart := (hblks p List.mem_cons_self).2.1
  have hswap : swapPageStart = 4190208 := rfl
  obtain ⟨-, -, -, hnames⟩ := writtenNew_inode (m := w.mem) uninit (bytes pbuf 0 len) (freeInode_lt hi) hin
    (hsize ▸ hlt.trans (by decide)) (hcnt ▸ by decide) (by rw [haddr]; unfold Word.size; omega)
  have hindexLt : w'.file.inodeIdx < Word.size := by
    rw [hidx]
    unfold Word.size
    omega
  have hindex := writtenNew_index (m := w.mem) uninit (bytes pbuf 0 len) (freeInode_lt hi) hin hindexLt
  refine ⟨p :: qs, w', hwrite, ?_, fun j hj hji x hx => ?_, ?_, ?_⟩
  · rw [hmem]
    refine h.create hi hblks (htaken ▸ takenBlks_pairwise w.mem _) haddr ?_ (by rw [hcnt]; decide) ?_
    · rw [hsize]
      exact ⟨hlen, hlt⟩
    · rw [hname]
      exact hc.absent
  · rw [hmem]
    exact writtenNew_slot (freeInode_lt hi) hj hji hin x hx
  · rw [hmem, hindex, hidx]
  · rw [hmem, ← hname]
    exact hnames

/-- A delete that reads the inode of the handle goes on to take one for the mark. -/
theorem slfsDelete_cases (uninit : Uninit) (w : Fs) : (∃ e, slfsDelete uninit w = .error e w) ∨
    ∃ inode : SlfsInode, slfsDelete uninit w = (takeInode uninit >>= fun _ => getFile >>= fun pf =>
      writeOrErr (inodeAddr pf.inodeIdx) (SlfsInode.toBytes { inode with
        inodeIdx := pf.inodeIdx, updateCnt := pf.updateCnt, fileSize := 0, datablkAddr := 0 })) w := by
  rw [slfsDelete, getFile_bind]
  cases hrun : readOrErr (inodeAddr w.file.inodeIdx) inodeSize w with
  | error e u =>
      have hread := readOrErr_readOnly (inodeAddr w.file.inodeIdx) inodeSize w
      rw [hrun] at hread
      obtain rfl : u = w := hread
      exact Or.inl ⟨e, bind_error hrun⟩
  | ok b u =>
      obtain rfl := (readOrErr_readOnly _ _).ok hrun
      rw [bind_ok hrun]
      exact Or.inr ⟨SlfsInode.atAddr b 0, rfl⟩

/-- With no inode left a delete fails and leaves the slots. -/
theorem Tidy.delete_none {w : Fs} (h : Tidy w.mem files) (hnone : freeInode w.mem = none) :
    Tidy (stateAfter (slfsDelete uninit w)).mem files ∧
      (∀ i < inodeMaxCnt, ∀ x < 56,
        (stateAfter (slfsDelete uninit w)).mem (inodeAddr i + x) = w.mem (inodeAddr i + x)) ∧
      succeeded (slfsDelete uninit w) = false := by
  rcases slfsDelete_cases uninit w with ⟨e, herr⟩ | ⟨inode, hsteps⟩
  · rw [herr]
    exact ⟨h, fun _ _ _ _ => rfl, rfl⟩
  · obtain ⟨w', htake, hs⟩ := h.takeInode_none hnone
    rw [hsteps, bind_error htake]
    exact ⟨h.swept hs, fun _ hi => hs.slot hi, rfl⟩

theorem LeavesTidy.step {s t : SlfsSys} {c : SlfsCall} (hs : ∃ files, Tidy s.fs.mem files)
    (hc : LeavesTidy s c) (hstep : slfsStep s c = some t) : ∃ files, Tidy t.fs.mem files := by
  obtain ⟨files, h⟩ := hs
  cases c with
  | slfsOpen n pname =>
      have hkeep := slfsOpen_mem pname { s.fs with file := s.handles n }
      rw [runCall_mem hstep, hkeep]
      exact ⟨files, h⟩
  | slfsWrite n pbuf len uninit =>
      rw [runCall_mem hstep]
      by_cases hnone : (s.handles n).openCnt = 0 ∨ len = 0 ∨ freeInode s.fs.mem = none
      · exact ⟨files, (Tidy.write_none (w := { s.fs with file := s.handles n }) h hnone).1⟩
      · obtain ⟨hopen, hlen, hsome⟩ := not_or.mp hnone |>.imp_right not_or.mp
        obtain ⟨i, hi⟩ := Option.ne_none_iff_exists'.mp hsome
        have hnew := ((hc.resolve_left hopen).resolve_left hlen).resolve_left hsome
        obtain ⟨ps, w', hwrite, htidy, -⟩ : ∃ ps w', slfsWrite pbuf len uninit { s.fs with file := s.handles n } =
            .ok () w' ∧ Tidy w'.mem (Function.update files i (some ps)) ∧ _ :=
          Tidy.write_new h hi (Nat.pos_of_ne_zero hlen) hnew
        rw [hwrite]
        exact ⟨_, htidy⟩
  | slfsDelete n uninit =>
      rw [runCall_mem hstep]
      exact ⟨files, (Tidy.delete_none (w := { s.fs with file := s.handles n }) h hc).1⟩

theorem tidy_of_erased (h : ∀ x, 192 ≤ x → x < ramdiskSize → m x = 0xFF) : Tidy m fun _ => none := by
  refine ⟨fun i hi _ x hx => ?_, fun i _ ps hps => ?_, fun i _ ps hps => ?_, fun b hb => Or.inl ?_,
    fun i _ j _ hsome => absurd rfl hsome⟩
  · have hslot : inodeAddr i + 56 < 4096 := inodeAddr_lt hi
    have haddr := inodeAddr_eq hi
    exact h _ (by omega) (lt_trans (by omega) (show 4096 < ramdiskSize by decide))
  · cases hps
  · cases hps
  · obtain ⟨hlo, hhi⟩ : 4096 ≤ b ∧ b + 512 ≤ ramdiskSize := mem_blkAddrs hb
    have hhigh : b + datablkTailOffHi = b + 504 := rfl
    have hlow : b + datablkTailOffLow = b + 508 := rfl
    exact ⟨word_eq_max.mpr fun j hj => h _ (by omega) (by omega),
      word_eq_max.mpr fun j hj => h _ (by omega) (by omega)⟩

/-- From an erased device on, as long as every write creates a file, garbage collection keeps every file
and finds everything else free. -/
theorem collects_garbage_of_creates {s : SlfsSys} {calls : List SlfsCall}
    (herased : ∀ x, 192 ≤ x → x < ramdiskSize → s.fs.mem x = 0xFF)
    (hC : Machine.StepsMeet slfsStep LeavesTidy s calls) :
    Machine.Always slfsStep (fun s => CollectsGarbage s.fs.mem) s calls :=
  Machine.always_of_stepsMeet (fun s => ∃ files, Tidy s.fs.mem files)
    (fun _ ⟨_, h⟩ => h.collectsGarbage) (fun _ _ _ hs hc hstep => hc.step hs hstep)
    ⟨_, tidy_of_erased herased⟩ hC

def erasedSys : SlfsSys := ⟨erasedFs, fun _ => erasedFs.file⟩

def createA : List SlfsCall :=
  [.slfsOpen 0 (letter 97), .slfsWrite 0 (fun _ => 42) 1 zeroUninit]

theorem creates_first : Creates erasedFs.mem (openNew erasedFs.file (letter 97)) 1 where
  fresh := openNew_fresh _ _
  updateCnt := rfl
  absent i hi hc := absurd ((tidy_of_erased fun _ _ _ => rfl).free i hi rfl) fun hfree =>
    hfree.not_completed hc
  blks := by
    have hmax : datablkMaxCnt = 8183 + 1 := rfl
    rw [hmax, freeBlks_succ, if_pos (by decide +kernel), List.length_cons]
    exact Nat.le_add_left 1 _
  below q hq := by
    have hmax : datablkMaxCnt = 8183 + 1 := rfl
    rw [takenBlks, hmax, freeBlks_succ, if_pos (by decide +kernel), List.take_succ_cons,
      List.take_zero] at hq
    rw [List.mem_singleton.mp hq]
    decide

theorem open_first {t : SlfsSys} (ht : slfsStep erasedSys (.slfsOpen 0 (letter 97)) = some t) :
    t.fs.mem = erasedFs.mem ∧ t.handles 0 = openNew erasedFs.file (letter 97) := by
  have hopen := eq_ok_of_succeeded (r := slfsOpen (letter 97) erasedFs) (by decide +kernel)
  have hstep : slfsStep erasedSys (.slfsOpen 0 (letter 97)) = some _ := runCall_ok (s := erasedSys) hopen
  obtain rfl := Option.some.inj (ht.symm.trans hstep)
  constructor
  · exact slfsOpen_mem (letter 97) erasedFs
  · dsimp only
    rw [Function.update_self]
    exact slfsOpen_new hopen (by decide +kernel)

theorem collects_garbage_after_create :
    Machine.Always slfsStep (fun s => CollectsGarbage s.fs.mem) erasedSys createA := by
  refine collects_garbage_of_creates (fun _ _ _ => rfl) fun t ht => ⟨trivial, fun u hu => ⟨?_, trivial⟩⟩
  obtain ⟨hmem, hfile⟩ := open_first ht
  refine Or.inr (Or.inr (Or.inr ?_))
  rw [hmem, hfile]
  exact creates_first

/-- After a delete the collection fails with an I/O error. -/
theorem garbage_not_collected : ¬ Machine.Always slfsStep (fun s => CollectsGarbage s.fs.mem) erasedSys
    (createA ++ [.slfsDelete 0 zeroUninit]) := by
  intro h
  have hfail : (Machine.exec slfsStep erasedSys (createA ++ [.slfsDelete 0 zeroUninit])).any
      (fun t => !succeeded (collectGarbage zeroUninit t.fs)) = true := by decide +kernel
  obtain ⟨t, ht, hnot⟩ := (Option.any_eq_true ..).mp hfail
  obtain ⟨v', hrun, -⟩ := Machine.always_iff_exec.mp h _ List.prefix_rfl t ht t.fs zeroUninit rfl
  rw [hrun] at hnot
  cases hnot

end Slos.Slfs
