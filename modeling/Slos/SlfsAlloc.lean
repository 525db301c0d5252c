import Slos.SlfsRun

/-!
# Allocating an inode and data blocks

What `update_fp` and `alloc_datablk` do: the first free inode, the first free data blocks and the links
written into their tails.
-/

namespace Slos.Slfs
open Word ByteMemory Ramdisk

theorem freeInode_lt {m : Mem} {i : ℕ} (h : freeInode m = some i) : i < inodeMaxCnt :=
  List.mem_range.mp (List.mem_of_find?_eq_some h)

theorem freeInode_fileSize {m : Mem} {i : ℕ} (h : freeInode m = some i) :
    word m (inodeTabStart + i * inodeSize + 8) = minusOne := by
  simpa using List.find?_some h

theorem freeInode_eq_none {m : Mem} : freeInode m = none ↔
    ∀ i < inodeMaxCnt, word m (inodeTabStart + i * inodeSize + 8) ≠ minusOne := by
  simp [freeInode]

theorem find?_congr {l : List α} {p q : α → Bool} (h : ∀ a ∈ l, p a = q a) :
    l.find? p = l.find? q := by
  induction l with
  | nil => rfl
  | cons a l ih =>
      rw [List.find?_cons, List.find?_cons, h a List.mem_cons_self,
        ih fun b hb => h b (List.mem_cons_of_mem a hb)]

theorem freeInode_loadedPage (w : Fs) : freeInode (loadedPage w metadataPageIdx) = freeInode w.mem := by
  refine find?_congr fun i hi => ?_
  have hlt : i < 32 := List.mem_range.mp hi
  rw [word_loadedPage]
  simp only [inodeTabStart, datablkBitmapStart, inodeBitmapStart, inodeSize, ramdiskPageSize]
  omega

theorem updateFp_of_some {w : Fs} {i : ℕ} (h : freeInode w.mem = some i) :
    updateFp w = .ok () { w with page := loadedPage w metadataPageIdx, file := takenInode w.file i } := by
  have hlt : metadataPageIdx < ramdiskPageNum := by decide
  have hload := loadPage_of_lt (w := w) hlt
  have hfree := (freeInode_loadedPage w).trans h
  rw [updateFp, bind_ok hload, getPage_bind]
  simp only [hfree, modifyFile_run]

theorem updateFp_of_none {w : Fs} (h : freeInode w.mem = none) :
    updateFp w = .error .noInode { w with page := loadedPage w metadataPageIdx } := by
  have hlt : metadataPageIdx < ramdiskPageNum := by decide
  have hload := loadPage_of_lt (w := w) hlt
  have hfree := (freeInode_loadedPage w).trans h
  rw [updateFp, bind_ok hload, getPage_bind]
  simp only [hfree, throw_run]

theorem countBlks_eq {fuel len : ℕ} (hf : len ≤ fuel) (h : 0 < len) :
    (countBlks fuel len).1 + 1 = (len + 503) / 504 ∧ 0 < (countBlks fuel len).2 := by
  induction fuel generalizing len with
  | zero => omega
  | succ n ih =>
      by_cases hlen : len > datablkPayloadSize
      · have hlen' : 504 < len := hlen
        have hsub : len - datablkPayloadSize = len - 504 := rfl
        obtain ⟨hcount, hpos⟩ := @ih (len - 504) (by omega) (by omega)
        rw [countBlks, if_pos hlen, hsub]
        refine ⟨?_, hpos⟩
        change (countBlks n (len - 504)).1 + 1 + 1 = (len + 503) / 504
        omega
      · have hlen' : ¬ 504 < len := hlen
        rw [countBlks, if_neg hlen]
        exact ⟨by omega, h⟩

theorem blksNeeded_eq {len : ℕ} (h : 0 < len) : blksNeeded len = (len + 503) / 504 := by
  obtain ⟨hcount, hpos⟩ := countBlks_eq le_rfl h
  rw [blksNeeded, if_pos hpos.ne', hcount]

/-- Both words of the tail are erased. -/
def FreeBlk (m : Mem) (a : ℕ) : Prop :=
  word m (a + datablkTailOffHi) = minusOne ∧ word m (a + datablkTailOffLow) = minusOne

instance (m : Mem) (a : ℕ) : Decidable (FreeBlk m a) := inferInstanceAs (Decidable (_ ∧ _))

def blkAddrs : (a n : ℕ) → List ℕ
  | _, 0 => []
  | a, n + 1 => a :: blkAddrs (a + datablkSize) n

def freeBlks (m : Mem) (a n : ℕ) : List ℕ := (blkAddrs a n).filter (FreeBlk m)

/-- The tails of a block and of those linked behind it. -/
def linkTails (m : Mem) (prevPrev : ℕ) : (prev : ℕ) → List ℕ → Mem
  | prev, [] => put m (prev + datablkTailOffHi) (wordBytes prevPrev ++ wordBytes 0)
  | prev, q :: qs =>
      linkTails (put m (prev + datablkTailOffHi) (wordBytes prevPrev ++ wordBytes q)) prev q qs

theorem mem_blkAddrs {a n x : ℕ} (h : x ∈ blkAddrs a n) : a ≤ x ∧ x + 512 ≤ a + 512 * n := by
  induction n generalizing a with
  | zero => cases h
  | succ n ih =>
      rcases List.mem_cons.mp h with rfl | h
      · omega
      · have hx := ih h
        simp only [datablkSize, ramdiskBlkSize] at hx
        omega

theorem blkAddrs_pairwise (a n : ℕ) : (blkAddrs a n).Pairwise fun p q => p + 512 ≤ q := by
  induction n generalizing a with
  | zero => exact List.Pairwise.nil
  | succ n ih => exact List.pairwise_cons.mpr ⟨fun q hq => (mem_blkAddrs hq).1, ih _⟩

theorem mem_freeBlks {m : Mem} {a n x : ℕ} (h : x ∈ freeBlks m a n) :
    a ≤ x ∧ x + 512 ≤ a + 512 * n ∧ FreeBlk m x := by
  obtain ⟨hx, hfree⟩ := List.mem_filter.mp h
  obtain ⟨hlo, hhi⟩ := mem_blkAddrs hx
  exact ⟨hlo, hhi, of_decide_eq_true hfree⟩

theorem mem_blkAddrs_of_mem_freeBlks {m : Mem} {a n x : ℕ} (h : x ∈ freeBlks m a n) :
    x ∈ blkAddrs a n := (List.mem_filter.mp h).1

theorem mem_blkAddrs_of_lt {a k n : ℕ} (h : k < n) : a + 512 * k ∈ blkAddrs a n := by
  induction n generalizing a k with
  | zero => exact absurd h (Nat.not_lt_zero k)
  | succ n ih =>
      cases k with
      | zero => exact List.mem_cons_self
      | succ k =>
          have hnext : a + 512 * (k + 1) = a + datablkSize + 512 * k := by
            simp only [datablkSize, ramdiskBlkSize]
            omega
          rw [hnext]
          exact List.mem_cons_of_mem a (ih (Nat.lt_of_succ_lt_succ h))

theorem mem_freeBlks_of_free {m : Mem} {a n x : ℕ} (h : x ∈ blkAddrs a n) (hfree : FreeBlk m x) :
    x ∈ freeBlks m a n := List.mem_filter.mpr ⟨h, decide_eq_true hfree⟩

theorem length_blkAddrs (a n : ℕ) : (blkAddrs a n).length = n := by
  induction n generalizing a with
  | zero => rfl
  | succ n ih => rw [blkAddrs, List.length_cons, ih]

theorem take_blkAddrs {a k n : ℕ} (h : k ≤ n) : (blkAddrs a n).take k = blkAddrs a k := by
  induction n generalizing a k with
  | zero => rw [Nat.le_zero.mp h, List.take_zero, blkAddrs]
  | succ n ih =>
      cases k with
      | zero => rfl
      | succ k => rw [blkAddrs, List.take_succ_cons, ih (Nat.le_of_succ_le_succ h), blkAddrs]

theorem freeBlks_of_all_free {m : Mem} {a n : ℕ} (h : ∀ q ∈ blkAddrs a n, FreeBlk m q) :
    freeBlks m a n = blkAddrs a n :=
  List.filter_eq_self.mpr fun q hq => decide_eq_true (h q hq)

/-- Where a block stays free there are no fewer free ones. -/
theorem freeBlks_length_mono {m m' : Mem} {a n : ℕ} (h : ∀ q ∈ blkAddrs a n, FreeBlk m q → FreeBlk m' q) :
    (freeBlks m a n).length ≤ (freeBlks m' a n).length := by
  rw [freeBlks, freeBlks, ← List.countP_eq_length_filter, ← List.countP_eq_length_filter]
  refine List.countP_mono_left fun q hq hfree => ?_
  exact decide_eq_true (h q hq (of_decide_eq_true hfree))

theorem freeBlks_pairwise (m : Mem) (a n : ℕ) : (freeBlks m a n).Pairwise fun p q => p + 512 ≤ q :=
  (blkAddrs_pairwise a n).filter _

@[simp] theorem freeBlks_zero (m : Mem) (a : ℕ) : freeBlks m a 0 = [] := rfl

theorem freeBlks_succ {m : Mem} {a n : ℕ} : freeBlks m a (n + 1) =
    if FreeBlk m a then a :: freeBlks m (a + datablkSize) n else freeBlks m (a + datablkSize) n := by
  rw [freeBlks, blkAddrs, List.filter_cons]
  simp only [decide_eq_true_eq]
  rfl

theorem freeBlks_length_le (m : Mem) (a n : ℕ) : (freeBlks m a n).length ≤ n := by
  induction n generalizing a with
  | zero => rw [freeBlks_zero, List.length_nil]
  | succ n ih =>
      rw [freeBlks_succ]
      split
      · exact Nat.succ_le_succ (ih _)
      · exact (ih _).trans n.le_succ

theorem freeBlk_congr {m m' : Mem} {a : ℕ} (h : ∀ x, a + 504 ≤ x → x < a + 512 → m' x = m x) :
    FreeBlk m' a ↔ FreeBlk m a := by
  have hhi : word m' (a + datablkTailOffHi) = word m (a + datablkTailOffHi) :=
    word_congr fun x hx hx' => h x (by simpa using hx) (by simp at hx'; omega)
  have hlow : word m' (a + datablkTailOffLow) = word m (a + datablkTailOffLow) :=
    word_congr fun x hx hx' => h x (by simp at hx; omega) (by simpa using hx')
  rw [FreeBlk, hhi, hlow, FreeBlk]

/-- A change below `a` leaves the free blocks from `a` on. -/
theorem freeBlks_congr {m m' : Mem} {a n : ℕ} (h : ∀ x, a ≤ x → m' x = m x) :
    freeBlks m' a n = freeBlks m a n := by
  refine List.filter_congr fun x hx => ?_
  have hax := (mem_blkAddrs hx).1
  rw [decide_eq_decide]
  exact freeBlk_congr fun y hy _ => h y (by omega)

theorem freeBlks_put_tail {m : Mem} {a b n prev next : ℕ} (h : b + 512 ≤ a) :
    freeBlks (put m (b + datablkTailOffHi) (wordBytes prev ++ wordBytes next)) a n =
      freeBlks m a n := by
  refine freeBlks_congr fun x hx => put_of_ge ?_
  simp only [datablkTailOffHi, datablkPayloadSize, ramdiskBlkSize, datablkTailSize,
    List.length_append, wordBytes_length]
  omega

attribute [irreducible] freeBlks

theorem linkTails_of_notMem {m : Mem} {prevPrev prev x : ℕ} {qs : List ℕ}
    (h : ∀ q ∈ prev :: qs, x < q + 504 ∨ q + 512 ≤ x) : linkTails m prevPrev prev qs x = m x := by
  induction qs generalizing m prevPrev prev with
  | nil =>
      have hx := h prev List.mem_cons_self
      exact put_of_notMem (by simpa [List.length_append] using hx)
  | cons q qs ih =>
      have hx := h prev List.mem_cons_self
      rw [linkTails, ih fun r hr => h r (List.mem_cons_of_mem _ hr)]
      exact put_of_notMem (by simpa [List.length_append] using hx)

theorem inodeAddr_eq {i : ℕ} (h : i < inodeMaxCnt) : inodeAddr i = 192 + 56 * i := by
  have hi : i < 32 := h
  rw [inodeAddr, u32_of_lt]
  · simp
    omega
  · simp [size]
    omega

theorem inodeAddr_lt {i : ℕ} (h : i < inodeMaxCnt) : inodeAddr i + 56 < ramdiskPageSize := by
  have hi : i < 32 := h
  rw [inodeAddr_eq h]
  simp only [ramdiskPageSize]
  omega

theorem linkDatablk_first {w : Fs} {a : ℕ} {st : AllocState} (hst : st.blksAlloced = 0)
    (hi : w.file.inodeIdx < inodeMaxCnt) :
    linkDatablk a st w = .ok ⟨1, a, inodeAddr w.file.inodeIdx⟩
      ({ w with file := { w.file with datablkAddr := a } }.store
        (put w.mem (inodeAddr w.file.inodeIdx + 8) (wordBytes w.file.fileSize ++ wordBytes a))) := by
  have hlt := inodeAddr_lt hi
  have haddr : u32 (inodeAddr w.file.inodeIdx + 8) = inodeAddr w.file.inodeIdx + 8 :=
    u32_of_lt (by simp only [ramdiskPageSize] at hlt; unfold size; omega)
  rw [linkDatablk, if_pos hst, getFile_bind, modifyFile_bind, haddr, bind_ok (writeOrErr_of_le _)]
  · rfl
  · simp only [ramdiskPageSize] at hlt
    simp only [List.length_append, wordBytes_length, ramdiskSize]
    omega

theorem linkDatablk_next {w : Fs} {a : ℕ} {st : AllocState} (hst : 0 < st.blksAlloced)
    (hprev : st.prevDatablkAddr + 512 ≤ ramdiskSize) :
    linkDatablk a st w = .ok ⟨st.blksAlloced + 1, a, st.prevDatablkAddr⟩
      (w.store (put w.mem (st.prevDatablkAddr + datablkTailOffHi)
        (wordBytes st.prevPrevDatablkAddr ++ wordBytes a))) := by
  rw [linkDatablk, if_neg hst.ne', bind_ok (writeOrErr_of_le _)]
  · rfl
  · simpa [List.length_append] using hprev

theorem allocDatablkLoop_succ {needed n a : ℕ} {st : AllocState} {w : Fs}
    (ha : a + 512 ≤ ramdiskSize) :
    allocDatablkLoop needed (n + 1) a st w =
      ((if FreeBlk w.mem a then linkDatablk a st else pure st) >>= fun st =>
        if st.blksAlloced = needed then endDatablks a st
        else allocDatablkLoop needed n (a + datablkSize) st) w := by
  have hread : a + datablkTailOffHi + datablkTailSize ≤ ramdiskSize := by
    simpa using ha
  have hcond : word w.mem (a + datablkTailOffHi + 0) = minusOne ∧
      word w.mem (a + datablkTailOffHi + 4) = minusOne ↔ FreeBlk w.mem a := Iff.rfl
  rw [allocDatablkLoop, bind_ok (readOrErr_of_le hread), word_ofBytes_bytes (by simp),
    word_ofBytes_bytes (by simp)]
  by_cases hf : FreeBlk w.mem a
  · rw [if_pos (hcond.mpr hf), if_pos hf]
  · rw [if_neg (mt hcond.mp hf), if_neg hf]

theorem allocDatablkLoop_used {needed n a : ℕ} {st : AllocState} {w : Fs}
    (ha : a + 512 ≤ ramdiskSize) (hused : ¬ FreeBlk w.mem a) (hne : st.blksAlloced ≠ needed) :
    allocDatablkLoop needed (n + 1) a st w = allocDatablkLoop needed n (a + datablkSize) st w := by
  rw [allocDatablkLoop_succ ha, if_neg hused, pure_bind, if_neg hne]

theorem endDatablks_of_le {w : Fs} {a : ℕ} {st : AllocState} (ha : a + 512 ≤ ramdiskSize) :
    endDatablks a st w = .ok () ({ w with file := { w.file with allocedblkNum := st.blksAlloced } }.store
      (put w.mem (a + datablkTailOffHi) (wordBytes st.prevPrevDatablkAddr ++ wordBytes 0))) := by
  rw [endDatablks, modifyFile_bind, writeOrErr_of_le]
  simpa [List.length_append] using ha

/-- From the second block on, each free block found goes into the tail of the one before. -/
theorem allocDatablkLoop_linked {needed n a : ℕ} (st : AllocState) {w : Fs}
    (ha : a + 512 * n ≤ 0x400000) (hst : 0 < st.blksAlloced) (hlt : st.blksAlloced < needed)
    (hprev : st.prevDatablkAddr + 512 ≤ a)
    (hfree : needed ≤ st.blksAlloced + (freeBlks w.mem a n).length) :
    ∃ l, allocDatablkLoop needed n a st w = .ok ()
      { w with
        mem := linkTails w.mem st.prevPrevDatablkAddr st.prevDatablkAddr
          ((freeBlks w.mem a n).take (needed - st.blksAlloced))
        past := l ++ w.past
        file := { w.file with allocedblkNum := needed } } ∧
      st.blksAlloced + l.length = needed + 1 ∧ ∀ m ∈ l, ∀ x < st.prevDatablkAddr, m x = w.mem x := by
  induction n generalizing a st w with
  | zero =>
      rw [freeBlks_zero, List.length_nil] at hfree
      omega
  | succ n ih =>
      have ha' : a + 512 ≤ 0x400000 := (Nat.add_le_add_left (Nat.le_mul_of_pos_right _ n.succ_pos) a).trans ha
      have hrest : a + datablkSize + 512 * n ≤ 0x400000 := by
        rw [Nat.mul_succ, Nat.add_comm (512 * n), ← Nat.add_assoc] at ha
        exact ha
      have hprev' : st.prevDatablkAddr + 512 ≤ a + datablkSize := Nat.le_add_right_of_le hprev
      rw [freeBlks_succ] at hfree ⊢
      by_cases hf : FreeBlk w.mem a
      · rw [if_pos hf] at hfree ⊢
        rw [List.length_cons] at hfree
        obtain ⟨d, rfl⟩ := Nat.exists_eq_add_of_lt hlt
        have hlink := linkDatablk_next (w := w) (a := a) hst (hprev.trans (Nat.le_of_add_right_le ha'))
        have hbelow : ∀ x < st.prevDatablkAddr, put w.mem (st.prevDatablkAddr + datablkTailOffHi)
            (wordBytes st.prevPrevDatablkAddr ++ wordBytes a) x = w.mem x := fun x hx =>
          put_of_lt (Nat.lt_add_right _ hx)
        rw [allocDatablkLoop_succ ha', if_pos hf, bind_ok hlink, Nat.add_assoc, Nat.add_sub_cancel_left,
          List.take_succ_cons, linkTails]
        by_cases hd : d = 0
        · rw [hd, if_pos rfl, endDatablks_of_le ha', List.take_zero, linkTails]
          refine ⟨[put w.mem (st.prevDatablkAddr + datablkTailOffHi)
            (wordBytes st.prevPrevDatablkAddr ++ wordBytes a), w.mem], rfl, rfl, fun m hm => ?_⟩
          rcases List.mem_cons.mp hm with rfl | hm
          · exact hbelow
          · rw [List.mem_singleton.mp hm]
            exact fun _ _ => rfl
        · have hkeep : freeBlks (put w.mem (st.prevDatablkAddr + datablkTailOffHi)
              (wordBytes st.prevPrevDatablkAddr ++ wordBytes a)) (a + datablkSize) n = _ :=
            freeBlks_put_tail hprev'
          have hne : st.blksAlloced + 1 ≠ st.blksAlloced + (d + 1) := by omega
          rw [if_neg hne]
          have hnext := @ih (a + datablkSize) ⟨st.blksAlloced + 1, a, st.prevDatablkAddr⟩
            (w.store (put w.mem (st.prevDatablkAddr + datablkTailOffHi)
              (wordBytes st.prevPrevDatablkAddr ++ wordBytes a)))
          simp only [store_mem, hkeep, store_file] at hnext
          have hsub : st.blksAlloced + d + 1 - (st.blksAlloced + 1) = d := by omega
          rw [hsub] at hnext
          obtain ⟨l, hrun, hlen, hl⟩ := hnext hrest (Nat.succ_pos _) (by omega) le_rfl (by omega)
          refine ⟨l ++ [w.mem], ?_, ?_, fun m hm x hx => ?_⟩
          · rw [List.append_assoc]
            exact hrun
          · rw [List.length_append, List.length_singleton]
            omega
          · rcases List.mem_append.mp hm with hm | hm
            · exact (hl m hm x (hx.trans_le (Nat.le_of_add_right_le hprev))).trans (hbelow x hx)
            · rw [List.mem_singleton.mp hm]
      · rw [if_neg hf] at hfree ⊢
        rw [allocDatablkLoop_used ha' hf hlt.ne]
        exact ih st hrest hst hlt hprev' hfree

/-- The first page is unchanged, or but for the two words of slot `i` that the allocation fills in. -/
structure OnlyOpened (m m' : Mem) (i fileSize : ℕ) : Prop where
  rest : ∀ x < ramdiskPageSize, x < inodeAddr i + 8 ∨ inodeAddr i + 16 ≤ x → m' x = m x
  opened : (∀ x < ramdiskPageSize, m' x = m x) ∨ word m' (inodeAddr i + 8) = fileSize

theorem OnlyOpened.refl (m : Mem) (i fileSize : ℕ) : OnlyOpened m m i fileSize :=
  ⟨fun _ _ _ => rfl, Or.inl fun _ _ => rfl⟩

theorem OnlyOpened.congr {m m' m'' : Mem} {i fileSize : ℕ} (h : OnlyOpened m m' i fileSize)
    (hi : i < inodeMaxCnt) (heq : ∀ x < ramdiskPageSize, m'' x = m' x) : OnlyOpened m m'' i fileSize := by
  have hslot := inodeAddr_lt hi
  refine ⟨fun x hx hout => (heq x hx).trans (h.rest x hx hout), ?_⟩
  rcases h.opened with hsame | hsize
  · exact Or.inl fun x hx => (heq x hx).trans (hsame x hx)
  · exact Or.inr ((word_congr fun x _ hx => heq x (by omega)).trans hsize)

theorem onlyOpened_put {m : Mem} {i v v' : ℕ} (hv : v < Word.size) :
    OnlyOpened m (put m (inodeAddr i + 8) (wordBytes v ++ wordBytes v')) i v := by
  refine ⟨fun x _ hx => put_of_notMem ?_, Or.inr ?_⟩
  · rw [List.length_append, wordBytes_length, wordBytes_length]
    omega
  · rw [put_append, word_put_of_disjoint (Or.inl (by rw [wordBytes_length]))]
    exact word_put_wordBytes hv

theorem OnlyOpened.linkTails {m m' : Mem} {i fileSize prevPrev prev : ℕ} {qs : List ℕ}
    (h : OnlyOpened m m' i fileSize) (hi : i < inodeMaxCnt) (hqs : ∀ q ∈ prev :: qs, ramdiskPageSize ≤ q) :
    OnlyOpened m (linkTails m' prevPrev prev qs) i fileSize :=
  h.congr hi fun _ hx => linkTails_of_notMem fun q hq =>
    Or.inl ((hx.trans_le (hqs q hq)).trans_le (Nat.le_add_right q 504))

/-- The first free blocks: the first one goes into the inode. -/
theorem allocDatablkLoop_free {needed n a p : ℕ} {qs : List ℕ} (st : AllocState) {w : Fs}
    (ha : ramdiskPageSize ≤ a) (hn : a + 512 * n ≤ 0x400000) (hst : st.blksAlloced = 0)
    (hi : w.file.inodeIdx < inodeMaxCnt) (hsize : w.file.fileSize < Word.size)
    (hfree : (freeBlks w.mem a n).take needed = p :: qs)
    (hlen : qs.length + 1 = needed) : ∃ l, allocDatablkLoop needed n a st w = .ok ()
      { w with
        mem := linkTails (put w.mem (inodeAddr w.file.inodeIdx + 8)
          (wordBytes w.file.fileSize ++ wordBytes p)) (inodeAddr w.file.inodeIdx) p qs
        past := l ++ w.past
        file := { w.file with datablkAddr := p, allocedblkNum := needed } } ∧
      l.length = needed + 1 ∧ ∀ m ∈ l, OnlyOpened w.mem m w.file.inodeIdx w.file.fileSize := by
  induction n generalizing a with
  | zero =>
      rw [freeBlks_zero, List.take_nil] at hfree
      cases hfree
  | succ n ih =>
      have ha' : a + 512 ≤ 0x400000 := (Nat.add_le_add_left (Nat.le_mul_of_pos_right _ n.succ_pos) a).trans hn
      have hrest : a + datablkSize + 512 * n ≤ 0x400000 := by
        rw [Nat.mul_succ, Nat.add_comm (512 * n), ← Nat.add_assoc] at hn
        exact hn
      have hpage : ramdiskPageSize ≤ a + datablkSize := Nat.le_add_right_of_le ha
      rw [freeBlks_succ] at hfree
      by_cases hf : FreeBlk w.mem a
      · rw [if_pos hf, ← hlen, List.take_succ_cons] at hfree
        obtain ⟨rfl, hqs⟩ := List.cons.inj hfree
        have hopened : OnlyOpened w.mem (put w.mem (inodeAddr w.file.inodeIdx + 8)
            (wordBytes w.file.fileSize ++ wordBytes a)) w.file.inodeIdx w.file.fileSize :=
          onlyOpened_put hsize
        rw [allocDatablkLoop_succ ha', if_pos hf, bind_ok (linkDatablk_first hst hi), ← hlen]
        cases qs with
        | nil =>
            rw [List.length_nil, if_pos rfl, endDatablks_of_le ha']
            refine ⟨[_, w.mem], rfl, rfl, fun m hm => ?_⟩
            rcases List.mem_cons.mp hm with rfl | hm
            · exact hopened
            · rw [List.mem_singleton.mp hm]
              exact OnlyOpened.refl ..
        | cons q qs =>
            have hne : (⟨1, a, inodeAddr w.file.inodeIdx⟩ : AllocState).blksAlloced ≠ qs.length + 1 + 1 :=
              Nat.ne_of_lt (Nat.succ_lt_succ qs.length.succ_pos)
            have hkeep : freeBlks (put w.mem (inodeAddr w.file.inodeIdx + 8)
                (wordBytes w.file.fileSize ++ wordBytes a)) (a + datablkSize) n =
                freeBlks w.mem (a + datablkSize) n := by
              refine freeBlks_congr fun x hx => put_of_ge ?_
              have hend := (inodeAddr_lt hi).le.trans (hpage.trans hx)
              rw [List.length_append, wordBytes_length, wordBytes_length]
              omega
            have hcount : qs.length + 1 ≤ (freeBlks w.mem (a + datablkSize) n).length := by
              have hl := congrArg List.length hqs
              rw [List.length_take] at hl
              exact le_of_eq_of_le hl.symm (min_le_right _ _)
            have hlt : 1 < qs.length + 1 + 1 := Nat.succ_lt_succ qs.length.succ_pos
            obtain ⟨l, hloop, hcnt, hl⟩ := allocDatablkLoop_linked ⟨1, a, inodeAddr w.file.inodeIdx⟩
              (w := { w with file := { w.file with datablkAddr := a } }.store
                (put w.mem (inodeAddr w.file.inodeIdx + 8) (wordBytes w.file.fileSize ++ wordBytes a)))
              hrest Nat.zero_lt_one hlt le_rfl
              (by rw [store_mem, hkeep, Nat.add_comm]; exact Nat.add_le_add_left hcount 1)
            rw [List.length_cons] at hqs
            simp only [store_mem, hkeep, Nat.add_sub_cancel, hqs] at hloop
            rw [List.length_cons, if_neg hne]
            refine ⟨l ++ [w.mem], ?_, ?_, fun m hm => ?_⟩
            · rw [List.append_assoc]
              exact hloop
            · rw [List.length_append, List.length_singleton]
              change 1 + l.length = _ at hcnt
              omega
            · rcases List.mem_append.mp hm with hm | hm
              · exact hopened.congr hi fun x hx => hl m hm x (hx.trans_le ha)
              · rw [List.mem_singleton.mp hm]
                exact OnlyOpened.refl ..
      · rw [if_neg hf] at hfree
        have hne : st.blksAlloced ≠ needed := by
          rw [hst, ← hlen]
          exact Nat.zero_ne_add_one _
        rw [allocDatablkLoop_used ha' hf hne]
        exact ih hpage hrest hfree

theorem allocDatablk_of_le {len p needed : ℕ} {qs : List ℕ} {st : AllocState} {w : Fs}
    (hlen : u32 (w.file.pos + len) ≤ w.file.fileSize) (hsize : 0 < w.file.fileSize)
    (hi : w.file.inodeIdx < inodeMaxCnt) (hneeded : (w.file.fileSize + 503) / 504 = needed)
    (hfree : (freeBlks w.mem datablkStart datablkMaxCnt).take needed = p :: qs)
    (hqs : qs.length + 1 = needed) : ∃ w', allocDatablk len st w = .ok () w' ∧
      w'.mem = linkTails (put w.mem (inodeAddr w.file.inodeIdx + 8)
        (wordBytes w.file.fileSize ++ wordBytes p)) (inodeAddr w.file.inodeIdx) p qs ∧
      w'.file = { w.file with datablkAddr := p, allocedblkNum := needed } ∧
      ∃ l, w'.past = l ++ w.past ∧ l.length = needed + 1 ∧ ∀ m ∈ l, OnlyOpened w.mem m w.file.inodeIdx w.file.fileSize := by
  have hkeep : (if u32 (w.file.pos + len) > w.file.fileSize then
      { w.file with fileSize := u32 (w.file.pos + len) } else w.file) = w.file :=
    if_neg (Nat.not_lt.mpr hlen)
  have hmax : needed ≤ 8184 := by
    have hcount := congrArg List.length hfree
    rw [List.length_take, List.length_cons, hqs] at hcount
    exact (hcount.symm.le.trans (min_le_right ..)).trans (freeBlks_length_le ..)
  have hword : w.file.fileSize < Word.size := by
    unfold Word.size
    omega
  obtain ⟨l, hloop, hl⟩ := allocDatablkLoop_free { st with blksAlloced := 0 } le_rfl (by decide)
    rfl hi hword hfree hqs
  rw [allocDatablk, modifyFile_bind, getFile_bind]
  simp only [hkeep, blksNeeded_eq hsize, hneeded]
  exact ⟨_, hloop, rfl, rfl, l, rfl, hl⟩

end Slos.Slfs
