import Slos.SlfsDangling
import Slos.SlfsPhases
import Slos.SlfsSameRead

/-!
# Failed writes

What `slfs_write` leaves when it finds no inode or not enough data blocks. Once it has an inode the update
count of the handle is another one; without an inode only the file size may have changed, and the collection
has erased the swap page.
-/

namespace Slos.Slfs
open Word ByteMemory Ramdisk ScatterGather

variable {m : Mem} {i p len : ℕ} {qs : List ℕ} {u v w : Fs} {e : FsErr} {pf : SlfsFile} {pbuf : Mem}
  {uninit : Uninit} {P : Fs → Prop}

theorem takeInode_error (h : takeInode uninit w = .error e v) : e = .noInode ∨ IoOrHang e := by
  cases hfree : freeInode w.mem with
  | some i =>
      obtain ⟨u, hok, -⟩ : ∃ u, takeInode uninit w = .ok () u ∧ _ := takeInode_of_some hfree
      rw [hok] at h
      cases h
  | none =>
      have hP : DeviceFree fun _ => True := ⟨fun _ _ _ => trivial, fun _ _ _ => trivial⟩
      rw [takeInode_of_none hfree] at h
      cases hrun : collectGarbage uninit { w with page := loadedPage w metadataPageIdx } with
      | error e' u =>
          rw [bind_error hrun] at h
          cases h
          exact Or.inr ((collectGarbage_within hP _ trivial).2 _ _ hrun)
      | ok a u =>
          rw [bind_ok hrun] at h
          cases hfree' : freeInode u.mem with
          | some i =>
              rw [updateFp_of_some hfree'] at h
              cases h
          | none =>
              rw [updateFp_of_none hfree'] at h
              cases h
              exact Or.inl rfl

/-- A call that gets no inode has found none free, and the handle is as it was. -/
theorem takeInode_error_file (h : takeInode uninit w = .error e v) : freeInode w.mem = none ∧ v.file = w.file := by
  cases hfree : freeInode w.mem with
  | some i =>
      obtain ⟨u, hok, -⟩ : ∃ u, takeInode uninit w = .ok () u ∧ _ := takeInode_of_some hfree
      rw [hok] at h
      cases h
  | none =>
      refine ⟨rfl, ?_⟩
      have hP : DeviceFree fun v => v.file = w.file := ⟨fun _ _ h => h, fun _ _ h => h⟩
      obtain ⟨w₁, hw₁⟩ : ∃ w₁, w₁ = { w with page := loadedPage w metadataPageIdx } := ⟨_, rfl⟩
      have hfile₁ : w₁.file = w.file := by rw [hw₁]
      rw [takeInode_of_none hfree, ← hw₁] at h
      obtain ⟨hkeep, -⟩ : (stateAfter (collectGarbage uninit w₁)).file = w.file ∧ _ :=
        collectGarbage_within hP w₁ hfile₁
      cases hrun : collectGarbage uninit w₁ with
      | error e' u =>
          rw [hrun] at hkeep
          rw [bind_error hrun] at h
          cases h
          exact hkeep
      | ok a u =>
          rw [hrun] at hkeep
          rw [bind_ok hrun] at h
          cases hfree' : freeInode u.mem with
          | some i =>
              rw [updateFp_of_some hfree'] at h
              cases h
          | none =>
              rw [updateFp_of_none hfree'] at h
              cases h
              exact hkeep

theorem takeInode_file {a : Unit} (h : takeInode uninit w = .ok a u) : ∃ i, u.file = takenInode w.file i := by
  cases hfree : freeInode w.mem with
  | some i =>
      obtain ⟨v, hok, -, hfile, -⟩ : ∃ v, takeInode uninit w = .ok () v ∧ v.mem = w.mem ∧
        v.file = takenInode w.file i ∧ v.past = w.past := takeInode_of_some hfree
      rw [hok] at h
      cases h
      exact ⟨i, hfile⟩
  | none =>
      have hP : DeviceFree fun v => v.file = w.file := ⟨fun _ _ h => h, fun _ _ h => h⟩
      obtain ⟨w₁, hw₁⟩ : ∃ w₁, w₁ = { w with page := loadedPage w metadataPageIdx } := ⟨_, rfl⟩
      have hfile₁ : w₁.file = w.file := by rw [hw₁]
      rw [takeInode_of_none hfree, ← hw₁] at h
      obtain ⟨b, v, hcollect, hupdate⟩ := bind_eq_ok h
      obtain ⟨hkeep, -⟩ : (stateAfter (collectGarbage uninit w₁)).file = w.file ∧ _ :=
        collectGarbage_within hP w₁ hfile₁
      rw [hcollect] at hkeep
      have hfile : v.file = w.file := hkeep
      cases hfree' : freeInode v.mem with
      | none =>
          rw [updateFp_of_none hfree'] at hupdate
          cases hupdate
      | some i =>
          rw [updateFp_of_some hfree'] at hupdate
          cases hupdate
          have htaken : takenInode v.file i = takenInode w.file i := by rw [hfile]
          exact ⟨i, htaken⟩

/-- A property that more data blocks and a longer file leave. -/
structure Growing (P : Fs → Prop) : Prop extends DeviceFree P where
  datablkAddr : ∀ w a, P w → P { w with file := { w.file with datablkAddr := a } }
  allocedblkNum : ∀ w n, P w → P { w with file := { w.file with allocedblkNum := n } }
  fileSize : ∀ w n, P w → w.file.fileSize ≤ n → n < Word.size → P { w with file := { w.file with fileSize := n } }

theorem growing_updateCnt (cnt : ℕ) : Growing fun w => w.file.updateCnt = cnt :=
  ⟨⟨fun _ _ h => h, fun _ _ h => h⟩, fun _ _ h => h, fun _ _ h => h, fun _ _ h _ _ => h⟩

theorem allocDatablk_within (hP : Growing P) (st : AllocState) : Within P (fun _ => True) (allocDatablk len st) := by
  have hwrite (a : ℕ) (bs : List UInt8) : Within P (fun _ => True) (writeOrErr a bs) :=
    writeOrErr_within trivial fun w m h _ => hP.store w m h
  have hlink (a : ℕ) (st : AllocState) : Within P (fun _ => True) (linkDatablk a st) := by
    rw [linkDatablk]
    split
    · refine getFile_within.bind fun pf => (modifyFile_within fun w h => hP.datablkAddr w a h).bind fun _ => ?_
      exact (hwrite _ _).bind fun _ => Within.pure _
    · exact (hwrite _ _).bind fun _ => Within.pure _
  have hloop (needed n a : ℕ) (st : AllocState) : Within P (fun _ => True) (allocDatablkLoop needed n a st) := by
    induction n generalizing a st with
    | zero =>
        rw [allocDatablkLoop]
        split
        · exact Within.throw trivial
        · exact Within.pure ()
    | succ n ih =>
        have hrest (st : AllocState) : Within P (fun _ => True)
            (if st.blksAlloced = needed then endDatablks a st else allocDatablkLoop needed n (a + datablkSize) st) := by
          split
          · exact (modifyFile_within fun w h => hP.allocedblkNum w _ h).bind fun _ => hwrite _ _
          · exact ih _ st
        rw [allocDatablkLoop]
        refine (readOrErr_within _ _ trivial).bind fun tail => ?_
        split
        · exact (hlink a st).bind hrest
        · exact (Within.pure st).bind hrest
  rw [allocDatablk]
  refine (modifyFile_within fun w h => ?_).bind fun _ => getFile_within.bind fun pf => hloop _ _ _ _
  split
  · exact hP.fileSize w _ h (Nat.le_of_lt ‹_›) (u32_lt _)
  · exact h

theorem takeDatablks_within (hP : Growing P) : Within P (fun _ => True) (takeDatablks len uninit) := by
  refine (allocDatablk_within hP _).tryCatch fun e => ?_
  split
  · refine ((collectGarbage_within hP.toDeviceFree).mono fun _ _ => trivial).bind fun _ => ?_
    exact allocDatablk_within hP _
  · exact Within.pure ()

section Rest

/-- What follows once the blocks are taken fails with I/O errors only. -/
theorem rest_within (hP : DeviceFree P) {prev : SlfsFile} : Within P (fun e => e = .io)
    (writeInode uninit >>= fun _ => writeData pbuf prev len uninit >>= fun _ => writeUpdateCnt) := by
  have hwrite (a : ℕ) (bs : List UInt8) : Within P (fun e => e = .io) (writeOrErr a bs) :=
    writeOrErr_within rfl fun w m h _ => hP.store w m h
  have hread (a n : ℕ) : Within P (fun e => e = .io) (readOrErr a n) := readOrErr_within a n rfl
  have hword (a : ℕ) : Within P (fun e => e = .io) (readWord a) := readWord_within a rfl
  have hnew (fuel a b n : ℕ) : Within P (fun e => e = .io) (writeNew pbuf fuel a b n) := by
    induction fuel generalizing a b n with
    | zero => exact Within.pure ()
    | succ fuel ih =>
        rw [writeNew]
        split
        · exact Within.pure ()
        · split
          · exact (hwrite _ _).bind fun _ => (hword _).bind fun _ => ih _ _ _
          · exact hwrite _ _
  have hcopy (n : ℕ) (st : CopyState) : Within P (fun e => e = .io) (copyBlks pbuf n st) := by
    induction n generalizing st with
    | zero => exact Within.pure st
    | succ n ih =>
        have hcpu (a : ℕ) : Within P (fun e => e = .io) (cpuRead a) := fun _ hw =>
          ⟨hw, fun _ _ h => by cases h⟩
        rw [copyBlks]
        refine (hread _ _).bind fun b => (hwrite _ _).bind fun _ => ?_
        exact (hcpu _).bind fun _ => (hword _).bind fun _ => ih _
  have happend (n i a k b : ℕ) : Within P (fun e => e = .io) (appendBlks pbuf n i a k b) := by
    induction n generalizing i a k b with
    | zero => exact Within.pure ()
    | succ n ih =>
        obtain ⟨l, hl⟩ : ∃ l, (if k < datablkPayloadSize then k else datablkPayloadSize) = l := ⟨_, rfl⟩
        rw [appendBlks, hl]
        refine (hwrite _ _).bind fun _ => ?_
        split
        · exact Within.pure ()
        · exact (hword _).bind fun _ => ih _ _ _ _
  have hdata : Within P (fun e => e = .io) (writeData pbuf prev len uninit) := by
    rw [writeData]
    split
    · exact getFile_within.bind fun pf => hnew _ _ _ _
    · rw [writeUpdate]
      refine getFile_within.bind fun pf => (hcopy _ _).bind fun st => ?_
      split
      · exact happend _ _ _ _ _
      · exact Within.pure ()
  have hinode : Within P (fun e => e = .io) (writeInode uninit) :=
    getFile_within.bind fun pf => (hwrite _ _).bind fun _ => hwrite _ _
  exact hinode.bind fun _ => hdata.bind fun _ => getFile_within.bind fun pf => hwrite _ _

end Rest

theorem slfsWrite_steps (hopen : w.file.openCnt ≠ 0) (hlen : 0 < len) :
    slfsWrite pbuf len uninit w = (takeInode uninit >>= fun _ => takeDatablks len uninit >>=
      fun _ => writeInode uninit >>= fun _ => writeData pbuf w.file len uninit >>= fun _ => writeUpdateCnt)
        { w with file := { w.file with fileSize := grownSize w.file len } } := by
  rw [slfsWrite_eq hopen hlen, writeData]
  split <;> rfl

/-- The write ends where it takes an inode and blocks: there are not enough, or a collection for them fails. -/
structure LacksSpace (len : ℕ) (uninit : Uninit) (w : Fs) : Prop where
  isOpen : w.file.openCnt ≠ 0
  nonempty : 0 < len
  fails : ∃ e v, (takeInode uninit >>= fun _ => takeDatablks len uninit)
    { w with file := { w.file with fileSize := grownSize w.file len } } = .error e v ∧ e ≠ .hang

theorem slfsWrite_of_error (hopen : w.file.openCnt ≠ 0) (hlen : 0 < len)
    (h : (takeInode uninit >>= fun _ => takeDatablks len uninit)
      { w with file := { w.file with fileSize := grownSize w.file len } } = .error e v) :
    slfsWrite pbuf len uninit w = .error e v := by
  have hbind := bind_error (f := fun _ => writeInode uninit >>= fun _ => writeData pbuf w.file len uninit >>=
    fun _ => writeUpdateCnt) h
  rw [slfsWrite_steps hopen hlen, ← bind_assoc]
  exact hbind

/-- No inode is taken, or the update count has moved on. -/
theorem takeSpace_failed (h : (takeInode uninit >>= fun _ => takeDatablks len uninit) w = .error e v) :
    takeInode uninit w = .error e v ∨ v.file.updateCnt = u32 (w.file.updateCnt + 1) := by
  cases htake : takeInode uninit w with
  | error e' u =>
      rw [bind_error htake] at h
      exact Or.inl h
  | ok a u =>
      obtain ⟨i, hfile⟩ := takeInode_file htake
      have hcnt : u.file.updateCnt = u32 (w.file.updateCnt + 1) := by rw [hfile]; rfl
      obtain ⟨hkeep, -⟩ : (stateAfter (takeDatablks len uninit u)).file.updateCnt =
        u32 (w.file.updateCnt + 1) ∧ _ := takeDatablks_within (growing_updateCnt _) u hcnt
      rw [bind_ok htake] at h
      rw [h] at hkeep
      exact Or.inr hkeep

theorem LacksSpace.failed (hspace : LacksSpace len uninit w) (h : slfsWrite pbuf len uninit w = .error e v) :
    takeInode uninit { w with file := { w.file with fileSize := grownSize w.file len } } = .error e v ∨
      v.file.updateCnt = u32 (w.file.updateCnt + 1) := by
  obtain ⟨e', v', hfails, -⟩ := hspace.fails
  have hwrite : slfsWrite pbuf len uninit w = .error e' v' := slfsWrite_of_error hspace.isOpen hspace.nonempty hfails
  rw [h] at hwrite
  cases hwrite
  exact takeSpace_failed hfails

/-- A write that reports that there are no inodes or no blocks ends there. -/
theorem lacksSpace_of_failed (h : slfsWrite pbuf len uninit w = .error e v) (he : e = .noInode ∨ e = .noDatablk) :
    LacksSpace len uninit w := by
  by_cases hopen : w.file.openCnt = 0
  · rw [slfsWrite, getFile_bind, if_pos hopen] at h
    cases h
    rcases he with he | he <;> cases he
  · by_cases hlen : len = 0
    · rw [slfsWrite, getFile_bind, if_neg hopen, if_pos hlen] at h
      cases h
    · have hpos := Nat.pos_of_ne_zero hlen
      refine ⟨hopen, hpos, ?_⟩
      cases hspace : (takeInode uninit >>= fun _ => takeDatablks len uninit)
          { w with file := { w.file with fileSize := grownSize w.file len } } with
      | error e' u =>
          rw [slfsWrite_of_error hopen hpos hspace] at h
          cases h
          refine ⟨e, v, rfl, ?_⟩
          rcases he with rfl | rfl <;> decide
      | ok a u =>
          rw [slfsWrite_steps hopen hpos, ← bind_assoc, bind_ok hspace] at h
          have hio := (rest_within (P := fun _ => True) ⟨fun _ _ h => h, fun _ _ h => h⟩ u trivial).2 _ _ h
          rw [hio] at he
          rcases he with he | he <;> cases he

/-- The error and the buffer a read ends with. -/
def readResult (n : ℕ) (w : Fs) : Option FsErr × Mem :=
  match slfsRead n w with
  | .ok _ v => (none, v.buf)
  | .error e v => (some e, v.buf)

theorem SameEnd.readResult_eq {m m' : Mem} {n : ℕ} (h : SameEnd m m' (slfsRead n w) (slfsRead n v)) :
    readResult n v = readResult n w := by
  rw [readResult, readResult]
  generalize slfsRead n w = r at h ⊢
  generalize slfsRead n v = r' at h ⊢
  cases h with
  | ok ht => exact congrArg (Prod.mk none) ht.buf
  | error ht => exact congrArg (Prod.mk (some _)) ht.buf

/-- The handle `pf` on the device `m` and the handle `pf'` on `m'` read the same. -/
def ReadsSame (m : Mem) (pf : SlfsFile) (m' : Mem) (pf' : SlfsFile) : Prop :=
  ∀ (n : ℕ) (u u' : Fs), n < Word.size → u.mem = m → u.file = pf → u'.mem = m' → u'.file = pf' →
    u'.buf = u.buf → readResult n u' = readResult n u

def freeInodeCnt (m : Mem) : ℕ :=
  ((List.range inodeMaxCnt).filter fun i => word m (inodeTabStart + i * inodeSize + 8) == minusOne).length

/-- The handle and what it reads are as before, and no fewer inodes and blocks are free. -/
structure Atomic (w v : Fs) : Prop where
  fileSize : v.file.fileSize = w.file.fileSize
  pos : v.file.pos = w.file.pos
  datablkAddr : v.file.datablkAddr = w.file.datablkAddr
  inodeIdx : v.file.inodeIdx = w.file.inodeIdx
  allocedblkNum : v.file.allocedblkNum = w.file.allocedblkNum
  updateCnt : v.file.updateCnt = w.file.updateCnt
  fd : v.file.fd = w.file.fd
  reads : ReadsSame w.mem w.file v.mem v.file
  inodes : freeInodeCnt w.mem ≤ freeInodeCnt v.mem
  blks : (freeBlks w.mem datablkStart datablkMaxCnt).length ≤ (freeBlks v.mem datablkStart datablkMaxCnt).length

theorem FullTable.freeInodeCnt (h : FullTable m) : freeInodeCnt m = 0 := by
  rw [Slfs.freeInodeCnt, List.filter_eq_nil_iff.mpr, List.length_nil]
  intro i hi
  rw [beq_iff_eq]
  exact h.fileSize (List.mem_range.mp hi)

theorem freeBlk_rewritten {q : ℕ} (hq : q ∈ blkAddrs datablkStart datablkMaxCnt) (h : FreeBlk m q) :
    FreeBlk (rewritten m) q := by
  obtain ⟨hlo, hhi⟩ : 4096 ≤ q ∧ q + 512 ≤ 4194304 := mem_blkAddrs hq
  have hstart : swapPageStart = 4190208 := rfl
  have htab : garbagePageTabStart = 1984 := rfl
  have hhigh : q + datablkTailOffHi = q + 504 := rfl
  have hlow : q + datablkTailOffLow = q + 508 := rfl
  have hword {a : ℕ} (ha : 4096 ≤ a) (hm : word m a = minusOne) : word (rewritten m) a = minusOne := by
    refine word_eq_max.mpr fun j hj => ?_
    rw [rewritten]
    split
    · rfl
    · rw [if_neg (by omega), if_neg (by omega)]
      exact word_eq_max.mp hm j hj
  exact ⟨hword (by omega) h.1, hword (by omega) h.2⟩

theorem freeBlks_rewritten : (freeBlks m datablkStart datablkMaxCnt).length ≤
    (freeBlks (rewritten m) datablkStart datablkMaxCnt).length :=
  freeBlks_length_mono fun _ => freeBlk_rewritten

/-- A byte that the collection of a full table leaves as it is. -/
def Untouched (x : ℕ) : Prop :=
  (x < garbagePageTabStart ∨ garbagePageTabStart + 4 ≤ x) ∧ (x < 4092 ∨ 4096 ≤ x) ∧
    (x < swapPageStart ∨ swapPageStart + 4096 ≤ x)

theorem Untouched.rewritten {x : ℕ} (h : Untouched x) : rewritten m x = m x := by
  obtain ⟨htab, hmark, hswap⟩ := h
  rw [Slfs.rewritten, if_neg (by omega), if_neg (by omega), if_neg (by omega)]

/-- The handle reads nothing, or no block a read of it may come to has a byte that the collection changes. -/
def ReadsClear (m : Mem) (pf : SlfsFile) : Prop :=
  pf.fileSize = 0 ∨ pf.datablkAddr = minusOne ∨
    ∀ k, MayRead pf k → ∀ x < 512, Untouched (u32 (blkAfter m pf.datablkAddr k + x))

theorem ReadsClear.readsSame (h : ReadsClear m pf) : ReadsSame m pf (rewritten m) pf := by
  rintro n u u' hn rfl rfl hmem hfile hbuf
  have ht : Twin u.mem (rewritten u.mem) u u' := ⟨rfl, hmem, hfile, hbuf⟩
  have hend : SameEnd u.mem (rewritten u.mem) (slfsRead n u) (slfsRead n u') := by
    by_cases hnone : u.file.fileSize = 0 ∨ u.file.datablkAddr = minusOne
    · rw [slfsRead, getFile_bind, getFile_bind, hfile, if_pos hnone]
      exact .error ht
    · have hclear := (h.resolve_left fun hsize => hnone (Or.inl hsize)).resolve_left fun haddr => hnone (Or.inr haddr)
      exact slfsRead_twin ht hn fun k hk x hx => (hclear k hk x hx).rewritten
  exact hend.readResult_eq

/-- Nothing but what a collection of a full table changes is lost. -/
theorem atomic_of_file (hfile : v.file = w.file) (hreads : ReadsSame w.mem w.file v.mem w.file)
    (hmem : v.mem = w.mem ∨ FullTable w.mem ∧ v.mem = rewritten w.mem) : Atomic w v where
  fileSize := by rw [hfile]
  pos := by rw [hfile]
  datablkAddr := by rw [hfile]
  inodeIdx := by rw [hfile]
  allocedblkNum := by rw [hfile]
  updateCnt := by rw [hfile]
  fd := by rw [hfile]
  reads := hfile.symm ▸ hreads
  inodes := by
    rcases hmem with hsame | ⟨hfull, -⟩
    · rw [hsame]
    · rw [hfull.freeInodeCnt]
      exact Nat.zero_le _
  blks := by
    rcases hmem with hsame | ⟨-, hmem⟩
    · rw [hsame]
    · rw [hmem]
      exact freeBlks_rewritten

theorem readsSame_refl : ReadsSame m pf m pf := by
  rintro n u u' hn rfl rfl hmem hfile hbuf
  have ht : Twin u.mem u.mem u u' := ⟨rfl, hmem, hfile, hbuf⟩
  exact (slfsRead_twin ht hn fun _ _ _ _ => rfl).readResult_eq

theorem FullTable.write_atomic (h : FullTable w.mem) (hgrown : grownSize w.file len = w.file.fileSize)
    (hclear : Barred w.mem ∨ ReadsClear w.mem w.file)
    (htake : takeInode uninit { w with file := { w.file with fileSize := grownSize w.file len } } = .error e v) :
    Atomic w v := by
  have hsame : { w with file := { w.file with fileSize := grownSize w.file len } } = w := by rw [hgrown]
  rw [hsame] at htake
  rcases hclear with hbarred | hclear
  · obtain ⟨v', hrun, hmem, hfile⟩ : ∃ v', takeInode uninit w = .error .io v' ∧ _ := h.takeInode_barred hbarred
    rw [htake] at hrun
    cases hrun
    exact atomic_of_file hfile (hmem.symm ▸ readsSame_refl) (Or.inl hmem)
  · obtain ⟨e', v', hrun, hnone⟩ : ∃ e' v', takeInode uninit w = .error e' v' ∧ NoneTaken w v' e' := h.takeInode_run
    rw [htake] at hrun
    cases hrun
    rcases hnone.cases with ⟨-, hmem⟩ | ⟨-, hmem⟩
    · exact atomic_of_file hnone.file (hmem.symm ▸ readsSame_refl) (Or.inl hmem)
    · exact atomic_of_file hnone.file (hmem.symm ▸ hclear.readsSame) (Or.inr ⟨h, hmem⟩)

/-- A write that fails for want of an inode or of blocks, or because the collection for them fails, leaves
everything as it was if no inode is free or dangling, the position and the length stay in the file, and either
the table holds a deleted file or the handle reads no byte the collection changes. It does not where the file
grows or an inode is free, and one that reports no inodes or no blocks does not where an inode is dangling. -/
theorem failed_write_atomic (h : slfsWrite pbuf len uninit w = .error e v) (hspace : LacksSpace len uninit w) :
    (FullTable w.mem ∧ grownSize w.file len = w.file.fileSize ∧ (Barred w.mem ∨ ReadsClear w.mem w.file) →
        Atomic w v) ∧
      (Atomic w v → grownSize w.file len = w.file.fileSize ∧ freeInode w.mem = none ∧
        (e = .noInode ∨ e = .noDatablk → FullTable w.mem)) := by
  have hfailed := hspace.failed h
  constructor
  · rintro ⟨hfull, hgrown, hclear⟩
    obtain ⟨e', v', hrun, -⟩ : ∃ e' v', takeInode uninit
        { w with file := { w.file with fileSize := grownSize w.file len } } = .error e' v' ∧ _ :=
      FullTable.takeInode_run hfull
    have hwrite : slfsWrite pbuf len uninit w = .error e' v' := by
      rw [slfsWrite_eq hspace.isOpen hspace.nonempty]
      exact bind_error hrun
    rw [h] at hwrite
    cases hwrite
    exact hfull.write_atomic hgrown hclear hrun
  · intro hatomic
    rcases hfailed with htake | hcnt
    · obtain ⟨hfree, hfile⟩ := takeInode_error_file htake
      refine ⟨?_, hfree, fun he => ?_⟩
      · rw [← hatomic.fileSize, hfile]
      · rcases takeInode_error htake with rfl | hio | hhang
        · exact takeInode_noInode (w := { w with file := { w.file with fileSize := grownSize w.file len } }) htake
        · rw [hio] at he
          rcases he with he | he <;> cases he
        · rw [hhang] at he
          rcases he with he | he <;> cases he
    · have hsame := hcnt.symm.trans hatomic.updateCnt
      unfold u32 Word.size at hsame
      omega

section OneByteFiles

/-- No inode is found where every slot holds a file that is not deleted. -/
theorem FullTable.takeInode_kept (h : FullTable w.mem) (hkept : ∀ i < inodeMaxCnt, Kept (inodeAt w.mem i)) :
    ∃ v, takeInode uninit w = .error .noInode v ∧ NoneTaken w v .noInode := by
  obtain ⟨e, v, hrun, hnone⟩ : ∃ e v, takeInode uninit w = .error e v ∧ NoneTaken w v e := h.takeInode_run
  obtain ⟨w₁, hw₁⟩ : ∃ w₁, w₁ = { w with page := loadedPage w metadataPageIdx } := ⟨_, rfl⟩
  have hmem₁ : w₁.mem = w.mem := by rw [hw₁]
  obtain ⟨x, hcollect, -⟩ : ∃ x, collectGarbage uninit w₁ = .ok () x ∧ _ :=
    collectGarbage_run (hmem₁ ▸ hkept) fun i hi hcnt => absurd hcnt (hmem₁ ▸ (h i hi).updateCnt)
  rcases hnone.cases with ⟨rfl, -⟩ | ⟨rfl, -⟩
  · rw [takeInode_of_none h.freeInode, ← hw₁, bind_ok hcollect] at hrun
    cases hfree : Slfs.freeInode x.mem with
    | none =>
        rw [updateFp_of_none hfree] at hrun
        cases hrun
    | some i =>
        rw [updateFp_of_some hfree] at hrun
        cases hrun
  · exact ⟨v, hrun, hnone⟩

theorem FullTable.slfsWrite_kept (h : FullTable w.mem) (hkept : ∀ i < inodeMaxCnt, Kept (inodeAt w.mem i))
    (hopen : w.file.openCnt ≠ 0) (hlen : 0 < len) : ∃ v, slfsWrite pbuf len uninit w = .error .noInode v ∧
      v.file = { w.file with fileSize := grownSize w.file len } := by
  obtain ⟨v, hrun, hnone⟩ : ∃ v, takeInode uninit { w with file := { w.file with fileSize := grownSize w.file len } } =
    .error .noInode v ∧ NoneTaken _ v .noInode := FullTable.takeInode_kept h hkept
  rw [slfsWrite_eq hopen hlen]
  exact ⟨v, bind_error hrun, hnone.file⟩

def oneByteFile (i : ℕ) : SlfsInode where
  inodeIdx := i
  updateCnt := 1
  fileSize := 1
  datablkAddr := datablkStart + i * datablkSize
  fileId := i
  reserved := 0
  name := letter (UInt8.ofNat (97 + i))

/-- A device with a file of one byte in every slot, each in a block of its own. -/
def oneByteFiles : Mem := fun x =>
  if inodeTabStart ≤ x ∧ x < inodeTabStart + inodeMaxCnt * inodeSize then
    ((oneByteFile ((x - inodeTabStart) / inodeSize)).toBytes[(x - inodeTabStart) % inodeSize]?).getD 0xFF
  else if datablkStart ≤ x ∧ x < datablkStart + inodeMaxCnt * datablkSize ∧ datablkTailOffHi ≤ x % datablkSize then 0
  else 0xFF

theorem oneByteFiles_inode : ∀ i < inodeMaxCnt, (inodeAt oneByteFiles i).fileSize = 1 ∧
    (inodeAt oneByteFiles i).updateCnt = 1 := by decide +kernel

theorem oneByteFiles_full : FullTable oneByteFiles := by
  intro i hi
  obtain ⟨hsize, hcnt⟩ := oneByteFiles_inode i hi
  exact ⟨hsize ▸ by decide, hcnt ▸ by decide⟩

theorem oneByteFiles_kept : ∀ i < inodeMaxCnt, Kept (inodeAt oneByteFiles i) := by
  intro i hi _
  obtain ⟨hsize, hcnt⟩ := oneByteFiles_inode i hi
  exact ⟨hcnt ▸ by decide, fun hdel => absurd (hsize.symm.trans hdel.1) (by decide)⟩

/-- The handle of the first of the files. -/
def firstFile : SlfsFile where
  fd := 0
  pos := 0
  fileSize := 1
  openCnt := 1
  datablkAddr := datablkStart
  inodeIdx := 0
  allocedblkNum := 1
  updateCnt := 1
  name := letter 97

theorem first_file_write_atomic : ∃ v,
    slfsWrite (fun _ => 7) 1 zeroUninit { erasedFs with mem := oneByteFiles, file := firstFile } = .error .noInode v ∧
      Atomic { erasedFs with mem := oneByteFiles, file := firstFile } v := by
  obtain ⟨w, hw⟩ : ∃ w, w = { erasedFs with mem := oneByteFiles, file := firstFile } := ⟨_, rfl⟩
  have hmem : w.mem = oneByteFiles := by rw [hw]
  have hfile : w.file = firstFile := by rw [hw]
  obtain ⟨v, hrun, -⟩ : ∃ v, slfsWrite (fun _ => 7) 1 zeroUninit w = .error .noInode v ∧ _ :=
    FullTable.slfsWrite_kept (hmem ▸ oneByteFiles_full) (hmem ▸ oneByteFiles_kept) (hfile ▸ by decide) (by decide)
  rw [← hw]
  have hspace : LacksSpace 1 zeroUninit w := lacksSpace_of_failed hrun (Or.inl rfl)
  refine ⟨v, hrun, (failed_write_atomic hrun hspace).1 ⟨hmem ▸ oneByteFiles_full, ?_, Or.inr ?_⟩⟩
  · rw [hfile]
    decide
  · refine Or.inr (Or.inr fun k hk x hx => ?_)
    have hzero : k = 0 := by
      have hk' : 504 * k < 1 := by
        rw [hfile] at hk
        exact hk rfl
      omega
    have haddr : blkAfter w.mem w.file.datablkAddr k = 4096 := by rw [hzero, hfile]; rfl
    have htab : garbagePageTabStart = 1984 := rfl
    have hswap : swapPageStart = 4190208 := rfl
    rw [haddr, u32_of_lt (by unfold Word.size; omega), Untouched]
    omega

/-- The handle of a new file keeps the size of the write that found no inode. -/
theorem failed_write_grows_file : ¬ ∀ (w v : Fs) (pbuf : Mem) (len : ℕ) (uninit : Uninit) (e : FsErr),
    slfsWrite pbuf len uninit w = .error e v → e = .noInode ∨ e = .noDatablk → Atomic w v := by
  intro h
  obtain ⟨w, hw⟩ : ∃ w, w = { erasedFs with mem := oneByteFiles, file := openNew firstFile (letter 96) } := ⟨_, rfl⟩
  have hmem : w.mem = oneByteFiles := by rw [hw]
  have hfile : w.file = openNew firstFile (letter 96) := by rw [hw]
  obtain ⟨v, hrun, hvfile⟩ : ∃ v, slfsWrite (fun _ => 7) 1 zeroUninit w = .error .noInode v ∧ v.file = _ :=
    FullTable.slfsWrite_kept (hmem ▸ oneByteFiles_full) (hmem ▸ oneByteFiles_kept) (hfile ▸ by decide) (by decide)
  have hsize := (h w v _ _ _ _ hrun (Or.inl rfl)).fileSize
  rw [hvfile, hfile] at hsize
  exact absurd hsize (by decide)

end OneByteFiles

end Slos.Slfs
