import Slos.SlfsGarbage

/-!
# A full inode table

What `collect_garbage` does when every slot holds a completed version: it fails on a deleted file and
otherwise rewrites the metadata page, so no inode gets free and a call that needs one fails.
-/

namespace Slos.Slfs
open Word ByteMemory Ramdisk

variable {m m' : Mem} {i : ℕ} {v w : Fs} {uninit : Uninit}

/-- Neither a free nor a dangling inode. -/
def FullTable (m : Mem) : Prop := ∀ i < inodeMaxCnt, Completed m i

/-- The metadata page written again: the garbage page table and the swap page are erased and the last word of
the metadata page, which marks it in the swap page, is 0. -/
def rewritten (m : Mem) : Mem := fun x =>
  if swapPageStart ≤ x ∧ x < swapPageStart + 4096 then 0xFF
  else if 4092 ≤ x ∧ x < 4096 then 0
  else if garbagePageTabStart ≤ x ∧ x < garbagePageTabStart + 4 then 0xFF
  else m x

theorem rewritten_eq : swapErased (copiedBack (swapWritten v.mem (clearedPage (loadedPage v metadataPageIdx)))
    metadataPageIdx 8) = rewritten v.mem := by
  have htab : garbagePageTabStart = 1984 := rfl
  funext x
  rw [metadataStored_apply, clearedPage_apply, rewritten, htab]
  by_cases hswap : swapPageStart ≤ x ∧ x < swapPageStart + 4096
  · rw [if_pos hswap, if_pos hswap]
  · rw [if_neg hswap, if_neg hswap]
    by_cases hpage : x < 4096
    · rw [if_pos hpage, loadedPage_apply hpage]
    · rw [if_neg hpage, if_neg (by omega), if_neg (by omega)]

theorem FullTable.fileSize (h : FullTable m) (hi : i < inodeMaxCnt) :
    word m (inodeTabStart + i * inodeSize + 8) ≠ minusOne := by
  rw [slotAddr_eq hi]
  exact (h i hi).fileSize

theorem FullTable.freeInode (h : FullTable m) : freeInode m = none :=
  freeInode_eq_none.mpr fun _ hi => h.fileSize hi

/-- What the first pass records of the deleted files. -/
def deleteMarks (m : Mem) (is : List ℕ) : List (ℕ × ℕ) :=
  (is.filter (DeleteMark m ·)).map fun i => ((inodeAt m i).fileId, (inodeAt m i).updateCnt)

/-- The first pass only reads. -/
theorem FullTable.collectObsolete_run (h : FullTable w.mem) {is : List ℕ} {deleted : List (ℕ × ℕ)}
    {last : SlfsInode} (his : ∀ i ∈ is, i < inodeMaxCnt) :
    ∃ last', collectObsolete uninit is deleted last w = .ok (deleted ++ deleteMarks w.mem is, last') w := by
  induction is generalizing deleted last with
  | nil => exact ⟨last, by rw [deleteMarks, List.filter_nil, List.map_nil, List.append_nil]; rfl⟩
  | cons i is ih =>
      obtain ⟨hsize, hcnt, haddr, -⟩ := atAddr_ofBytes (m := w.mem) (a := inodeAddr i)
      have hi := his i List.mem_cons_self
      have hrest : ∀ j ∈ is, j < inodeMaxCnt := fun j hj => his j (List.mem_cons_of_mem i hj)
      have hused : word w.mem (inodeAddr i + 8) ≠ minusOne := (h i hi).fileSize
      have hclosed : word w.mem (inodeAddr i + 4) ≠ minusOne := (h i hi).updateCnt
      have hid : (SlfsInode.atAddr (ofBytes (bytes w.mem (inodeAddr i) 56)) 0).fileId = (inodeAt w.mem i).fileId :=
        word_ofBytes_bytes (by decide)
      rw [collectObsolete, bind_ok (readInode_run hi), hsize, hcnt, haddr, hid, if_neg hused, if_neg hclosed]
      by_cases hmark : DeleteMark w.mem i
      · obtain ⟨last', hrun⟩ : ∃ last', collectObsolete uninit is
            (deleted ++ [((inodeAt w.mem i).fileId, (inodeAt w.mem i).updateCnt)])
            (SlfsInode.atAddr (ofBytes (bytes w.mem (inodeAddr i) 56)) 0) w = .ok (_, last') w := ih hrest
        have hmarks : deleteMarks w.mem (i :: is) =
            ((inodeAt w.mem i).fileId, (inodeAt w.mem i).updateCnt) :: deleteMarks w.mem is := by
          rw [deleteMarks, List.filter_cons, if_pos (decide_eq_true hmark), List.map_cons, deleteMarks]
        have htest : word w.mem (inodeAddr i + 8) = 0 ∧ word w.mem (inodeAddr i + 12) = 0 := hmark
        rw [if_pos htest, hmarks, List.append_cons deleted _ (deleteMarks w.mem is)]
        exact ⟨last', hrun⟩
      · obtain ⟨last', hrun⟩ : ∃ last', collectObsolete uninit is deleted
            (SlfsInode.atAddr (ofBytes (bytes w.mem (inodeAddr i) 56)) 0) w = .ok (_, last') w := ih hrest
        have hmarks : deleteMarks w.mem (i :: is) = deleteMarks w.mem is := by
          rw [deleteMarks, List.filter_cons, if_neg (by rwa [decide_eq_true_iff]), deleteMarks]
        have htest : ¬ (word w.mem (inodeAddr i + 8) = 0 ∧ word w.mem (inodeAddr i + 12) = 0) := hmark
        rw [if_neg htest, hmarks]
        exact ⟨last', hrun⟩

/-- A recorded file ends the collection. -/
theorem deleteFiles_cons {fileId updateCnt : ℕ} {deleted : List (ℕ × ℕ)} {last : SlfsInode} (h : fileId ≠ minusOne) :
    deleteFiles uninit ((fileId, updateCnt) :: deleted) last w = .error .io w := by
  have hread := readRamdisk_of_le (m := w.mem) (show inodeTabStart + 0 * inodeSize + inodeSize ≤ ramdiskSize
    by decide)
  have hfirst : List.range inodeMaxCnt = 0 :: (List.range 31).map Nat.succ := List.range_succ_eq_map
  rw [deleteFiles, if_neg h, hfirst, deleteFileInodes]
  refine bind_error ?_
  rw [ioRead_bind, hread]
  rfl

/-- A file with the id of a new handle ends the records. -/
theorem deleteFiles_cases (deleted : List (ℕ × ℕ)) (last : SlfsInode) :
    deleteFiles uninit deleted last w = .error .io w ∨
      deleteFiles uninit deleted last w = .ok () w ∧ cleanInode deleted = cleanInode [] := by
  cases deleted with
  | nil => exact Or.inr ⟨rfl, rfl⟩
  | cons d deleted =>
      obtain ⟨fileId, updateCnt⟩ := d
      by_cases hend : fileId = minusOne
      · subst hend
        refine Or.inr ⟨rfl, ?_⟩
        funext page i
        rfl
      · exact Or.inl (deleteFiles_cons hend)

/-- The collection fails and changes nothing, or rewrites the metadata page. -/
theorem FullTable.collectGarbage_cases (h : FullTable v.mem) : collectGarbage uninit v = .error .io v ∨
    ∃ v', collectGarbage uninit v = .ok () v' ∧ v'.mem = rewritten v.mem ∧ v'.file = v.file := by
  obtain ⟨last, hobs⟩ : ∃ last, collectObsolete uninit (List.range inodeMaxCnt) [] uninit.inode v =
      .ok ([] ++ deleteMarks v.mem (List.range inodeMaxCnt), last) v :=
    h.collectObsolete_run fun i hi => List.mem_range.mp hi
  rcases deleteFiles_cases ([] ++ deleteMarks v.mem (List.range inodeMaxCnt)) last with herr | ⟨hok, hnone⟩
  · refine Or.inl ?_
    rw [collectGarbage, bind_ok hobs]
    exact bind_error herr
  · obtain ⟨v', hrun, hmem, hfile⟩ := collectGarbage_clean hobs hok hnone
      fun i hi hcnt => absurd hcnt (h i hi).updateCnt
    exact Or.inr ⟨v', hrun, hmem.trans rewritten_eq, hfile⟩

/-- The first deleted file of the table has an id. -/
def Barred (m : Mem) : Prop :=
  ∃ i < inodeMaxCnt, DeleteMark m i ∧ (∀ j < i, ¬ DeleteMark m j) ∧ (inodeAt m i).fileId ≠ minusOne

theorem Barred.marks (h : Barred m) :
    ∃ d ds, deleteMarks m (List.range inodeMaxCnt) = d :: ds ∧ d.1 ≠ minusOne := by
  obtain ⟨i, hi, hmark, hbefore, hid⟩ := h
  obtain ⟨k, hk⟩ := Nat.exists_eq_add_of_lt hi
  have hnone : (List.range i).filter (DeleteMark m ·) = [] := by
    refine List.filter_eq_nil_iff.mpr fun j hj => ?_
    rw [decide_eq_true_iff]
    exact hbefore j (List.mem_range.mp hj)
  have hrange : List.range inodeMaxCnt = List.range i ++ i :: (List.range k).map (i + 1 + ·) := by
    rw [hk, Nat.add_right_comm, List.range_add, List.range_succ, List.append_assoc, List.singleton_append]
  rw [deleteMarks, hrange, List.filter_append, hnone, List.nil_append, List.filter_cons,
    if_pos (decide_eq_true hmark), List.map_cons]
  exact ⟨_, _, rfl, hid⟩

/-- A deleted file ends the collection with an I/O error. -/
theorem FullTable.collectGarbage_barred (h : FullTable v.mem) (hb : Barred v.mem) :
    collectGarbage uninit v = .error .io v := by
  obtain ⟨last, hobs⟩ : ∃ last, collectObsolete uninit (List.range inodeMaxCnt) [] uninit.inode v =
      .ok ([] ++ deleteMarks v.mem (List.range inodeMaxCnt), last) v :=
    h.collectObsolete_run fun i hi => List.mem_range.mp hi
  obtain ⟨⟨fileId, updateCnt⟩, ds, hmarks, hid⟩ := hb.marks
  rw [collectGarbage, bind_ok hobs, hmarks]
  exact bind_error (deleteFiles_cons hid)

theorem rewritten_slot (hi : i < inodeMaxCnt) : ∀ x < 56, rewritten m (inodeAddr i + x) = m (inodeAddr i + x) := by
  intro x hx
  have hi' : i < 32 := hi
  have haddr := inodeAddr_eq hi
  have hstart : swapPageStart = 4190208 := rfl
  have htab : garbagePageTabStart = 1984 := rfl
  rw [rewritten, htab, hstart, if_neg (by omega), if_neg (by omega), if_neg (by omega)]

theorem FullTable.rewritten (h : FullTable m) : FullTable (rewritten m) := by
  intro i hi
  obtain ⟨hsize, hcnt, -⟩ := inodeAt_congr (rewritten_slot (m := m) hi)
  exact ⟨hsize ▸ (h i hi).fileSize, hcnt ▸ (h i hi).updateCnt⟩

/-- What is left of the state by a call that finds no inode. -/
structure NoneTaken (w w' : Fs) (e : FsErr) : Prop where
  file : w'.file = w.file
  cases : e = .io ∧ w'.mem = w.mem ∨ e = .noInode ∧ w'.mem = rewritten w.mem

theorem NoneTaken.slots {w' : Fs} {e : FsErr} (h : NoneTaken w w' e) : ∀ i < inodeMaxCnt, ∀ x < 56,
    w'.mem (inodeAddr i + x) = w.mem (inodeAddr i + x) := by
  intro i hi x hx
  rcases h.cases with ⟨-, hmem⟩ | ⟨-, hmem⟩
  · rw [hmem]
  · rw [hmem]
    exact rewritten_slot hi x hx

theorem FullTable.takeInode_run (h : FullTable w.mem) :
    ∃ e w', takeInode uninit w = .error e w' ∧ NoneTaken w w' e := by
  rw [takeInode_of_none h.freeInode]
  rcases FullTable.collectGarbage_cases (v := { w with page := loadedPage w metadataPageIdx }) h with
    herr | ⟨v', hok, hmem, hfile⟩
  · rw [bind_error herr]
    exact ⟨_, _, rfl, rfl, Or.inl ⟨rfl, rfl⟩⟩
  · have hfull : FullTable v'.mem := hmem ▸ h.rewritten
    rw [bind_ok hok, updateFp_of_none hfull.freeInode]
    exact ⟨_, _, rfl, hfile, Or.inr ⟨rfl, hmem⟩⟩

theorem FullTable.takeInode_barred (h : FullTable w.mem) (hb : Barred w.mem) :
    ∃ w', takeInode uninit w = .error .io w' ∧ w'.mem = w.mem ∧ w'.file = w.file := by
  have hcollect : collectGarbage uninit { w with page := loadedPage w metadataPageIdx } = .error .io _ :=
    FullTable.collectGarbage_barred h hb
  rw [takeInode_of_none h.freeInode]
  exact ⟨_, bind_error hcollect, rfl, rfl⟩

end Slos.Slfs
