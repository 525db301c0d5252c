import Slos.SlfsDelete

/-!
# Listing and closing files

`slfs_get_next_file` walks the inode table, and `slfs_close` ends the use of a handle. The array of deleted
ids is filled as far as there are any; behind them it holds what was on the stack.
-/

namespace Slos.Slfs
open Word ByteMemory Ramdisk

/-- What the two calls return. -/
inductive Ret
  | noErr
  | nullPtrErr
  | inodeLastErr
  deriving DecidableEq

/-- The first pass: the file ids of the inodes that `slfs_delete` wrote. -/
def deletedIds : List ℕ → FsM (List ℕ)
  | [] => pure []
  | i :: is => do
      let b ← readOrErr (inodeTabStart + i * inodeSize) inodeSize
      let inode := SlfsInode.atAddr b 0
      let ids ← deletedIds is
      pure (if inode.fileSize = 0 ∧ inode.datablkAddr = 0 then inode.fileId :: ids else ids)

def delFileDesc (garbage : ℕ → ℕ) (ids : List ℕ) (j : ℕ) : ℕ := ids.getD j (garbage j)

/-- The test of the second pass: an entry of the array, one of them, is not the id of the file. -/
def notDeleted (desc : ℕ → ℕ) (inode : SlfsInode) : Bool :=
  (List.range inodeMaxCnt).any fun j => desc j != inode.fileId

def findNext (desc : ℕ → ℕ) : List ℕ → FsM (Option (ℕ × SlfsInode))
  | [] => pure none
  | i :: is => do
      let b ← readOrErr (inodeTabStart + i * inodeSize) inodeSize
      let inode := SlfsInode.atAddr b 0
      if inode.inodeIdx ≠ minusOne ∧ inode.updateCnt ≠ minusOne ∧ notDeleted desc inode then
        pure (some (i, inode))
      else findNext desc is

def nextFile (pf : SlfsFile) (inode : SlfsInode) : SlfsFile :=
  { pf with
    datablkAddr := inode.datablkAddr
    fd := inode.inodeIdx
    fileSize := inode.fileSize
    name := copyName pf.name inode.name }

/-- Also returns the inode location it leaves behind. -/
def slfsGetNextFile (garbage : ℕ → ℕ) (inodeLoc : ℕ) : FsM (Ret × ℕ) := do
  let ids ← deletedIds (List.range inodeMaxCnt)
  match ← findNext (delFileDesc garbage ids) (List.range' inodeLoc (inodeMaxCnt - inodeLoc)) with
  | some (i, inode) =>
      modifyFile fun pf => nextFile pf inode
      pure (.noErr, i)
  -- the loop ends at the table's size, or does not begin
  | none => pure (if inodeLoc ≤ inodeMaxCnt then .inodeLastErr else .noErr, inodeLoc)

def closedFile (pf : SlfsFile) : SlfsFile :=
  { pf with
    fd := minusOne
    datablkAddr := minusOne
    fileSize := 0
    openCnt := usub pf.openCnt 1
    pos := 0 }

def slfsClose : FsM Ret := do
  let pf ← getFile
  if pf.fd = minusOne then pure .nullPtrErr
  else
    modifyFile closedFile
    pure .noErr

variable {m : Mem} {w : Fs} {i loc : ℕ} {is : List ℕ} {desc garbage : ℕ → ℕ}

/-- The inode has an index and an update count and is not taken for one of a deleted file. -/
def Shown (desc : ℕ → ℕ) (m : Mem) (i : ℕ) : Prop :=
  (inodeAt m i).inodeIdx ≠ minusOne ∧ (inodeAt m i).updateCnt ≠ minusOne ∧
    ∃ j < inodeMaxCnt, desc j ≠ (inodeAt m i).fileId

instance : Decidable (Shown desc m i) := inferInstanceAs (Decidable (_ ∧ _ ∧ _))

def recordedIds (m : Mem) : List ℕ :=
  ((List.range inodeMaxCnt).filter (DeleteMark m ·)).map fun i => (inodeAt m i).fileId

/-- The array of a call, whose stack held `garbage`. -/
def descOf (garbage : ℕ → ℕ) (m : Mem) : ℕ → ℕ := delFileDesc garbage (recordedIds m)

theorem notDeleted_iff {inode : SlfsInode} : notDeleted desc inode ↔ ∃ j < inodeMaxCnt, desc j ≠ inode.fileId := by
  simp [notDeleted]

theorem deletedIds_run (h : ∀ i ∈ is, i < inodeMaxCnt) :
    deletedIds is w = .ok ((is.filter (DeleteMark w.mem ·)).map fun i => (inodeAt w.mem i).fileId) w := by
  induction is with
  | nil => rfl
  | cons i is ih =>
      have hread : SlfsInode.atAddr (ofBytes (bytes w.mem (inodeAddr i) 56)) 0 = readInode w.mem i := rfl
      have hrest := ih fun j hj => h j (List.mem_cons_of_mem _ hj)
      have htest : ((readInode w.mem i).fileSize = 0 ∧ (readInode w.mem i).datablkAddr = 0) ↔ DeleteMark w.mem i := by
        rw [readInode_fileSize, readInode_datablkAddr, DeleteMark]
      rw [deletedIds, bind_ok (readInode_run (h i List.mem_cons_self)), bind_ok hrest, pure_run, hread]
      by_cases hmark : DeleteMark w.mem i
      · have hdec : decide (DeleteMark w.mem i) = true := decide_eq_true hmark
        rw [if_pos (htest.mpr hmark), List.filter_cons, if_pos hdec, List.map_cons, readInode_fileId]
      · have hdec : ¬ decide (DeleteMark w.mem i) = true := by rwa [decide_eq_true_iff]
        rw [if_neg (mt htest.mp hmark), List.filter_cons, if_neg hdec]

theorem findNext_run (h : ∀ i ∈ is, i < inodeMaxCnt) :
    findNext desc is w = .ok ((is.find? (Shown desc w.mem ·)).map fun i => (i, readInode w.mem i)) w := by
  induction is with
  | nil => rfl
  | cons i is ih =>
      have hread : SlfsInode.atAddr (ofBytes (bytes w.mem (inodeAddr i) 56)) 0 = readInode w.mem i := rfl
      have htest : ((readInode w.mem i).inodeIdx ≠ minusOne ∧ (readInode w.mem i).updateCnt ≠ minusOne ∧
          notDeleted desc (readInode w.mem i)) ↔ Shown desc w.mem i := by
        rw [notDeleted_iff, readInode_inodeIdx, readInode_updateCnt, readInode_fileId, Shown]
      rw [findNext, bind_ok (readInode_run (h i List.mem_cons_self))]
      rw [hread]
      by_cases hshown : Shown desc w.mem i
      · have hdec : decide (Shown desc w.mem i) = true := decide_eq_true hshown
        rw [if_pos (htest.mpr hshown), List.find?_cons, hdec]
        rfl
      · have hdec : decide (Shown desc w.mem i) = false := decide_eq_false hshown
        rw [if_neg (mt htest.mp hshown), List.find?_cons, hdec]
        exact ih fun j hj => h j (List.mem_cons_of_mem _ hj)

theorem deletedIds_range (w : Fs) : deletedIds (List.range inodeMaxCnt) w = .ok (recordedIds w.mem) w :=
  deletedIds_run fun _ hi => List.mem_range.mp hi

/-- The first slot from the location on that is shown. -/
def nextShown (garbage : ℕ → ℕ) (m : Mem) (loc : ℕ) : Option ℕ :=
  (List.range' loc (inodeMaxCnt - loc)).find? (Shown (descOf garbage m) m ·)

theorem findNext_nextShown (garbage : ℕ → ℕ) (loc : ℕ) (w : Fs) :
    findNext (descOf garbage w.mem) (List.range' loc (inodeMaxCnt - loc)) w =
      .ok ((nextShown garbage w.mem loc).map fun i => (i, readInode w.mem i)) w := by
  apply findNext_run
  intro i hi
  have hbound := List.mem_range'_1.mp hi
  omega

theorem slfsGetNextFile_none (h : nextShown garbage w.mem loc = none) : slfsGetNextFile garbage loc w =
    .ok (if loc ≤ inodeMaxCnt then .inodeLastErr else .noErr, loc) w := by
  have hfind := findNext_nextShown garbage loc w
  rw [h, descOf] at hfind
  rw [slfsGetNextFile, bind_ok (deletedIds_range w), bind_ok hfind]
  rfl

theorem slfsGetNextFile_some (h : nextShown garbage w.mem loc = some i) : slfsGetNextFile garbage loc w =
    .ok (.noErr, i) { w with file := nextFile w.file (readInode w.mem i) } := by
  have hfind := findNext_nextShown garbage loc w
  rw [h, descOf] at hfind
  rw [slfsGetNextFile, bind_ok (deletedIds_range w), bind_ok hfind]
  rfl

/-- The location of the next file is the first one from `loc` on whose inode is shown. -/
theorem nextShown_eq_some : nextShown garbage m loc = some i ↔ (i < inodeMaxCnt ∧ loc ≤ i) ∧
    Shown (descOf garbage m) m i ∧ ∀ j < i, loc ≤ j → ¬ Shown (descOf garbage m) m j := by
  rw [nextShown, List.find?_range'_eq_some]
  simp only [decide_eq_true_eq, List.mem_range'_1, Bool.not_eq_true', decide_eq_false_iff_not]
  constructor
  · rintro ⟨hshown, ⟨hle, hlt⟩, hbefore⟩
    exact ⟨⟨by omega, hle⟩, hshown, fun j hj hloc => hbefore j hloc hj⟩
  · rintro ⟨⟨hlt, hle⟩, hshown, hbefore⟩
    exact ⟨hshown, ⟨hle, by omega⟩, fun j hloc hj => hbefore j hj hloc⟩

end Slos.Slfs
