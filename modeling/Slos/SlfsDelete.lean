import Slos.SlfsGarbage

/-!
# Deleting a file

`slfs_delete` writes one more inode with the name of the file, and `slfs_open` finds it like any other
version: a name opens as one that was never written only where the newest inode with it has an erased index.
-/

namespace Slos.Slfs
open Word ByteMemory Ramdisk

variable {m : Mem} {pname : ℕ → UInt8} {i k : ℕ} {w u : Fs} {uninit : Uninit}

/-- What the handle of a name that was never written holds. -/
structure NeverWritten (pf : SlfsFile) : Prop where
  fd : pf.fd = minusOne
  datablkAddr : pf.datablkAddr = minusOne
  fileSize : pf.fileSize = 0
  pos : pf.pos = 0
  updateCnt : pf.updateCnt = 0

def OpensAsNew (pname : ℕ → UInt8) (w : Fs) : Prop :=
  ∃ v, slfsOpen pname w = .ok () v ∧ NeverWritten v.file

/-- Its index is erased, or its fields happen to be those of a new handle. -/
def Vacant (inode : SlfsInode) : Prop :=
  inode.inodeIdx = minusOne ∨ inode.fileId = minusOne ∧ inode.datablkAddr = minusOne ∧
    inode.fileSize = 0 ∧ inode.updateCnt = 0

/-- The inode `slfs_open` selects, if there is one, is vacant. -/
def Unseen (pname : ℕ → UInt8) (m : Mem) : Prop :=
  ∀ k, Newest m pname inodeMaxCnt (some k) → Vacant (inodeAt m k)

theorem openNew_neverWritten (pf : SlfsFile) : NeverWritten (openNew pf pname) :=
  ⟨rfl, rfl, rfl, rfl, rfl⟩

theorem getDatablkNum_minusOne (h : w.file.datablkAddr = minusOne) : getDatablkNum w = .ok 0 w := by
  have hsize : Word.size = 4294967295 + 1 := rfl
  rw [getDatablkNum, getFile_bind, h, hsize, getDatablkNumLoop, if_pos rfl, pure_run]

/-- What `slfs_open` makes of the inode it selects. -/
theorem openFound_opensAsNew_iff {inode : SlfsInode}
    (hloop : openLoop pname (List.range inodeMaxCnt) none w = .ok (some inode) w) :
    OpensAsNew pname w ↔ Vacant inode := by
  rw [OpensAsNew, slfsOpen, bind_ok hloop]
  dsimp only
  by_cases hidx : inode.inodeIdx = minusOne
  · rw [if_neg (not_not_intro hidx)]
    exact iff_of_true ⟨_, rfl, openNew_neverWritten w.file⟩ (Or.inl hidx)
  · rw [if_pos hidx, modifyFile_bind, Vacant, or_iff_right hidx]
    constructor
    · rintro ⟨v, hrun, hnew⟩
      obtain ⟨num, v', hnum, hset⟩ := bind_eq_ok hrun
      obtain rfl := getDatablkNum_readOnly.ok hnum
      cases hset
      exact ⟨hnew.fd, hnew.datablkAddr, hnew.fileSize, hnew.updateCnt⟩
    · rintro ⟨hfd, haddr, hsize, hcnt⟩
      rw [bind_ok (getDatablkNum_minusOne haddr)]
      exact ⟨_, rfl, hfd, haddr, hsize, rfl, hcnt⟩

theorem vacant_readInode : Vacant (readInode m i) ↔ Vacant (inodeAt m i) := by
  rw [Vacant, Vacant, readInode_inodeIdx, readInode_fileId, readInode_fileSize, readInode_datablkAddr,
    readInode_updateCnt]

theorem opensAsNew_iff : OpensAsNew pname w ↔ Unseen pname w.mem := by
  obtain ⟨o, hloop, hnew⟩ := openLoop_newest (w := w) (le_refl inodeMaxCnt)
  cases o with
  | none =>
      have hopen : slfsOpen pname w = .ok () { w with file := openNew w.file pname } := by
        rw [slfsOpen, bind_ok hloop]
        rfl
      have hunseen : Unseen pname w.mem := by
        intro k hk
        cases hk.unique hnew
      exact iff_of_true ⟨_, hopen, openNew_neverWritten w.file⟩ hunseen
  | some k =>
      rw [openFound_opensAsNew_iff hloop, vacant_readInode]
      constructor
      · intro hvacant j hj
        cases hj.unique hnew
        exact hvacant
      · intro hunseen
        exact hunseen k hnew

/-- The inode that `slfs_delete` writes: the one it read but for four fields. -/
def tombstone (inode : SlfsInode) (pf : SlfsFile) : SlfsInode :=
  { inode with inodeIdx := pf.inodeIdx, updateCnt := pf.updateCnt, fileSize := 0, datablkAddr := 0 }

/-- The files and handles once the handle `h` is deleted. -/
def deletedSys (s : SlfsSys) (h : ℕ) (u : Fs) : SlfsSys := ⟨u, Function.update s.handles h u.file⟩

/-- A call on another name. -/
def OtherName (pname : ℕ → UInt8) (s : SlfsSys) : SlfsCall → Prop
  | .slfsOpen _ n => nameMatches pname n = false
  | .slfsWrite h _ _ _ => nameMatches pname (s.handles h).name = false
  | .slfsDelete h _ => nameMatches pname (s.handles h).name = false

/-- Whichever handle of a completed file is deleted, its name opens as new from then on, as long as no call is
on that name. -/
def DeletionFinal (s : SlfsSys) : Prop :=
  ∀ (h : ℕ) (uninit : Uninit) (u : Fs) (pname : ℕ → UInt8) (calls : List SlfsCall),
    (s.handles h).inodeIdx < inodeMaxCnt → Completed s.fs.mem (s.handles h).inodeIdx →
    nameMatches pname (inodeAt s.fs.mem (s.handles h).inodeIdx).name →
    slfsDelete uninit { s.fs with file := s.handles h } = .ok () u →
    Machine.StepsMeet slfsStep (OtherName pname) (deletedSys s h u) calls →
    Machine.Always slfsStep (fun t => ∀ pf, OpensAsNew pname { t.fs with file := pf }) (deletedSys s h u) calls

/-- The state after the file with the name of one letter is written. -/
theorem createA_state : ∃ s, Machine.exec slfsStep erasedSys createA = some s ∧
    (s.handles 0).inodeIdx < inodeMaxCnt ∧ Completed s.fs.mem (s.handles 0).inodeIdx ∧
    nameMatches (letter 97) (inodeAt s.fs.mem (s.handles 0).inodeIdx).name ∧ freeInode s.fs.mem ≠ none ∧
    ∃ u, slfsDelete zeroUninit { s.fs with file := s.handles 0 } = .ok () u ∧
      (stateAfter (slfsOpen (letter 97) u)).file.datablkAddr = 0 := by
  have hrun : (Machine.exec slfsStep erasedSys createA).any (fun s =>
      decide ((s.handles 0).inodeIdx < inodeMaxCnt ∧
        (inodeAt s.fs.mem (s.handles 0).inodeIdx).fileSize ≠ minusOne ∧
        (inodeAt s.fs.mem (s.handles 0).inodeIdx).updateCnt ≠ minusOne ∧
        nameMatches (letter 97) (inodeAt s.fs.mem (s.handles 0).inodeIdx).name ∧ freeInode s.fs.mem ≠ none ∧
        succeeded (slfsDelete zeroUninit { s.fs with file := s.handles 0 }) ∧
        (stateAfter (slfsOpen (letter 97)
          (stateAfter (slfsDelete zeroUninit { s.fs with file := s.handles 0 })))).file.datablkAddr = 0)) = true := by
    decide +kernel
  obtain ⟨s, hs, hdec⟩ := (Option.any_eq_true ..).mp hrun
  obtain ⟨hlt, hsize, hcnt, hname, hfree, hok, haddr⟩ := of_decide_eq_true hdec
  exact ⟨s, hs, hlt, ⟨hsize, hcnt⟩, hname, hfree, _, eq_ok_of_succeeded hok, haddr⟩

/-- Opened again, the deleted file has block address 0. -/
theorem deleted_file_found : ¬ Machine.Always slfsStep DeletionFinal erasedSys createA := by
  intro h
  obtain ⟨s, hs, hlt, hcompleted, hname, -, u, hdel, haddr⟩ := createA_state
  have hfinal := Machine.always_iff_exec.mp h _ List.prefix_rfl s hs
  have hnew := (hfinal 0 zeroUninit u (letter 97) [] hlt hcompleted hname hdel trivial).start u.file
  obtain ⟨v, hopen, hfresh⟩ := hnew
  have hsame : slfsOpen (letter 97) u = .ok () v := hopen
  rw [hsame] at haddr
  have hminus := hfresh.datablkAddr
  exact absurd (hminus.symm.trans haddr) (by decide)

end Slos.Slfs
