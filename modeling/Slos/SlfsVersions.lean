import Slos.Machine
import Slos.SlfsOpen
import Slos.SlfsPages
import Slos.SlfsPhases

/-!
# Versions under power loss

Runs of `slfs_open` and `slfs_write` in which the power may be lost before any device operation of a
write. A log beside the run records which slot the completed writes on each name went to, and
`slfs_open` is to find the newest of them.
-/

namespace Slos.Slfs
open Word ByteMemory Ramdisk ScatterGather

variable {m m' : Mem} {i j needed : ℕ} {inode : SlfsInode} {pname : ℕ → UInt8} {pf : SlfsFile} {len : ℕ}
  {uninit : Uninit}

theorem SlotIs.fields (h : SlotIs m m' i inode) (hi : i < inodeMaxCnt) :
    (inodeAt m' i).fileSize = u32 inode.fileSize ∧ (inodeAt m' i).updateCnt = u32 inode.updateCnt ∧
      (inodeAt m' i).inodeIdx = u32 inode.inodeIdx ∧ ∀ k < 32, (inodeAt m' i).name k = inode.name k := by
  have hslot := inodeAddr_lt hi
  have hword {a : ℕ} (ha : a + 4 ≤ inodeAddr i + 56) :
      word m' a = word (put m (inodeAddr i) inode.toBytes) a :=
    word_congr fun x _ hx => h x (by omega)
  refine ⟨(hword (by omega)).trans word_toBytes_fileSize, (hword (by omega)).trans word_toBytes_updateCnt,
    (hword (by omega)).trans word_toBytes_inodeIdx, fun k hk => ?_⟩
  exact (h (inodeAddr i + 24 + k) (by omega)).trans (toBytes_name hk)

theorem SlotIs.other (h : SlotIs m m' i inode) (hi : i < inodeMaxCnt) (hj : j < inodeMaxCnt) (hji : j ≠ i) :
    ∀ x < 56, m' (inodeAddr j + x) = m (inodeAddr j + x) := by
  intro x hx
  have hslot := inodeAddr_lt hj
  have haddr := inodeAddr_eq hi
  have haddr' := inodeAddr_eq hj
  rw [h _ (by omega), put_of_notMem (by rw [toBytes_length]; omega)]

/-- A free slot has no name. -/
theorem FreeSlot.no_match (h : FreeSlot m i) : nameMatches pname (inodeAt m i).name = false := by
  rw [← Bool.not_eq_true, nameMatches_iff]
  rintro ⟨hname, hsame⟩
  obtain ⟨k, hk, hzero⟩ := hname.of_same hsame
  have hk' : k < 16 := hk
  have hbyte := h (24 + k) (by omega)
  rw [← Nat.add_assoc] at hbyte
  exact absurd (hbyte.symm.trans hzero) (by decide)

/-- Slots up to `k` are used, the others are erased. -/
structure UsedTo (m : Mem) (k : ℕ) : Prop where
  le : k ≤ inodeMaxCnt
  used : ∀ j < k, (inodeAt m j).fileSize ≠ minusOne
  free : ∀ j, k ≤ j → j < inodeMaxCnt → FreeSlot m j

theorem UsedTo.freeInode (h : UsedTo m j) (hi : freeInode m = some i) : i = j := by
  have hlt := freeInode_lt hi
  have hsize := freeInode_fileSize hi
  rw [slotAddr_eq hlt] at hsize
  have hge : j ≤ i := by
    by_contra hnot
    exact h.used i (Nat.not_le.mp hnot) hsize
  rcases hge.lt_or_eq with hji | rfl
  · have hfree := h.free j le_rfl (hji.trans hlt)
    have hbefore := List.find?_range_eq_some.mp hi
    have hnot := hbefore.2.2 j hji
    rw [slotAddr_eq (hji.trans hlt), hfree.word_eq (by decide)] at hnot
    simp at hnot
  · rfl

theorem UsedTo.lt_of_match (h : UsedTo m i) (hj : j < inodeMaxCnt)
    (hmatch : nameMatches pname (inodeAt m j).name) : j < i := by
  by_contra hge
  rw [(h.free j (Nat.not_lt.mp hge) hj).no_match] at hmatch
  cases hmatch

section Slot

variable (hu : UsedTo m i) (hi : i < inodeMaxCnt)
  (hother : ∀ j < inodeMaxCnt, j ≠ i → ∀ x < 56, m' (inodeAddr j + x) = m (inodeAddr j + x))

include hu hi hother

theorem UsedTo.next (hsize : (inodeAt m' i).fileSize ≠ minusOne) : UsedTo m' (i + 1) := by
  refine ⟨hi, fun j hj => ?_, fun j hij hj x hx => ?_⟩
  · rcases Nat.lt_succ_iff_lt_or_eq.mp hj with hlt | rfl
    · rw [(inodeAt_congr (hother j (hlt.trans hi) hlt.ne)).1]
      exact hu.used j hlt
    · exact hsize
  · rw [hother j hj (Nat.lt_of_succ_le hij).ne' x hx]
    exact hu.free j (Nat.le_of_succ_le hij) hj x hx

/-- A slot that is filled but not newer than a version of the name is not found. -/
theorem Newest.keep {o : Option ℕ} (h : Newest m pname inodeMaxCnt o)
    (hnew : nameMatches pname (inodeAt m' i).name → ∃ j < inodeMaxCnt,
      nameMatches pname (inodeAt m j).name ∧ (inodeAt m' i).updateCnt ≤ (inodeAt m j).updateCnt) :
    Newest m' pname inodeMaxCnt o := by
  have hsame {j : ℕ} (hj : j < inodeMaxCnt) (hji : j ≠ i) :
      (inodeAt m' j).updateCnt = (inodeAt m j).updateCnt ∧
        nameMatches pname (inodeAt m' j).name = nameMatches pname (inodeAt m j).name := by
    obtain ⟨-, hcnt, -, hname⟩ := inodeAt_congr (hother j hj hji)
    exact ⟨hcnt, nameMatches_congr (fun _ _ => rfl) fun k hk => hname k (by omega)⟩
  cases o with
  | none =>
      intro j hj
      by_cases hji : j = i
      · subst hji
        by_contra hmatch
        obtain ⟨l, hl, hlm, -⟩ := hnew (Bool.not_eq_false _ ▸ hmatch)
        rw [h l hl] at hlm
        cases hlm
      · rw [(hsame hj hji).2]
        exact h j hj
  | some l =>
      obtain ⟨hl, hlm, hmax⟩ := h
      have hli : l < i := hu.lt_of_match hl hlm
      have hl' := hsame hl hli.ne
      refine ⟨hl, hl'.2.trans hlm, fun j hj hj' => ?_⟩
      rw [hl'.1]
      by_cases hji : j = i
      · subst hji
        obtain ⟨k, hk, hkm, hle⟩ := hnew hj'
        have hkl := hmax k hk hkm
        omega
      · rw [(hsame hj hji).2] at hj'
        rw [(hsame hj hji).1]
        exact hmax j hj hj'

/-- A slot that is filled with a newer version is found. -/
theorem Newest.take (hnew : nameMatches pname (inodeAt m' i).name) (hup : ∀ j < inodeMaxCnt,
    nameMatches pname (inodeAt m j).name → (inodeAt m j).updateCnt < (inodeAt m' i).updateCnt) :
    Newest m' pname inodeMaxCnt (some i) := by
  refine ⟨hi, hnew, fun j hj hj' => ?_⟩
  by_cases hji : j = i
  · subst hji
    exact Or.inr ⟨rfl, le_rfl⟩
  · obtain ⟨-, hcnt, -, hname⟩ := inodeAt_congr (hother j hj hji)
    rw [nameMatches_congr (fun _ _ => rfl) fun k hk => hname k (by omega)] at hj'
    rw [hcnt]
    exact Or.inl (hup j hj hj')

end Slot

/-- The completed writes of a run, the last one first: the name and the slot. -/
abbrev WriteLog := List ((ℕ → UInt8) × ℕ)

open Classical in
/-- The slot of the last completed write on a name. -/
noncomputable def lastOf (log : WriteLog) (pname : ℕ → UInt8) : Option ℕ :=
  (log.find? fun e => SameName e.1 pname).map Prod.snd

variable {log : WriteLog} {a : ℕ → UInt8}

@[simp] theorem lastOf_nil : lastOf [] pname = none := rfl

theorem lastOf_cons_same (h : SameName a pname) : lastOf ((a, i) :: log) pname = some i := by
  rw [lastOf, List.find?_cons_of_pos (by simpa using h)]
  rfl

theorem lastOf_cons_other (h : ¬ SameName a pname) : lastOf ((a, i) :: log) pname = lastOf log pname := by
  rw [lastOf, List.find?_cons_of_neg (by simpa using h), lastOf]

/-- What the inode table keeps all along a run. -/
structure Versions (m : Mem) (log : WriteLog) : Prop where
  used : ∃ k, UsedTo m k
  newest : ∀ pname, Newest m pname inodeMaxCnt (lastOf log pname)
  idx : ∀ pname i, lastOf log pname = some i → (inodeAt m i).inodeIdx = i

theorem Versions.lt (h : Versions m log) (hlast : lastOf log pname = some j) : j < inodeMaxCnt := by
  have hnew := h.newest pname
  rw [hlast] at hnew
  exact hnew.1

theorem Versions.ne_free (h : Versions m log) (hu : UsedTo m i) (hlast : lastOf log pname = some j) :
    j ≠ i := by
  have hnew := h.newest pname
  rw [hlast] at hnew
  exact (hu.lt_of_match hnew.1 hnew.2.1).ne

theorem inodeIdx_congr (h : ∀ x < 56, m' (inodeAddr i + x) = m (inodeAddr i + x)) :
    (inodeAt m' i).inodeIdx = (inodeAt m i).inodeIdx :=
  word_shift fun k hk => h k (by omega)

/-- Only the inode table matters. -/
theorem Versions.transfer (h : Versions m log) (heq : ∀ x < ramdiskPageSize, m' x = m x) :
    Versions m' log := by
  have hslot {j : ℕ} (hj : j < inodeMaxCnt) : ∀ x < 56, m' (inodeAddr j + x) = m (inodeAddr j + x) :=
    fun x hx => heq _ (lt_trans (Nat.add_lt_add_left hx _) (inodeAddr_lt hj))
  have hmatch {n : ℕ → UInt8} {j : ℕ} (hj : j < inodeMaxCnt) :
      nameMatches n (inodeAt m' j).name = nameMatches n (inodeAt m j).name :=
    nameMatches_congr (fun _ _ => rfl) fun k hk => (inodeAt_congr (hslot hj)).2.2.2 k (by omega)
  obtain ⟨k, hk⟩ := h.used
  refine ⟨⟨k, hk.le, fun j hj => ?_, fun j hkj hj x hx => ?_⟩, fun n => ?_, fun n i hlast => ?_⟩
  · rw [(inodeAt_congr (hslot (hj.trans_le hk.le))).1]
    exact hk.used j hj
  · rw [hslot hj x hx]
    exact hk.free j hkj hj x hx
  · have hnew := h.newest n
    cases hlast : lastOf log n with
    | none =>
        rw [hlast] at hnew
        exact fun j hj => (hmatch hj).trans (hnew j hj)
    | some i =>
        rw [hlast] at hnew
        obtain ⟨hi, him, hmax⟩ := hnew
        refine ⟨hi, (hmatch hi).trans him, fun j hj hj' => ?_⟩
        rw [hmatch hj] at hj'
        rw [(inodeAt_congr (hslot hi)).2.1, (inodeAt_congr (hslot hj)).2.1]
        exact hmax j hj hj'
  · exact (inodeIdx_congr (hslot (h.lt hlast))).trans (h.idx n i hlast)

section Filled

variable (h : Versions m log) (hu : UsedTo m i) (hi : i < inodeMaxCnt)

include h hu hi

/-- A slot that is filled but not newer than a version of its name changes no version. -/
theorem Versions.filled
    (hother : ∀ j < inodeMaxCnt, j ≠ i → ∀ x < 56, m' (inodeAddr j + x) = m (inodeAddr j + x))
    (hsize : (inodeAt m' i).fileSize ≠ minusOne)
    (hnew : ∀ pname, nameMatches pname (inodeAt m' i).name → ∃ j < inodeMaxCnt,
      nameMatches pname (inodeAt m j).name ∧ (inodeAt m' i).updateCnt ≤ (inodeAt m j).updateCnt) :
    Versions m' log := by
  refine ⟨⟨i + 1, hu.next hi hother hsize⟩, fun n => (h.newest n).keep hu hi hother (hnew n),
    fun n j hlast => ?_⟩
  exact (inodeIdx_congr (hother j (h.lt hlast) (h.ne_free hu hlast))).trans (h.idx n j hlast)

/-- Linking the blocks changes neither names nor update counts. -/
theorem Versions.opened {fileSize : ℕ} (ho : OnlyOpened m m' i fileSize) (hsize : fileSize < minusOne) :
    Versions m' log := by
  have hslot := inodeAddr_lt hi
  rcases ho.opened with hsame | hword
  · exact h.transfer hsame
  · refine h.filled hu hi (fun j hj hji x hx => ?_) ?_ fun n hmatch => ?_
    · have hslot' := inodeAddr_lt hj
      have haddr := inodeAddr_eq hi
      have haddr' := inodeAddr_eq hj
      exact ho.rest _ (by omega) (by omega)
    · exact (hword.trans_lt hsize).ne
    · have hname : ∀ k < 16, (inodeAt m' i).name k = (inodeAt m i).name k := fun k hk =>
        ho.rest (inodeAddr i + 24 + k) (by omega) (by omega)
      rw [nameMatches_congr (fun _ _ => rfl) hname, (hu.free i le_rfl hi).no_match] at hmatch
      cases hmatch

/-- The inode is written without its update count and is not newer than a version of its name. -/
theorem Versions.hidden (hs : SlotIs m m' i inode) (hsize : u32 inode.fileSize ≠ minusOne)
    (hnew : Terminated inode.name → ∃ j < inodeMaxCnt, nameMatches inode.name (inodeAt m j).name ∧
      u32 inode.updateCnt ≤ (inodeAt m j).updateCnt) : Versions m' log := by
  obtain ⟨hs', hcnt, -, hname⟩ := hs.fields hi
  refine h.filled hu hi (fun j hj hji => hs.other hi hj hji) (hs' ▸ hsize) fun n hmatch => ?_
  rw [nameMatches_congr (fun _ _ => rfl) fun k hk => hname k (by omega), nameMatches_iff] at hmatch
  obtain ⟨hn, hsame⟩ := hmatch
  obtain ⟨j, hj, hjm, hle⟩ := hnew (hn.of_same hsame)
  refine ⟨j, hj, nameMatches_iff.mpr ⟨hn, hsame.trans (nameMatches_iff.mp hjm).2⟩, ?_⟩
  rw [hcnt]
  exact hle

/-- The inode is written completely and is newer than every version of its name. -/
theorem Versions.closed (hs : SlotIs m m' i inode) (hsize : u32 inode.fileSize ≠ minusOne)
    (hidx : inode.inodeIdx = i) (hn : Terminated pname) (hname : SameName pname inode.name)
    (hup : ∀ j < inodeMaxCnt, nameMatches inode.name (inodeAt m j).name →
      (inodeAt m j).updateCnt < u32 inode.updateCnt) : Versions m' ((pname, i) :: log) := by
  obtain ⟨hs', hcnt, hidx', hname'⟩ := hs.fields hi
  have hother := fun j hj hji => hs.other (j := j) hi hj hji
  have hi' : u32 i = i := u32_of_lt (hi.trans (by decide))
  have hmatch {n : ℕ → UInt8} : nameMatches n (inodeAt m' i).name ↔ SameName pname n := by
    rw [nameMatches_congr (fun _ _ => rfl) fun k hk => hname' k (by omega), nameMatches_iff]
    constructor
    · rintro ⟨-, hsame⟩
      exact hname.trans hsame.symm
    · intro hsame
      exact ⟨hn.of_same hsame, hsame.symm.trans hname⟩
  refine ⟨⟨i + 1, hu.next hi hother (hs' ▸ hsize)⟩, fun n => ?_, fun n j hlast => ?_⟩
  · by_cases hsame : SameName pname n
    · rw [lastOf_cons_same hsame]
      refine Newest.take hu hi hother (hmatch.mpr hsame) fun j hj hj' => ?_
      rw [hcnt]
      refine hup j hj ?_
      obtain ⟨hn', hnj⟩ := nameMatches_iff.mp hj'
      have hni : SameName inode.name n := hname.symm.trans hsame
      exact nameMatches_iff.mpr ⟨hn.of_same hname, hni.trans hnj⟩
    · rw [lastOf_cons_other hsame]
      exact (h.newest n).keep hu hi hother fun hm => absurd (hmatch.mp hm) hsame
  · by_cases hsame : SameName pname n
    · rw [lastOf_cons_same hsame] at hlast
      obtain rfl := Option.some.inj hlast
      rw [hidx', hidx, hi']
    · rw [lastOf_cons_other hsame] at hlast
      exact (inodeIdx_congr (hother j (h.lt hlast) (h.ne_free hu hlast))).trans (h.idx n j hlast)

end Filled

/-- The system with the handles that are open, each with the name given to `slfs_open`. -/
structure PowerSys where
  fs : Fs
  handles : ℕ → Option (SlfsFile × (ℕ → UInt8))
  log : WriteLog

inductive PowerStep
  /-- `pf` is what the handle holds when it was not open. -/
  | slfsOpen (h : ℕ) (pname : ℕ → UInt8) (pf : SlfsFile)
  | slfsWrite (h : ℕ) (pbuf : Mem) (len : ℕ) (uninit : Uninit)
  /-- The power is lost after `k` device operations of a write, before the last one. -/
  | cutWrite (h : ℕ) (pbuf : Mem) (len : ℕ) (uninit : Uninit) (k : ℕ) (lost : Fs)
  | powerLoss (lost : Fs)
  /-- Other code writes to the memory outside the device. -/
  | otherCode (ram : Mem)

/-- The device keeps its contents. -/
def withRam (m ram : Mem) : Mem := fun x => if x < ramdiskSize then m x else ram x

def hung : EStateM.Result FsErr Fs Unit → Bool
  | .error .hang _ => true
  | _ => false

def powerStep (s : PowerSys) : PowerStep → Option PowerSys
  | .slfsOpen h pname pf =>
      let r := Slfs.slfsOpen pname { s.fs with file := ((s.handles h).map Prod.fst).getD pf }
      if hung r then none else some
        { s with
          fs := stateAfter r
          handles := Function.update s.handles h (some ((stateAfter r).file, pname)) }
  | .slfsWrite h pbuf len uninit => (s.handles h).bind fun f =>
      let r := Slfs.slfsWrite pbuf (u32 len) uninit { s.fs with file := f.1 }
      if hung r then none else some
        { fs := stateAfter r
          handles := Function.update s.handles h (some ((stateAfter r).file, f.2))
          log := if succeeded r ∧ u32 len ≠ 0 then (f.2, (stateAfter r).file.inodeIdx) :: s.log else s.log }
  | .cutWrite h pbuf len uninit k lost => (s.handles h).bind fun f =>
      let ds := devices (Slfs.slfsWrite pbuf (u32 len) uninit) { s.fs with file := f.1 }
      if k + 1 < ds.length then ds[k]?.map fun m =>
        { fs := { lost with mem := withRam m lost.mem }, handles := fun _ => none, log := s.log }
      else none
  | .powerLoss lost => some
      { fs := { lost with mem := withRam s.fs.mem lost.mem }, handles := fun _ => none, log := s.log }
  | .otherCode ram => some { s with fs := { s.fs with mem := withRam s.fs.mem ram } }

/-- `slfs_open` takes the inode of the last completed write on every name. -/
def SelectsLast (s : PowerSys) : Prop := ∀ pname, ∃ found,
  openLoop pname (List.range inodeMaxCnt) none s.fs = .ok found s.fs ∧
    found = (lastOf s.log pname).map (readInode s.fs.mem) ∧
    ∀ inode ∈ found, inode.inodeIdx ≠ minusOne

/-- There is a free inode, there are free blocks for the file, and no more blocks are copied than it gets. -/
structure Sufficient (m : Mem) (pf : SlfsFile) (len : ℕ) : Prop where
  inode : freeInode m ≠ none
  blks : blksFor pf len ≤ (freeBlks m datablkStart datablkMaxCnt).length
  chain : pf.fileSize = 0 ∨ pf.allocedblkNum ≤ blksFor pf len

/-- The blocks taken for those of the previous version can all be read. -/
def Copies (m : Mem) (pf : SlfsFile) : Prop :=
  pf.fileSize ≠ 0 → Readable m pf.allocedblkNum pf.datablkAddr

def CountsUp (m : Mem) (pf : SlfsFile) : Prop := ∀ j < inodeMaxCnt,
  nameMatches pf.name (inodeAt m j).name → (inodeAt m j).updateCnt < u32 (pf.updateCnt + 1)

/-- An inode with this name and update count is not newer than what is there. -/
def Hidden (m : Mem) (name : ℕ → UInt8) (cnt : ℕ) : Prop := Terminated name → ∃ j < inodeMaxCnt,
  nameMatches name (inodeAt m j).name ∧ u32 cnt ≤ (inodeAt m j).updateCnt

def Idle (pf : SlfsFile) (len : ℕ) : Prop := pf.openCnt = 0 ∨ len = 0

structure SafeWrite (m : Mem) (pf : SlfsFile) (len : ℕ) (uninit : Uninit) : Prop where
  sufficient : Sufficient m pf len
  counts : Copies m pf → CountsUp m pf
  failed : ¬ Copies m pf → Hidden m pf.name uninit.inode.updateCnt

structure SafeCut (m : Mem) (pf : SlfsFile) (len : ℕ) (uninit : Uninit) (k : ℕ) : Prop where
  sufficient : Sufficient m pf len
  first : k = blksFor pf len + 2 → Hidden m uninit.inode.name uninit.inode.updateCnt
  later : blksFor pf len + 3 ≤ k → Hidden m pf.name uninit.inode.updateCnt

/-- The condition on a step. -/
def Safe (s : PowerSys) : PowerStep → Prop
  | .slfsOpen _ pname _ => Terminated pname
  | .slfsWrite h _ len uninit => ∀ f, s.handles h = some f →
      Idle f.1 (u32 len) ∨ SafeWrite s.fs.mem f.1 (u32 len) uninit
  | .cutWrite h _ len uninit k _ => ∀ f, s.handles h = some f →
      Idle f.1 (u32 len) ∨ SafeCut s.fs.mem f.1 (u32 len) uninit k
  | .powerLoss _ => True
  | .otherCode _ => True

/-- What every state of a run keeps. -/
structure Recorded (s : PowerSys) : Prop where
  versions : Versions s.fs.mem s.log
  handles : ∀ h f, s.handles h = some f → f.1.pos = 0 ∧ Terminated f.2 ∧ SameName f.2 f.1.name

theorem Recorded.selectsLast {s : PowerSys} (h : Recorded s) : SelectsLast s := by
  intro n
  refine ⟨_, (h.versions.newest n).openLoop, rfl, fun inode hfound => ?_⟩
  obtain ⟨i, hi, rfl⟩ := Option.map_eq_some_iff.mp (Option.mem_def.mp hfound)
  have hidx : (readInode s.fs.mem i).inodeIdx = i :=
    (word_ofBytes_bytes (by decide)).trans (h.versions.idx n i hi)
  have hlt : i < 32 := h.versions.lt hi
  rw [hidx]
  simp only [minusOne]
  omega

theorem Versions.withRam (h : Versions m log) (ram : Mem) : Versions (withRam m ram) log :=
  h.transfer fun _ hx => if_pos (hx.trans (by decide))

theorem Versions.freeInode (h : Versions m log) (hi : freeInode m = some i) : UsedTo m i := by
  obtain ⟨k, hk⟩ := h.used
  exact hk.freeInode hi ▸ hk

/-- With the handle at position 0 the write is affordable and its data fits. -/
theorem Sufficient.affordable (h : Sufficient m pf len) (hpos : pf.pos = 0) (hopen : pf.openCnt ≠ 0)
    (hlen : 0 < len) (hlt : len < Word.size) (hi : freeInode m = some i) :
    Affordable m pf len i (blksFor pf len) ∧ Fits pf len (blksFor pf len) := by
  have hend : u32 (pf.pos + len) = len := by rw [hpos, Nat.zero_add, u32_of_lt hlt]
  have hgrown : 0 < grownSize pf len ∧ len ≤ grownSize pf len := by
    rw [grownSize, hend]
    split_ifs <;> omega
  refine ⟨⟨hopen, hlen, hi, rfl, h.blks, hgrown.1, hend.trans_le hgrown.2⟩, ?_⟩
  by_cases hzero : pf.fileSize = 0
  · have hsize : grownSize pf len = len := if_pos hzero
    refine Or.inl ⟨hzero, ?_⟩
    rw [blksFor, hsize]
    omega
  · exact Or.inr ⟨hzero, h.chain.resolve_left hzero⟩

theorem SameName.congr {a b b' : ℕ → UInt8} (h : SameName a b) (ha : Terminated a)
    (hb : ∀ k < slfsFnameLen, b' k = b k) : SameName a b' := by
  obtain ⟨j, hj, hzero⟩ := ha
  intro k hk
  have hlt : k < slfsFnameLen := by
    by_contra hge
    exact hk j (hj.trans_le (Nat.not_lt.mp hge)) hzero
  rw [hb k hlt]
  exact h k hk

theorem fullInode_name {k : ℕ} (hk : k < slfsFnameLen) : (fullInode uninit pf).name k = pf.name k := if_pos hk

theorem Hidden.full (h : Hidden m pf.name uninit.inode.updateCnt) : Hidden m (fullInode uninit pf).name
    (fullInode uninit pf).updateCnt := by
  rintro ⟨k, hk, hzero⟩
  obtain ⟨j, hj, hjm, hle⟩ := h ⟨k, hk, (fullInode_name hk).symm.trans hzero⟩
  refine ⟨j, hj, ?_, hle⟩
  rw [nameMatches_congr (fun k hk => fullInode_name hk) fun _ _ => rfl]
  exact hjm

theorem Idle.run {w : Fs} (h : Idle w.file len) (pbuf : Mem) (uninit : Uninit) :
    stateAfter (slfsWrite pbuf len uninit w) = w ∧
      ¬ (succeeded (slfsWrite pbuf len uninit w) ∧ len ≠ 0) := by
  rw [slfsWrite, getFile_bind]
  by_cases hopen : w.file.openCnt = 0
  · rw [if_pos hopen]
    exact ⟨rfl, fun hs => absurd hs.1 Bool.false_ne_true⟩
  · have hlen : len = 0 := h.resolve_left hopen
    rw [if_neg hopen, if_pos hlen]
    exact ⟨rfl, fun hs => hs.2 hlen⟩

/-- A complete write, with or without an error. -/
theorem SafeWrite.run {w : Fs} {pbuf : Mem} (hv : Versions w.mem log) (hpos : w.file.pos = 0)
    (hn : Terminated pname) (hname : SameName pname w.file.name) (hlt : len < Word.size)
    (hopen : w.file.openCnt ≠ 0) (hlen : len ≠ 0) (h : SafeWrite w.mem w.file len uninit)
    {r : EStateM.Result FsErr Fs Unit} (hr : slfsWrite pbuf len uninit w = r) :
    (stateAfter r).file.pos = 0 ∧ SameName pname (stateAfter r).file.name ∧
      Versions (stateAfter r).mem
        (if succeeded r ∧ len ≠ 0 then (pname, (stateAfter r).file.inodeIdx) :: log else log) := by
  obtain ⟨i, hi⟩ := Option.ne_none_iff_exists'.mp h.sufficient.inode
  have hu := hv.freeInode hi
  have hlti := freeInode_lt hi
  obtain ⟨haff, hfit⟩ := h.sufficient.affordable hpos hopen (Nat.pos_of_ne_zero hlen) hlt hi
  obtain ⟨p, alloc, later, linked, first, pf, hpf, hst, hok, hslot⟩ := haff.staged hfit hr
  have hfile := hst.file
  have hsize : pf.fileSize < minusOne := by
    rw [hpf]
    exact haff.grown_lt
  have hsize' : u32 pf.fileSize ≠ minusOne := by
    rw [u32_of_lt (hsize.trans (by decide))]
    exact hsize.ne
  have hpf' : pf.pos = 0 ∧ pf.name = w.file.name ∧ pf.inodeIdx = i ∧
      pf.updateCnt = u32 (w.file.updateCnt + 1) := by
    rw [hpf]
    exact ⟨hpos, rfl, rfl, rfl⟩
  obtain ⟨hpos', hname', hidx, hcnt⟩ := hpf'
  rw [hfile, hname', hidx]
  refine ⟨hpos', hname, ?_⟩
  by_cases hs : succeeded r = true
  · have hup := h.counts (hok.mp hs)
    rw [if_pos hs] at hslot
    rw [if_pos ⟨hs, hlen⟩]
    refine hv.closed hu hlti hslot hsize' hidx hn (hname.congr hn fun k hk => ?_) fun j hj hjm => ?_
    · rw [← hname']
      exact fullInode_name hk
    · have hcnt' : u32 pf.updateCnt = u32 (w.file.updateCnt + 1) := by
        rw [hcnt]
        exact u32_of_lt (u32_lt _)
      change _ < u32 pf.updateCnt
      rw [hcnt']
      refine hup j hj ?_
      rw [← nameMatches_congr (fun k hk => (fullInode_name hk).trans
        (congrFun hname' k)) fun _ _ => rfl]
      exact hjm
  · have hhid := h.failed fun hc => hs (hok.mpr hc)
    rw [← hname'] at hhid
    rw [if_neg hs] at hslot
    rw [if_neg fun hs' => hs hs'.1]
    exact hv.hidden hu hlti hslot hsize' hhid.full

/-- The place of a device among those of a write, oldest first. -/
theorem getElem?_stages {α : Type} {alloc later : List α} {linked first last a : α} {k : ℕ}
    (h : (last :: (later ++ first :: linked :: alloc)).reverse[k]? = some a)
    (hk : k + 1 < (last :: (later ++ first :: linked :: alloc)).reverse.length) :
    a ∈ alloc ∨ a = linked ∨ (k = alloc.length + 1 ∧ a = first) ∨ (alloc.length + 2 ≤ k ∧ a ∈ later) := by
  have hlist : (last :: (later ++ first :: linked :: alloc)).reverse =
      alloc.reverse ++ linked :: first :: (later.reverse ++ [last]) := by
    simp only [List.reverse_cons, List.reverse_append, List.append_assoc, List.cons_append, List.nil_append]
  rw [hlist] at h hk
  rcases lt_or_ge k alloc.length with hlt | hge
  · rw [List.getElem?_append_left (by rwa [List.length_reverse])] at h
    exact Or.inl (List.mem_reverse.mp (List.mem_of_getElem? h))
  · obtain ⟨d, rfl⟩ := Nat.exists_eq_add_of_le hge
    rw [List.getElem?_append_right (by rwa [List.length_reverse]), List.length_reverse,
      Nat.add_sub_cancel_left] at h
    match d, h, hk with
    | 0, h, _ =>
        cases h
        exact Or.inr (Or.inl rfl)
    | 1, h, _ =>
        cases h
        exact Or.inr (Or.inr (Or.inl ⟨rfl, rfl⟩))
    | d + 2, h, hk =>
        rw [List.getElem?_cons_succ, List.getElem?_cons_succ] at h
        simp only [List.length_append, List.length_cons, List.length_reverse, List.length_nil] at hk
        rw [List.getElem?_append_left (by rw [List.length_reverse]; omega)] at h
        exact Or.inr (Or.inr (Or.inr ⟨by omega, List.mem_reverse.mp (List.mem_of_getElem? h)⟩))

/-- A write that ends when the power is lost. -/
theorem SafeCut.run {w : Fs} {pbuf : Mem} {k : ℕ} (hv : Versions w.mem log) (hpos : w.file.pos = 0)
    (hlt : len < Word.size) (hopen : w.file.openCnt ≠ 0) (hlen : len ≠ 0)
    (h : SafeCut w.mem w.file len uninit k) (hk : k + 1 < (devices (slfsWrite pbuf len uninit) w).length)
    (hm : (devices (slfsWrite pbuf len uninit) w)[k]? = some m) : Versions m log := by
  obtain ⟨i, hi⟩ := Option.ne_none_iff_exists'.mp h.sufficient.inode
  have hu := hv.freeInode hi
  have hlti := freeInode_lt hi
  obtain ⟨haff, hfit⟩ := h.sufficient.affordable hpos hopen (Nat.pos_of_ne_zero hlen) hlt hi
  obtain ⟨p, alloc, later, linked, first, pf, hpf, hst, -⟩ :=
    Affordable.staged (w := { w with past := [] }) haff hfit (Eq.refl (slfsWrite pbuf len uninit _))
  have hpast := hst.past
  have hsize : pf.fileSize < minusOne := by
    rw [hpf]
    exact haff.grown_lt
  have hsize' : u32 pf.fileSize ≠ minusOne := by
    rw [u32_of_lt (hsize.trans (by decide))]
    exact hsize.ne
  have hname : pf.name = w.file.name := by
    rw [hpf]
    rfl
  rw [devices] at hk hm
  dsimp only at hk hm hpast
  rw [hpast, List.append_nil] at hk hm
  have hlength := hst.length
  rcases getElem?_stages hm hk with halloc | rfl | ⟨hk', rfl⟩ | ⟨hk', hlater⟩
  · exact hv.opened hu hlti (hst.opened m halloc) hsize
  · exact hv.opened hu hlti hst.linked hsize
  · exact hv.hidden hu hlti hst.first hsize' (h.first (by omega))
  · have hhid := h.later (by omega)
    rw [← hname] at hhid
    exact hv.hidden hu hlti (hst.later m hlater) hsize' hhid.full

/-- A call on a handle that leaves it at the start of a file with the name it was opened by. -/
theorem Recorded.update {s : PowerSys} (hs : Recorded s) {u : Fs} {n : ℕ} {pname : ℕ → UInt8} {log : WriteLog}
    (hv : Versions u.mem log) (hpos : u.file.pos = 0) (hn : Terminated pname) (hname : SameName pname u.file.name) :
    Recorded ⟨u, Function.update s.handles n (some (u.file, pname)), log⟩ := by
  constructor
  · exact hv
  · intro h f hf
    dsimp only at hf
    by_cases hh : h = n
    · subst hh
      rw [Function.update_self] at hf
      cases hf
      exact ⟨hpos, hn, hname⟩
    · rw [Function.update_of_ne hh] at hf
      exact hs.handles h f hf

theorem Recorded.step {s t : PowerSys} {c : PowerStep} (hs : Recorded s) (hc : Safe s c)
    (hstep : powerStep s c = some t) : Recorded t := by
  cases c with
  | slfsOpen n pname pf =>
      obtain ⟨w, hw⟩ : ∃ w, w = { s.fs with file := ((s.handles n).map Prod.fst).getD pf } := ⟨_, rfl⟩
      have hmem : w.mem = s.fs.mem := by rw [hw]
      rw [powerStep, ← hw] at hstep
      split at hstep
      · cases hstep
      · cases hstep
        obtain ⟨hpos, hname⟩ := slfsOpen_file (w := w) hc
        apply hs.update _ hpos hc hname
        rw [slfsOpen_mem, hmem]
        exact hs.versions
  | slfsWrite n pbuf len uninit =>
      obtain ⟨f, hf, hstep⟩ := Option.bind_eq_some_iff.mp hstep
      obtain ⟨hpos, hn, hname⟩ := hs.handles n f hf
      obtain ⟨w, hw⟩ : ∃ w, w = { s.fs with file := f.1 } := ⟨_, rfl⟩
      have hmem : w.mem = s.fs.mem := by rw [hw]
      have hfile : w.file = f.1 := by rw [hw]
      have hc := hc f hf
      rw [← hfile] at hpos hname hc
      obtain ⟨r, hr⟩ : ∃ r, Slfs.slfsWrite pbuf (u32 len) uninit w = r := ⟨_, rfl⟩
      have hrun : (stateAfter r).file.pos = 0 ∧ SameName f.2 (stateAfter r).file.name ∧
          Versions (stateAfter r).mem (if succeeded r ∧ u32 len ≠ 0 then
            (f.2, (stateAfter r).file.inodeIdx) :: s.log else s.log) := by
        by_cases hidle : Idle w.file (u32 len)
        · obtain ⟨hsame, hnot⟩ := hidle.run pbuf uninit
          rw [hr] at hsame hnot
          rw [if_neg hnot, hsame, hmem]
          exact ⟨hpos, hname, hs.versions⟩
        · rw [← hmem] at hc
          exact (hc.resolve_left hidle).run (hmem ▸ hs.versions) hpos hn hname (u32_lt len)
            (fun h0 => hidle (Or.inl h0)) (fun h0 => hidle (Or.inr h0)) hr
      rw [← hw] at hstep
      simp only [hr] at hstep
      split at hstep
      · cases hstep
      · cases hstep
        exact hs.update hrun.2.2 hrun.1 hn hrun.2.1
  | cutWrite n pbuf len uninit k lost =>
      obtain ⟨f, hf, hstep⟩ := Option.bind_eq_some_iff.mp hstep
      obtain ⟨hpos, -, -⟩ := hs.handles n f hf
      have hc := hc f hf
      obtain ⟨w, hw⟩ : ∃ w, w = { s.fs with file := f.1 } := ⟨_, rfl⟩
      have hmem : w.mem = s.fs.mem := by rw [hw]
      have hfile : w.file = f.1 := by rw [hw]
      rw [← hw] at hstep
      rw [← hfile] at hpos hc
      dsimp only at hstep
      split at hstep
      · rename_i hk
        obtain ⟨m, hm, ht⟩ := Option.map_eq_some_iff.mp hstep
        subst ht
        refine ⟨Versions.withRam ?_ _, fun h g hg => by cases hg⟩
        by_cases hidle : Idle w.file (u32 len)
        · have hsame := (Idle.run (w := { w with past := [] }) hidle pbuf uninit).1
          rw [devices, hsame] at hk
          exact absurd hk (by simp)
        · rw [← hmem] at hc
          exact (hc.resolve_left hidle).run (hmem ▸ hs.versions) hpos (u32_lt len)
            (fun h0 => hidle (Or.inl h0)) (fun h0 => hidle (Or.inr h0)) hk hm
      · cases hstep
  | powerLoss lost =>
      cases hstep
      exact ⟨hs.versions.withRam _, fun h g hg => by cases hg⟩
  | otherCode ram =>
      cases hstep
      exact ⟨hs.versions.withRam _, hs.handles⟩

/-- From an erased device on, `slfs_open` selects the inode of the last completed write in every state of a
run whose steps are safe. -/
theorem selects_last_of_safe {s : PowerSys} {is : List PowerStep}
    (herased : ∀ x < ramdiskSize, s.fs.mem x = 0xFF) (hlog : s.log = []) (hclosed : ∀ h, s.handles h = none)
    (hC : Machine.StepsMeet powerStep Safe s is) : Machine.Always powerStep SelectsLast s is := by
  have hfree : ∀ j < inodeMaxCnt, FreeSlot s.fs.mem j := fun j hj x hx =>
    herased _ ((Nat.add_lt_add_left hx _).trans ((inodeAddr_lt hj).trans (by decide)))
  have hversions : Versions s.fs.mem s.log := by
    rw [hlog]
    refine ⟨⟨0, Nat.zero_le _, fun j hj => absurd hj (Nat.not_lt_zero j), fun j _ hj => hfree j hj⟩,
      fun n j hj => (hfree j hj).no_match, fun n i hi => by cases hi⟩
  refine Machine.always_of_stepsMeet Recorded (fun _ h => h.selectsLast) (fun _ _ _ h hc hstep => h.step hc hstep)
    ⟨hversions, fun h f hf => ?_⟩ hC
  rw [hclosed h] at hf
  cases hf

def erasedPower : PowerSys := ⟨erasedFs, fun _ => none, []⟩

theorem letter_terminated {b : UInt8} : Terminated (letter b) := ⟨1, by decide, rfl⟩

theorem safeWrite_first : SafeWrite erasedFs.mem (openNew erasedFs.file (letter 97)) 1 zeroUninit where
  sufficient :=
    { inode := by decide +kernel
      blks := by
        have hmax : datablkMaxCnt = 8183 + 1 := rfl
        rw [hmax, freeBlks_succ, if_pos (by decide +kernel), List.length_cons]
        exact Nat.le_add_left 1 _
      chain := Or.inl rfl }
  counts _ j _ hj := by
    have hfree : FreeSlot erasedFs.mem j := fun _ _ => rfl
    rw [hfree.no_match] at hj
    cases hj
  failed h := absurd (fun hne => absurd rfl hne) h

/-- The file is found after the power is lost. -/
theorem selects_last_after_loss : Machine.Always powerStep SelectsLast erasedPower
    [.slfsOpen 0 (letter 97) erasedFs.file, .slfsWrite 0 (fun _ => 42) 1 zeroUninit, .powerLoss erasedFs] := by
  refine selects_last_of_safe (fun _ _ => rfl) rfl (fun _ => rfl) fun t ht =>
    ⟨letter_terminated, fun u hu => ⟨fun f hf => Or.inr ?_, fun v hv => ⟨trivial, trivial⟩⟩⟩
  have hopen := eq_ok_of_succeeded (r := slfsOpen (letter 97) erasedFs) (by decide +kernel)
  have hfile := slfsOpen_new hopen (by decide +kernel)
  have hmem := slfsOpen_mem (letter 97) erasedFs
  have hstep : powerStep erasedPower (.slfsOpen 0 (letter 97) erasedFs.file) = some
      { fs := stateAfter (slfsOpen (letter 97) erasedFs)
        handles := Function.update (fun _ => none) 0
          (some ((stateAfter (slfsOpen (letter 97) erasedFs)).file, letter 97))
        log := [] } := by
    change (if hung (slfsOpen (letter 97) erasedFs) then none else some _) = _
    rw [if_neg (by decide +kernel)]
    rfl
  obtain rfl := Option.some.inj (ht.symm.trans hstep)
  dsimp only at hf ⊢
  rw [Function.update_self] at hf
  cases hf
  rw [hmem, hfile]
  exact safeWrite_first

/-- The power is lost once the inode is written but for its update count, which holds what was on the stack:
the new file is found. -/
theorem unclosed_selected : ¬ Machine.Always powerStep SelectsLast erasedPower
    [.slfsOpen 0 (letter 97) erasedFs.file, .cutWrite 0 (fun _ => 42) 1 zeroUninit 4 erasedFs] := by
  intro h
  have hfound : (Machine.exec powerStep erasedPower
      [.slfsOpen 0 (letter 97) erasedFs.file, .cutWrite 0 (fun _ => 42) 1 zeroUninit 4 erasedFs]).any
      (fun t => t.log.isEmpty && (returned (openLoop (letter 97) (List.range inodeMaxCnt) none t.fs)).join.isSome) =
      true := by decide +kernel
  obtain ⟨t, ht, hbad⟩ := (Option.any_eq_true ..).mp hfound
  obtain ⟨found, hrun, hlast, -⟩ := Machine.always_iff_exec.mp h _ List.prefix_rfl t ht (letter 97)
  obtain ⟨hlog, hbad⟩ := (Bool.and_eq_true ..).mp hbad
  rw [List.isEmpty_iff.mp hlog, lastOf_nil] at hlast
  rw [hrun, hlast] at hbad
  cases hbad

end Slos.Slfs
