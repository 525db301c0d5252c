import Slos.SlfsLayout

/-!
# Deleted names

The runs of `slfs_open`, `slfs_write` and `slfs_delete` that keep the blocks apart free no slot of the inode
table, and every slot with a name holds an index. So a name once in the table is found by every later
`slfs_open`, a deleted one as well.
-/

namespace Slos.Slfs
open Word ByteMemory Ramdisk

variable {m m' : Mem} {pname : ℕ → UInt8} {i len : ℕ} {u v w : Fs} {pbuf : Mem} {uninit : Uninit}
  {taken : List ℕ} {s t : SlfsSys} {c : SlfsCall}

/-- An inode that a write or a delete has filled in. -/
structure Entered (inode : SlfsInode) : Prop where
  inodeIdx : inode.inodeIdx ≠ minusOne
  fileSize : inode.fileSize ≠ minusOne
  datablkAddr : inode.datablkAddr ≠ minusOne

theorem Entered.not_vacant {inode : SlfsInode} (h : Entered inode) : ¬ Vacant inode := by
  rintro (hidx | ⟨-, haddr, -⟩)
  · exact h.inodeIdx hidx
  · exact h.datablkAddr haddr

/-- No slot with a name is without an index. -/
def Indexed (m : Mem) : Prop := ∀ i < inodeMaxCnt, Terminated (inodeAt m i).name → Entered (inodeAt m i)

/-- A version of the name is in the table. -/
def Present (pname : ℕ → UInt8) (m : Mem) : Prop := ∃ i < inodeMaxCnt, nameMatches pname (inodeAt m i).name

/-- What a call leaves of the inode table: every slot with a name is as it was. -/
structure Enlarged (m m' : Mem) : Prop where
  indexed : Indexed m'
  names : ∀ i < inodeMaxCnt, Terminated (inodeAt m i).name → ∀ j < 16, (inodeAt m' i).name j = (inodeAt m i).name j

theorem indexed_of_erased (h : ∀ x, 192 ≤ x → x < ramdiskSize → m x = 0xFF) : Indexed m := by
  rintro i hi ⟨j, hj, hzero⟩
  have hj' : j < 16 := hj
  have hslot := inodeAddr_lt hi
  have haddr := inodeAddr_eq hi
  have hpage : ramdiskPageSize = 4096 := rfl
  have hend : ramdiskSize = 4194304 := rfl
  have hbyte : m (inodeAddr i + 24 + j) = 0xFF := h _ (by omega) (by omega)
  have hname : m (inodeAddr i + 24 + j) = 0 := hzero
  rw [hname] at hbyte
  exact absurd hbyte (by decide)

/-- In such a table a name that is there does not open as new. -/
theorem Indexed.not_opensAsNew (h : Indexed w.mem) (hp : Present pname w.mem) : ¬ OpensAsNew pname w := by
  intro hopen
  have hunseen := opensAsNew_iff.mp hopen
  obtain ⟨i, hi, hmatch⟩ := hp
  obtain ⟨o, -, hnew⟩ : ∃ o, _ ∧ Newest w.mem pname inodeMaxCnt o := openLoop_newest le_rfl
  cases o with
  | none =>
      rw [hnew i hi] at hmatch
      cases hmatch
  | some k =>
      obtain ⟨hterm, hsame⟩ := nameMatches_iff.mp hnew.2.1
      exact (h k hnew.1 (hterm.of_same hsame)).not_vacant (hunseen k hnew)

theorem Enlarged.present (h : Enlarged m m') (hp : Present pname m) : Present pname m' := by
  obtain ⟨i, hi, hmatch⟩ := hp
  obtain ⟨hterm, hsame⟩ := nameMatches_iff.mp hmatch
  refine ⟨i, hi, ?_⟩
  rw [nameMatches_congr (fun _ _ => rfl) (h.names i hi (hterm.of_same hsame))]
  exact hmatch

theorem Indexed.of_slots (h : Indexed m)
    (hslots : ∀ i < inodeMaxCnt, ∀ x < 56, m' (inodeAddr i + x) = m (inodeAddr i + x)) : Enlarged m m' := by
  refine ⟨fun i hi ⟨j, hj, hzero⟩ => ?_, fun i hi _ j hj => ?_⟩
  · obtain ⟨hsize, -, haddr, hname⟩ := inodeAt_congr (hslots i hi)
    have hj' : j < 16 := hj
    have hent := h i hi ⟨j, hj, (hname j (by omega)).symm.trans hzero⟩
    exact ⟨(inodeAt_ids_congr (hslots i hi)).1 ▸ hent.inodeIdx, hsize ▸ hent.fileSize, haddr ▸ hent.datablkAddr⟩
  · exact (inodeAt_congr (hslots i hi)).2.2.2 j (by omega)

/-- A call that fills in a free slot and blocks enlarges the table. -/
theorem Indexed.write (h : Indexed m) (hk : OthersKept m m' i taken) (hi : freeInode m = some i)
    (hent : Entered (inodeAt m' i)) : Enlarged m m' := by
  have hlt := freeInode_lt hi
  have hfree : word m (inodeAddr i + 8) = minusOne := slotAddr_eq hlt ▸ freeInode_fileSize hi
  constructor
  · rintro k hk' ⟨j, hj, hzero⟩
    by_cases hki : k = i
    · exact hki ▸ hent
    · obtain ⟨hsize, -, haddr, hname⟩ := inodeAt_congr (hk.slot hlt hk' hki)
      have hj' : j < 16 := hj
      have hent' := h k hk' ⟨j, hj, (hname j (by omega)).symm.trans hzero⟩
      exact ⟨(inodeAt_ids_congr (hk.slot hlt hk' hki)).1 ▸ hent'.inodeIdx, hsize ▸ hent'.fileSize,
        haddr ▸ hent'.datablkAddr⟩
  · intro k hk' hterm j hj
    by_cases hki : k = i
    · subst hki
      exact absurd hfree (h k hk' hterm).fileSize
    · exact (inodeAt_congr (hk.slot hlt hk' hki)).2.2.2 j (by omega)

theorem tombstone_entered {inode : SlfsInode} {pf : SlfsFile} (hi : i < inodeMaxCnt) :
    Entered (inodeAt (put m (inodeAddr i) (tombstone inode (takenInode pf i)).toBytes) i) := by
  have hidx : (inodeAt (put m (inodeAddr i) (tombstone inode (takenInode pf i)).toBytes) i).inodeIdx = u32 i :=
    word_toBytes_inodeIdx
  have hsize : (inodeAt (put m (inodeAddr i) (tombstone inode (takenInode pf i)).toBytes) i).fileSize = u32 0 :=
    word_toBytes_fileSize
  have haddr : (inodeAt (put m (inodeAddr i) (tombstone inode (takenInode pf i)).toBytes) i).datablkAddr = u32 0 :=
    word_toBytes_datablkAddr
  have hi' : i < 32 := hi
  refine ⟨?_, hsize ▸ by decide, haddr ▸ by decide⟩
  rw [hidx, u32_of_lt (by unfold Word.size; omega)]
  change i ≠ 4294967295
  omega

theorem slfsWrite_enlarges (h : Indexed w.mem) (hs : Spaced w.mem) (hpos : w.file.openCnt ≠ 0 → w.file.pos = 0)
    (hc : w.file.openCnt = 0 ∨ len = 0 ∨ FullTable w.mem ∨ Roomy w.mem w.file len) :
    Enlarged w.mem (stateAfter (slfsWrite pbuf len uninit w)).mem := by
  by_cases hopen : w.file.openCnt = 0
  · rw [slfsWrite, getFile_bind, if_pos hopen]
    exact h.of_slots fun _ _ _ _ => rfl
  · by_cases hlen : len = 0
    · rw [slfsWrite, getFile_bind, if_neg hopen, if_pos hlen]
      exact h.of_slots fun _ _ _ _ => rfl
    · rcases (hc.resolve_left hopen).resolve_left hlen with hfull | hroomy
      · obtain ⟨e, v, hrun, hnone⟩ : ∃ e v, slfsWrite pbuf len uninit w = .error e v ∧ _ :=
          hfull.slfsWrite_run hopen (Nat.pos_of_ne_zero hlen)
        rw [hrun]
        exact h.of_slots hnone.slots
      · obtain ⟨i, p, qs, hi, hsize, hw, hkept⟩ := hroomy.written hs hopen (hpos hopen) (Nat.pos_of_ne_zero hlen)
          pbuf uninit
        refine h.write hkept hi ⟨?_, ?_, ?_⟩
        · rw [hw.index]
          have hlt : i < 32 := freeInode_lt hi
          change i ≠ 4294967295
          omega
        · have hblks := (hs.enough hroomy.below).trans (freeBlks_length_le _ _ _)
          have hmax : datablkMaxCnt = 8184 := rfl
          rw [blksFor] at hblks
          rw [hw.fileSize, u32_of_lt (by unfold Word.size; omega)]
          change _ ≠ 4294967295
          omega
        · have hbelow := (hkept.free p List.mem_cons_self).2.2
          have hswap : swapPageStart = 4190208 := rfl
          rw [hw.addr]
          change p ≠ 4294967295
          omega

theorem slfsDelete_enlarges (h : Indexed w.mem) (hc : FullTable w.mem ∨ freeInode w.mem ≠ none) :
    Enlarged w.mem (stateAfter (slfsDelete uninit w)).mem := by
  rcases hc with hfull | hsome
  · have hrun : stateAfter (slfsDelete uninit w) = w ∨ _ := hfull.slfsDelete_run
    rcases hrun with hsame | ⟨e, hnone⟩
    · rw [hsame]
      exact h.of_slots fun _ _ _ _ => rfl
    · exact h.of_slots hnone.slots
  · obtain ⟨i, hi⟩ := Option.ne_none_iff_exists'.mp hsome
    have hrun : stateAfter (slfsDelete uninit w) = w ∨ _ := slfsDelete_of_some hi
    rcases hrun with hsame | ⟨inode, hmem, -⟩
    · rw [hsame]
      exact h.of_slots fun _ _ _ _ => rfl
    · rw [hmem]
      have hkept : OthersKept w.mem
          (put w.mem (inodeAddr i) (tombstone inode (takenInode w.file i)).toBytes) i [] := by
        refine ⟨fun x hx _ => put_of_notMem ?_, fun q hq => absurd hq List.not_mem_nil⟩
        rwa [toBytes_length]
      exact h.write hkept hi (tombstone_entered (freeInode_lt hi))

/-- The files apart, and no name in the table without an index. -/
structure IndexedSys (s : SlfsSys) : Prop extends SpacedSys s where
  indexed : Indexed s.fs.mem

theorem IndexedSys.enlarges (hs : IndexedSys s) (hc : SparesSwap s c) (hstep : slfsStep s c = some t) :
    Enlarged s.fs.mem t.fs.mem := by
  cases c with
  | slfsOpen n pname =>
      rw [runCall_eq hstep]
      refine hs.indexed.of_slots fun _ _ _ _ => ?_
      rw [slfsOpen_mem]
  | slfsWrite n pbuf len uninit =>
      rw [runCall_eq hstep]
      exact slfsWrite_enlarges (w := { s.fs with file := s.handles n }) hs.indexed hs.spaced (hs.pos n) hc
  | slfsDelete n uninit =>
      rw [runCall_eq hstep]
      exact slfsDelete_enlarges (w := { s.fs with file := s.handles n }) hs.indexed hc

theorem IndexedSys.step (hs : IndexedSys s) (hc : SparesSwap s c) (hstep : slfsStep s c = some t) : IndexedSys t :=
  ⟨hs.toSpacedSys.step hc hstep, (hs.enlarges hc hstep).indexed⟩

/-- A name in the table is found in every state from there on. -/
theorem IndexedSys.always_found {calls : List SlfsCall} (hs : IndexedSys s) (hp : Present pname s.fs.mem)
    (hC : Machine.StepsMeet slfsStep SparesSwap s calls) :
    Machine.Always slfsStep (fun t => ∀ pf, ¬ OpensAsNew pname { t.fs with file := pf }) s calls :=
  Machine.always_of_stepsMeet (fun t => IndexedSys t ∧ Present pname t.fs.mem)
    (fun t ht pf => Indexed.not_opensAsNew (w := { t.fs with file := pf }) ht.1.indexed ht.2)
    (fun _ _ _ ht hc hstep => ⟨ht.1.step hc hstep, (ht.1.enlarges hc hstep).present ht.2⟩) ⟨hs, hp⟩ hC

/-- Whichever handle of a file is deleted, its name opens as new in no state from then on. -/
def NeverFinal (s : SlfsSys) : Prop :=
  ∀ (h : ℕ) (uninit : Uninit) (u : Fs) (pname : ℕ → UInt8) (calls : List SlfsCall),
    (s.handles h).inodeIdx < inodeMaxCnt →
    nameMatches pname (inodeAt s.fs.mem (s.handles h).inodeIdx).name →
    slfsDelete uninit { s.fs with file := s.handles h } = .ok () u →
    Machine.StepsMeet slfsStep SparesSwap s (.slfsDelete h uninit :: calls) →
    Machine.Always slfsStep (fun t => ∀ pf, ¬ OpensAsNew pname { t.fs with file := pf }) (deletedSys s h u) calls

theorem IndexedSys.neverFinal (hs : IndexedSys s) : NeverFinal s := by
  intro h uninit u pname calls hi hname hdel hC
  have hstep : slfsStep s (.slfsDelete h uninit) = some (deletedSys s h u) := runCall_ok hdel
  obtain ⟨hc, hrest⟩ := hC _ hstep
  refine (hs.step hc hstep).always_found ?_ hrest
  exact (hs.enlarges hc hstep).present ⟨_, hi, hname⟩

/-- From a formatted device on, in every run that keeps the blocks apart no deletion is ever final. -/
theorem deletion_never_final {calls : List SlfsCall}
    (herased : ∀ x, 192 ≤ x → x < ramdiskSize → s.fs.mem x = 0xFF)
    (hclosed : ∀ h, (s.handles h).openCnt = 0)
    (hC : Machine.StepsMeet slfsStep SparesSwap s calls) :
    Machine.Always slfsStep NeverFinal s calls :=
  Machine.always_of_stepsMeet IndexedSys (fun _ hs => hs.neverFinal) (fun _ _ _ hs hc hstep => hs.step hc hstep)
    ⟨⟨spaced_of_erased herased, fun h hopen => absurd (hclosed h) hopen⟩, indexed_of_erased herased⟩ hC

/-- Once deleted, the file is found by the `slfs_open` of another handle as well. -/
theorem deletion_never_final_one_file : ∃ s u, Machine.exec slfsStep erasedSys createA = some s ∧
    slfsDelete zeroUninit { s.fs with file := s.handles 0 } = .ok () u ∧
    Machine.Always slfsStep (fun t => ∀ pf, ¬ OpensAsNew (letter 97) { t.fs with file := pf }) (deletedSys s 0 u)
      [.slfsOpen 1 (letter 97)] := by
  obtain ⟨s, hs, hlt, -, hname, hfree, u, hdel, -⟩ := createA_state
  have hnever : Machine.Always slfsStep NeverFinal erasedSys createA := by
    refine deletion_never_final (fun _ _ _ => rfl) (fun _ => rfl) fun t ht => ⟨trivial, fun v hv => ⟨?_, trivial⟩⟩
    obtain ⟨hmem, hfile⟩ := open_first ht
    refine Or.inr (Or.inr (Or.inr ?_))
    rw [hmem, hfile]
    exact roomy_first
  refine ⟨s, u, hs, hdel, ?_⟩
  refine Machine.always_iff_exec.mp hnever _ List.prefix_rfl s hs 0 zeroUninit u (letter 97) _ hlt hname hdel ?_
  exact fun _ _ => ⟨Or.inr hfree, fun _ _ => ⟨trivial, trivial⟩⟩

end Slos.Slfs
