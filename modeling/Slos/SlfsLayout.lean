import Slos.SlfsDelete
import Slos.SlfsFullTable
import Slos.SlfsPhases

/-!
# Data blocks and the swap page

The blocks the allocator looks at end with the device, so the last eight of them make up the swap page.
As long as no write gets that far, the blocks of every file lie between the metadata page and the swap
page, and a page update leaves every block outside its page.
-/

namespace Slos.Slfs
open Word ByteMemory Ramdisk ScatterGather

variable {m m' : Mem} {p q i needed : ℕ} {qs : List ℕ} {v w : Fs} {pf : SlfsFile} {pbuf : Mem} {len : ℕ}
  {uninit : Uninit}

/-- The blocks the second tail words lead to from block `p` on. -/
inductive OnChain (m : Mem) (p : ℕ) : ℕ → Prop
  | head : OnChain m p p
  | next {q r : ℕ} : OnChain m p q → nextBlk m q = some r → r ≠ minusOne → OnChain m p r

/-- A data block of the file with its inode in slot `i`. -/
structure FileBlk (m : Mem) (i q : ℕ) : Prop where
  completed : Completed m i
  undeleted : ¬ ((inodeAt m i).fileSize = 0 ∧ (inodeAt m i).datablkAddr = 0)
  onChain : OnChain m (inodeAt m i).datablkAddr q

/-- The data blocks of the files lie between the metadata page and the swap page, and a page update changes
none outside its page, at no time. -/
structure BlksApart (m : Mem) : Prop where
  between : ∀ i < inodeMaxCnt, ∀ q, FileBlk m i q →
    ramdiskPageSize ≤ q ∧ q + datablkSize ≤ swapPageStart
  update : ∀ i < inodeMaxCnt, ∀ q, FileBlk m i q → ∀ p,
    q + datablkSize ≤ p * ramdiskPageSize ∨ p * ramdiskPageSize + ramdiskPageSize ≤ q →
    ∀ v : Fs, v.mem = m → ∀ d ∈ devices (storePage p) v, ∀ x, q ≤ x → x < q + datablkSize → d x = m x

theorem blksApart_of_between (h : ∀ i < inodeMaxCnt, ∀ q, FileBlk m i q →
    ramdiskPageSize ≤ q ∧ q + datablkSize ≤ swapPageStart) : BlksApart m := by
  refine ⟨h, fun i hi q hq p hp v hv d hd x hlo hhi => ?_⟩
  obtain ⟨hbelow, habove⟩ := h i hi q hq
  obtain ⟨u, hu, rfl⟩ := (storePage_elsewhere (m := m) (p := p)).devices (w := v)
    (fun y _ => congrFun hv y) d hd
  have htab : garbagePageTabStart + garbagePageTabSize ≤ ramdiskPageSize := by decide
  refine hu x ⟨Or.inr (htab.trans (hbelow.trans hlo)), hhi.trans_le habove, ?_⟩
  exact hp.imp (fun hle => hhi.trans_le hle) fun hle => hle.trans hlo

theorem OnChain.mem (h : OnChain m p q) (hchain : Chain m p qs) : q ∈ p :: qs := by
  induction h with
  | head => exact List.mem_cons_self
  | @next q r _ hnext hne ih =>
      obtain ⟨xs, ys, hsplit⟩ := List.append_of_mem ih
      cases xs with
      | nil =>
          obtain ⟨rfl, rfl⟩ := List.cons_eq_cons.mp hsplit
          cases qs with
          | nil => exact absurd (hchain.links.symm.trans hnext) (Option.some_ne_none r).symm
          | cons s qs =>
              obtain rfl := Option.some.inj (hchain.links.1.symm.trans hnext)
              exact List.mem_cons_of_mem _ List.mem_cons_self
      | cons x xs =>
          obtain ⟨rfl, rfl⟩ := List.cons_eq_cons.mp hsplit
          have hrest := hchain.links.drop
          cases ys with
          | nil => exact absurd (hrest.symm.trans hnext) (Option.some_ne_none r).symm
          | cons s ys =>
              obtain rfl := Option.some.inj (hrest.1.symm.trans hnext)
              exact List.mem_cons_of_mem _ (List.mem_append_right _ (List.mem_cons_of_mem _ List.mem_cons_self))

theorem OnChain.of_chain {p₀ : ℕ} (h : OnChain m p₀ p) (hchain : Chain m p qs) : ∀ q ∈ p :: qs, OnChain m p₀ q := by
  induction qs generalizing p with
  | nil =>
      intro q hq
      rw [List.mem_singleton.mp hq]
      exact h
  | cons r qs ih =>
      intro q hq
      rcases List.mem_cons.mp hq with rfl | hq
      · exact h
      · have hle := hchain.tail.head_le
        have hne : r ≠ minusOne := by
          rintro rfl
          exact absurd hle (by decide)
        exact ih (h.next hchain.links.1 hne) hchain.tail q hq

/-- The swap page is erased, and the blocks of every file make up a chain in front of it. -/
structure Spaced (m : Mem) : Prop where
  swap : ∀ x, swapPageStart ≤ x → x < ramdiskSize → m x = 0xFF
  files : ∀ i < inodeMaxCnt, Completed m i →
    ¬ ((inodeAt m i).fileSize = 0 ∧ (inodeAt m i).datablkAddr = 0) →
    ∃ p qs, (inodeAt m i).datablkAddr = p ∧ Chain m p qs ∧
      ∀ q ∈ p :: qs, q ∈ blkAddrs datablkStart datablkMaxCnt ∧ q + datablkSize ≤ swapPageStart

theorem Spaced.blksApart (h : Spaced m) : BlksApart m := by
  refine blksApart_of_between fun i hi q hq => ?_
  obtain ⟨p, qs, haddr, hchain, hblks⟩ := h.files i hi hq.completed hq.undeleted
  have hmem := hblks q ((haddr ▸ hq.onChain).mem hchain)
  exact ⟨(mem_blkAddrs hmem.1).1, hmem.2⟩

theorem spaced_of_erased (h : ∀ x, 192 ≤ x → x < ramdiskSize → m x = 0xFF) : Spaced m := by
  refine ⟨fun x hlo hhi => h x (le_trans (by decide) hlo) hhi, fun i hi hc _ => ?_⟩
  exact absurd hc ((tidy_of_erased h).free i hi rfl).not_completed

/-- The blocks of the swap page are free. -/
theorem Spaced.freeBlk (h : Spaced m) (hlo : swapPageStart ≤ q) (hhi : q + 512 ≤ ramdiskSize) : FreeBlk m q := by
  have hhigh : q + datablkTailOffHi = q + 504 := rfl
  have hlow : q + datablkTailOffLow = q + 508 := rfl
  exact ⟨word_eq_max.mpr fun j hj => h.swap _ (by omega) (by omega),
    word_eq_max.mpr fun j hj => h.swap _ (by omega) (by omega)⟩

/-- What a call leaves of the files it does not write: all but one slot and the blocks taken. -/
structure OthersKept (m m' : Mem) (i : ℕ) (taken : List ℕ) : Prop where
  same : ∀ x, x < inodeAddr i ∨ inodeAddr i + 56 ≤ x → (∀ q ∈ taken, x < q ∨ q + 512 ≤ x) → m' x = m x
  free : ∀ q ∈ taken, q ∈ blkAddrs datablkStart datablkMaxCnt ∧ FreeBlk m q ∧ q + datablkSize ≤ swapPageStart

theorem OthersKept.slot {taken : List ℕ} {j : ℕ} (h : OthersKept m m' i taken) (hi : i < inodeMaxCnt)
    (hj : j < inodeMaxCnt) (hji : j ≠ i) : ∀ x < 56, m' (inodeAddr j + x) = m (inodeAddr j + x) := by
  intro x hx
  have hslot := inodeAddr_lt hj
  have haddr := inodeAddr_eq hi
  have haddr' := inodeAddr_eq hj
  have hpage : ramdiskPageSize = 4096 := rfl
  have hstart : datablkStart = 4096 := rfl
  refine h.same _ (by omega) fun q hq => Or.inl ?_
  have hq' := (mem_blkAddrs (h.free q hq).1).1
  omega

theorem OthersKept.chain {taken : List ℕ} (h : OthersKept m m' i taken) (hi : i < inodeMaxCnt)
    (hchain : Chain m p qs) (hblks : ∀ q ∈ p :: qs, q ∈ blkAddrs datablkStart datablkMaxCnt) : Chain m' p qs := by
  have hslot := inodeAddr_lt hi
  have hpage : ramdiskPageSize = 4096 := rfl
  have hstart : datablkStart = 4096 := rfl
  refine hchain.congr fun q hq => word_congr fun x hlo hhi => ?_
  have hq' := (mem_blkAddrs (hblks q hq)).1
  refine h.same x (by omega) fun r hr => ?_
  rcases apart_of_pairwise (blkAddrs_pairwise datablkStart datablkMaxCnt) (hblks q hq) (h.free r hr).1 with
    rfl | hqr | hrq
  · exact absurd (h.free q hr).2.1 (hchain.not_free q hq)
  · exact Or.inl (by omega)
  · exact Or.inr (by omega)

/-- A call keeps the files apart if the inode it writes is that of a deleted file or has a chain of the blocks
taken. -/
theorem Spaced.write {taken : List ℕ} (h : Spaced m) (hk : OthersKept m m' i taken) (hi : i < inodeMaxCnt)
    (hnew : Completed m' i → ¬ ((inodeAt m' i).fileSize = 0 ∧ (inodeAt m' i).datablkAddr = 0) →
      ∃ p qs, taken = p :: qs ∧ (inodeAt m' i).datablkAddr = p ∧ Chain m' p qs) : Spaced m' := by
  have hslot := inodeAddr_lt hi
  have hpage : ramdiskPageSize = 4096 := rfl
  have hswap : swapPageStart = 4190208 := rfl
  have hblk : datablkSize = 512 := rfl
  constructor
  · intro x hlo hhi
    rw [hk.same x (by omega) fun q hq => Or.inr (by have hq' := (hk.free q hq).2.2; omega)]
    exact h.swap x hlo hhi
  · intro j hj hc hdel
    by_cases hji : j = i
    · subst hji
      obtain ⟨p, qs, rfl, haddr, hchain⟩ := hnew hc hdel
      exact ⟨p, qs, haddr, hchain, fun q hq => ⟨(hk.free q hq).1, (hk.free q hq).2.2⟩⟩
    · obtain ⟨hsize, hcnt, haddr, -⟩ := inodeAt_congr (hk.slot hi hj hji)
      have hc' : Completed m j := ⟨hsize ▸ hc.fileSize, hcnt ▸ hc.updateCnt⟩
      obtain ⟨p, qs, hp, hchain, hblks⟩ := h.files j hj hc' (by rwa [← hsize, ← haddr])
      exact ⟨p, qs, haddr.trans hp, hk.chain hi hchain fun q hq => (hblks q hq).1, hblks⟩

theorem Spaced.rewritten (h : Spaced m) : Spaced (rewritten m) := by
  have hswap : swapPageStart = 4190208 := rfl
  have htab : garbagePageTabStart = 1984 := rfl
  constructor
  · intro x hlo hhi
    have hend : swapPageStart + 4096 = ramdiskSize := rfl
    exact if_pos ⟨hlo, hhi.trans_eq hend.symm⟩
  · intro i hi hc hdel
    obtain ⟨hfile, hcnt, haddr, -⟩ := inodeAt_congr (rewritten_slot (m := m) hi)
    have hc' : Completed m i := ⟨hfile ▸ hc.fileSize, hcnt ▸ hc.updateCnt⟩
    obtain ⟨p, qs, hp, hchain, hblks⟩ := h.files i hi hc' (by rwa [← hfile, ← haddr])
    refine ⟨p, qs, haddr.trans hp, hchain.congr fun q hq => word_congr fun x hlo hhi => ?_, hblks⟩
    have habove := (mem_blkAddrs (hblks q hq).1).1
    have hbelow := (hblks q hq).2
    have hstart : datablkStart = 4096 := rfl
    have hblk : datablkSize = 512 := rfl
    rw [Slfs.rewritten, if_neg (by omega), if_neg (by omega), if_neg (by omega)]

/-- The blocks a write takes all lie in front of the swap page. -/
def Below (m : Mem) (needed : ℕ) : Prop := ∀ q ∈ takenBlks m needed, q + datablkSize ≤ swapPageStart

/-- With the swap page free, a write that stays in front of it finds enough blocks. -/
theorem Spaced.enough (h : Spaced m) (hb : Below m needed) :
    needed ≤ (freeBlks m datablkStart datablkMaxCnt).length := by
  by_contra hlt
  have hall : takenBlks m needed = freeBlks m datablkStart datablkMaxCnt :=
    List.take_of_length_le (Nat.not_le.mp hlt).le
  have hfree : FreeBlk m swapPageStart := h.freeBlk le_rfl (by decide)
  have hmem : swapPageStart ∈ takenBlks m needed := by
    have hlast : datablkStart + 512 * 8176 ∈ blkAddrs datablkStart datablkMaxCnt := mem_blkAddrs_of_lt (by decide)
    rw [hall]
    exact mem_freeBlks_of_free hlast hfree
  exact absurd (hb _ hmem) (by decide)

/-- A write for which an inode and blocks are there, however its copies end, fills in the inode and the blocks
it takes. -/
structure WrittenAt (w u : Fs) (len i p : ℕ) (qs : List ℕ) : Prop where
  chain : Chain u.mem p qs
  index : (inodeAt u.mem i).inodeIdx = i
  fileSize : (inodeAt u.mem i).fileSize = u32 (grownSize w.file len)
  addr : (inodeAt u.mem i).datablkAddr = p
  file : u.file = grownFile w.file len i p (qs.length + 1)
  same : ∀ x, x < inodeAddr i ∨ inodeAddr i + 56 ≤ x → (∀ q ∈ p :: qs, x < q ∨ q + 512 ≤ x) → u.mem x = w.mem x

theorem Affordable.written (h : Affordable w.mem w.file len i needed) (hfit : Fits w.file len needed)
    (pbuf : Mem) (uninit : Uninit) : ∃ p qs, takenBlks w.mem needed = p :: qs ∧
      WrittenAt w (stateAfter (slfsWrite pbuf len uninit w)) len i p qs := by
  have hlt := freeInode_lt h.inode
  have hslot : inodeAddr i + 56 < 4096 := inodeAddr_lt hlt
  obtain ⟨p, qs, w₁, alloc, htaken, hqs, hapart, hrun, hmem, hfile, -⟩ := h.run pbuf uninit
  have hword := h.needed_lt
  have haddr : w₁.file.datablkAddr = p := by rw [hfile]; rfl
  have hnum : w₁.file.allocedblkNum = qs.length + 1 := by rw [hfile, hqs]; rfl
  have hidx : w₁.file.inodeIdx = i := by rw [hfile]; rfl
  have hfill : Filling w₁.mem w₁.file p qs w₁ :=
    ⟨fun _ _ => rfl, fun _ _ => rfl, fun _ _ => rfl, hmem ▸ namedBlks_chain hlt hapart.pairwise hapart.inside, rfl⟩
  have hin : ∀ q ∈ p :: qs, 4096 ≤ q ∧ q + 512 ≤ 4194304 := hapart.inside
  have hp := (hin p List.mem_cons_self).2
  have hi : i < 32 := hlt
  have hgrown : w₁.file = grownFile w.file len i p (qs.length + 1) := by rw [hfile, hqs]
  have hstart : word w₁.mem (inodeAddr i) = i ∧ word w₁.mem (inodeAddr i + 8) = u32 (grownSize w.file len) ∧
      word w₁.mem (inodeAddr i + 12) = p := by
    rw [hmem, namedBlks, word_toBytes_inodeIdx, word_toBytes_fileSize, word_toBytes_datablkAddr]
    refine ⟨u32_of_lt ?_, rfl, u32_of_lt ?_⟩
    · change i < 4294967296
      omega
    · change p < 4294967296
      omega
  have hsame {u : Fs} (hu : Filling w₁.mem w₁.file p qs u) {x : ℕ} (hx : x < inodeAddr i ∨ inodeAddr i + 56 ≤ x)
      (hblks : ∀ q ∈ p :: qs, x < q ∨ q + 512 ≤ x) : u.mem x = w.mem x := by
    rw [hu.frame x hblks, hmem, namedBlks_of_notMem hx hblks]
  have hslots {u : Fs} (hu : Filling w₁.mem w₁.file p qs u) {k : ℕ} (hk : k + 4 ≤ 56) :
      word u.mem (inodeAddr i + k) = word w₁.mem (inodeAddr i + k) :=
    word_congr fun x _ hx => hu.page x (by change x < 4096; omega)
  have hstays : Stays (Filling w₁.mem w₁.file p qs) (writeData pbuf w.file len uninit) fun _ => True :=
    writeData_stays hapart (hqs.symm ▸ hword) haddr hnum (hqs.symm ▸ hfit)
  obtain ⟨hdata, -⟩ := hstays w₁ hfill
  refine ⟨p, qs, htaken, ?_⟩
  rw [hrun]
  cases hd : writeData pbuf w.file len uninit w₁ with
  | error e u =>
      rw [hd] at hdata
      have hu : Filling w₁.mem w₁.file p qs u := hdata
      rw [bind_error hd]
      exact ⟨hu.chain, (hslots hu (k := 0) (by decide)).trans hstart.1, (hslots hu (by decide)).trans hstart.2.1,
        (hslots hu (by decide)).trans hstart.2.2, hu.file.trans hgrown, fun x hx hblks => hsame hu hx hblks⟩
  | ok a u =>
      rw [hd] at hdata
      have hu : Filling w₁.mem w₁.file p qs u := hdata
      have huidx : u.file.inodeIdx = i := by rw [hu.file, hidx]
      obtain ⟨v, hcnt, hvmem, hvfile, -⟩ := writeUpdateCnt_of_lt (w := u) (huidx ▸ hlt)
      rw [huidx] at hvmem
      have hkept {k : ℕ} (hk : k = 0 ∨ 8 ≤ k) (hk' : k + 4 ≤ 56) :
          word v.mem (inodeAddr i + k) = word w₁.mem (inodeAddr i + k) := by
        rw [hvmem, word_put_of_disjoint (by rw [wordBytes_length]; omega)]
        exact hslots hu hk'
      rw [bind_ok hd, hcnt]
      refine ⟨?_, (hkept (k := 0) (Or.inl rfl) (by decide)).trans hstart.1,
        (hkept (Or.inr le_rfl) (by decide)).trans hstart.2.1, (hkept (Or.inr (by decide)) (by decide)).trans hstart.2.2,
        hvfile.trans (hu.file.trans hgrown), fun x hx hblks => ?_⟩
      · change Chain v.mem p qs
        rw [hvmem]
        refine hu.chain.put_payload fun q hq => Or.inr ?_
        have hq' := (hin q hq).1
        rw [wordBytes_length]
        omega
      · change v.mem x = w.mem x
        rw [hvmem, put_of_notMem (by rw [wordBytes_length]; omega)]
        exact hsame hu hx hblks

/-- What the calls of a run leave: the files apart, and on the handle a position that is not moved. -/
structure Steady (w u : Fs) : Prop where
  spaced : Spaced u.mem
  pos : u.file.pos = w.file.pos
  openCnt : u.file.openCnt = w.file.openCnt

/-- A write that finds its blocks in front of the swap page. A handle opened again counts more blocks than the
file has; they are copied into blocks of the new version. -/
structure Roomy (m : Mem) (pf : SlfsFile) (len : ℕ) : Prop where
  inode : freeInode m ≠ none
  below : Below m (blksFor pf len)
  chain : pf.fileSize = 0 ∨ pf.allocedblkNum ≤ blksFor pf len

theorem Roomy.affordable (h : Roomy m pf len) (hs : Spaced m) (hopen : pf.openCnt ≠ 0) (hpos : pf.pos = 0)
    (hlen : 0 < len) (hi : freeInode m = some i) :
    Affordable m pf len i (blksFor pf len) ∧ Fits pf len (blksFor pf len) := by
  have hend : u32 (pf.pos + len) ≤ len := by
    rw [hpos, Nat.zero_add]
    exact Nat.mod_le _ _
  by_cases hzero : pf.fileSize = 0
  · have hgrown : grownSize pf len = len := if_pos hzero
    refine ⟨⟨hopen, hlen, hi, rfl, hs.enough h.below, ?_, ?_⟩, Or.inl ⟨hzero, ?_⟩⟩
    · rw [hgrown]
      exact hlen
    · rw [hgrown]
      exact hend
    · rw [blksFor, hgrown]
      omega
  · have hgrown : grownSize pf len = if u32 (pf.pos + len) > pf.fileSize then u32 (pf.pos + len)
        else pf.fileSize := if_neg hzero
    have hsize : u32 (pf.pos + len) ≤ grownSize pf len ∧ 0 < grownSize pf len := by
      rw [hgrown]
      split <;> omega
    exact ⟨⟨hopen, hlen, hi, rfl, hs.enough h.below, hsize.2, hsize.1⟩,
      Or.inr ⟨hzero, h.chain.resolve_left hzero⟩⟩

/-- Nothing but the slot taken and the blocks of the new version changes. -/
theorem Roomy.written (h : Roomy w.mem w.file len) (hs : Spaced w.mem) (hopen : w.file.openCnt ≠ 0)
    (hpos : w.file.pos = 0) (hlen : 0 < len) (pbuf : Mem) (uninit : Uninit) : ∃ i p qs, freeInode w.mem = some i ∧
      0 < grownSize w.file len ∧ WrittenAt w (stateAfter (slfsWrite pbuf len uninit w)) len i p qs ∧
      OthersKept w.mem (stateAfter (slfsWrite pbuf len uninit w)).mem i (p :: qs) := by
  obtain ⟨i, hi⟩ := Option.ne_none_iff_exists'.mp h.inode
  obtain ⟨haff, hfit⟩ := h.affordable hs hopen hpos hlen hi
  obtain ⟨p, qs, htaken, hw⟩ := haff.written hfit pbuf uninit
  refine ⟨i, p, qs, hi, haff.size, hw, hw.same, fun q hq => ?_⟩
  rw [← htaken] at hq
  have hfree := List.mem_of_mem_take hq
  exact ⟨mem_blkAddrs_of_mem_freeBlks hfree, (mem_freeBlks hfree).2.2, h.below q hq⟩

theorem Roomy.steady (h : Roomy w.mem w.file len) (hs : Spaced w.mem) (hopen : w.file.openCnt ≠ 0)
    (hpos : w.file.pos = 0) (hlen : 0 < len) (pbuf : Mem) (uninit : Uninit) :
    Steady w (stateAfter (slfsWrite pbuf len uninit w)) := by
  obtain ⟨i, p, qs, hi, -, hw, hkept⟩ := h.written hs hopen hpos hlen pbuf uninit
  refine ⟨hs.write hkept (freeInode_lt hi) fun _ _ => ⟨p, qs, rfl, hw.addr, hw.chain⟩, ?_, ?_⟩
  · rw [hw.file]
    rfl
  · rw [hw.file]
    rfl

/-- A call that finds no inode leaves the files apart. -/
theorem NoneTaken.spaced {e : FsErr} (h : NoneTaken w v e) (hs : Spaced w.mem) : Spaced v.mem := by
  rcases h.cases with ⟨-, hmem⟩ | ⟨-, hmem⟩
  · exact hmem ▸ hs
  · exact hmem ▸ hs.rewritten

theorem FullTable.slfsWrite_run (h : FullTable w.mem) (hopen : w.file.openCnt ≠ 0) (hlen : 0 < len) :
    ∃ e v, slfsWrite pbuf len uninit w = .error e v ∧
      NoneTaken { w with file := { w.file with fileSize := grownSize w.file len } } v e := by
  obtain ⟨e, v, hrun, hnone⟩ : ∃ e v, takeInode uninit
      { w with file := { w.file with fileSize := grownSize w.file len } } = .error e v ∧
      NoneTaken { w with file := { w.file with fileSize := grownSize w.file len } } v e :=
    FullTable.takeInode_run h
  rw [slfsWrite_eq hopen hlen]
  exact ⟨e, v, bind_error hrun, hnone⟩

theorem FullTable.write_steady (h : FullTable w.mem) (hs : Spaced w.mem) (hopen : w.file.openCnt ≠ 0)
    (hlen : 0 < len) : Steady w (stateAfter (slfsWrite pbuf len uninit w)) := by
  obtain ⟨e, v, hrun, hnone⟩ : ∃ e v, slfsWrite pbuf len uninit w = .error e v ∧ _ := h.slfsWrite_run hopen hlen
  rw [hrun]
  exact ⟨hnone.spaced hs, by rw [stateAfter, hnone.file], by rw [stateAfter, hnone.file]⟩

theorem slfsWrite_steady (hs : Spaced w.mem) (hpos : w.file.openCnt ≠ 0 → w.file.pos = 0)
    (h : w.file.openCnt = 0 ∨ len = 0 ∨ FullTable w.mem ∨ Roomy w.mem w.file len) :
    Steady w (stateAfter (slfsWrite pbuf len uninit w)) := by
  by_cases hopen : w.file.openCnt = 0
  · rw [slfsWrite, getFile_bind, if_pos hopen]
    exact ⟨hs, rfl, rfl⟩
  · by_cases hlen : len = 0
    · rw [slfsWrite, getFile_bind, if_neg hopen, if_pos hlen]
      exact ⟨hs, rfl, rfl⟩
    · rcases (h.resolve_left hopen).resolve_left hlen with hfull | hroomy
      · exact hfull.write_steady hs hopen (Nat.pos_of_ne_zero hlen)
      · exact hroomy.steady hs hopen (hpos hopen) (Nat.pos_of_ne_zero hlen) pbuf uninit

/-- The inode of a delete names no data blocks. -/
theorem Spaced.tombstone (hs : Spaced m) (hi : i < inodeMaxCnt) (inode : SlfsInode) :
    Spaced (put m (inodeAddr i) (tombstone inode pf).toBytes) := by
  have hkept : OthersKept m (put m (inodeAddr i) (Slfs.tombstone inode pf).toBytes) i [] := by
    refine ⟨fun x hx _ => put_of_notMem ?_, fun q hq => absurd hq List.not_mem_nil⟩
    rwa [toBytes_length]
  refine hs.write hkept hi fun _ hdel => absurd ⟨?_, ?_⟩ hdel
  · exact word_toBytes_fileSize
  · exact word_toBytes_datablkAddr

/-- With an inode left a delete that gets past its read writes the inode of the deleted file. -/
theorem slfsDelete_of_some (hi : freeInode w.mem = some i) : stateAfter (slfsDelete uninit w) = w ∨
    ∃ inode : SlfsInode, (stateAfter (slfsDelete uninit w)).mem =
        put w.mem (inodeAddr i) (tombstone inode (takenInode w.file i)).toBytes ∧
      (stateAfter (slfsDelete uninit w)).file = takenInode w.file i := by
  rcases slfsDelete_cases uninit w with ⟨e, herr⟩ | ⟨inode, hsteps⟩
  · exact Or.inl (congrArg stateAfter herr)
  · obtain ⟨v, htake, hmem, hfile, -⟩ : ∃ v, takeInode uninit w = .ok () v ∧ v.mem = w.mem ∧
        v.file = takenInode w.file i ∧ v.past = w.past := takeInode_of_some hi
    have hidx : v.file.inodeIdx = i := by rw [hfile]; rfl
    have hle : inodeAddr v.file.inodeIdx + (tombstone inode v.file).toBytes.length ≤ ramdiskSize := by
      rw [toBytes_length, hidx]
      exact (inodeAddr_lt (freeInode_lt hi)).le.trans (by decide)
    have hwrite : stateAfter (slfsDelete uninit w) =
        v.store (put v.mem (inodeAddr v.file.inodeIdx) (tombstone inode v.file).toBytes) := by
      rw [hsteps, bind_ok htake, getFile_bind]
      exact congrArg stateAfter (writeOrErr_of_le hle)
    rw [hwrite]
    exact Or.inr ⟨inode, by rw [store_mem, hmem, hidx, hfile], hfile⟩

theorem FullTable.slfsDelete_run (h : FullTable w.mem) : stateAfter (slfsDelete uninit w) = w ∨
    ∃ e, NoneTaken w (stateAfter (slfsDelete uninit w)) e := by
  rcases slfsDelete_cases uninit w with ⟨e, herr⟩ | ⟨inode, hsteps⟩
  · exact Or.inl (congrArg stateAfter herr)
  · obtain ⟨e, v, htake, hnone⟩ : ∃ e v, takeInode uninit w = .error e v ∧ NoneTaken w v e := h.takeInode_run
    rw [hsteps, bind_error htake]
    exact Or.inr ⟨e, hnone⟩

theorem slfsDelete_steady (hs : Spaced w.mem) (h : FullTable w.mem ∨ freeInode w.mem ≠ none) :
    Steady w (stateAfter (slfsDelete uninit w)) := by
  rcases h with hfull | hsome
  · have hrun : stateAfter (slfsDelete uninit w) = w ∨ _ := hfull.slfsDelete_run
    rcases hrun with hsame | ⟨e, hnone⟩
    · rw [hsame]
      exact ⟨hs, rfl, rfl⟩
    · exact ⟨hnone.spaced hs, congrArg _ hnone.file, congrArg _ hnone.file⟩
  · obtain ⟨i, hi⟩ := Option.ne_none_iff_exists'.mp hsome
    have hrun : stateAfter (slfsDelete uninit w) = w ∨ _ := slfsDelete_of_some hi
    rcases hrun with hsame | ⟨inode, hmem, hfile⟩
    · rw [hsame]
      exact ⟨hs, rfl, rfl⟩
    · constructor
      · rw [hmem]
        exact hs.tombstone (freeInode_lt hi) _
      · rw [hfile]
        rfl
      · rw [hfile]
        rfl

/-- No call takes blocks of the swap page, copies blocks past the end of the new version, or collects garbage
while a dangling inode is there. -/
def SparesSwap (s : SlfsSys) : SlfsCall → Prop
  | .slfsOpen _ _ => True
  | .slfsWrite h _ len _ => (s.handles h).openCnt = 0 ∨ len = 0 ∨ FullTable s.fs.mem ∨
      Roomy s.fs.mem (s.handles h) len
  | .slfsDelete _ _ => FullTable s.fs.mem ∨ freeInode s.fs.mem ≠ none

/-- What every state of a run keeps. -/
structure SpacedSys (s : SlfsSys) : Prop where
  spaced : Spaced s.fs.mem
  pos : ∀ h, (s.handles h).openCnt ≠ 0 → (s.handles h).pos = 0

theorem SpacedSys.update {s : SlfsSys} {h : ℕ} {u : Fs} (hs : SpacedSys s) (hu : Spaced u.mem)
    (hpos : u.file.openCnt ≠ 0 → u.file.pos = 0) : SpacedSys ⟨u, Function.update s.handles h u.file⟩ := by
  refine ⟨hu, fun k hk => ?_⟩
  dsimp only at hk ⊢
  by_cases hkh : k = h
  · subst hkh
    rw [Function.update_self] at hk ⊢
    exact hpos hk
  · rw [Function.update_of_ne hkh] at hk ⊢
    exact hs.pos k hk

theorem SpacedSys.step {s t : SlfsSys} {c : SlfsCall} (hs : SpacedSys s) (hc : SparesSwap s c)
    (hstep : slfsStep s c = some t) : SpacedSys t := by
  cases c with
  | slfsOpen n pname =>
      rw [runCall_eq hstep]
      refine hs.update ?_ fun _ => slfsOpen_pos
      rw [slfsOpen_mem]
      exact hs.spaced
  | slfsWrite n pbuf len uninit =>
      have hsteady : Steady { s.fs with file := s.handles n }
          (stateAfter (Slfs.slfsWrite pbuf len uninit { s.fs with file := s.handles n })) :=
        slfsWrite_steady hs.spaced (hs.pos n) hc
      rw [runCall_eq hstep]
      exact hs.update hsteady.spaced fun hopen => hsteady.pos.trans (hs.pos n (hsteady.openCnt ▸ hopen))
  | slfsDelete n uninit =>
      have hsteady : Steady { s.fs with file := s.handles n }
          (stateAfter (Slfs.slfsDelete uninit { s.fs with file := s.handles n })) :=
        slfsDelete_steady hs.spaced hc
      rw [runCall_eq hstep]
      exact hs.update hsteady.spaced fun hopen => hsteady.pos.trans (hs.pos n (hsteady.openCnt ▸ hopen))

/-- From a formatted device on, as long as no write gets to the swap page, the data blocks of every file stay
out of the metadata page and the swap page, and out of the way of every page update. -/
theorem blocks_apart_of_spares {s : SlfsSys} {calls : List SlfsCall}
    (herased : ∀ x, 192 ≤ x → x < ramdiskSize → s.fs.mem x = 0xFF)
    (hclosed : ∀ h, (s.handles h).openCnt = 0)
    (hC : Machine.StepsMeet slfsStep SparesSwap s calls) :
    Machine.Always slfsStep (fun s => BlksApart s.fs.mem) s calls :=
  Machine.always_of_stepsMeet SpacedSys (fun _ h => h.spaced.blksApart) (fun _ _ _ hs hc hstep => hs.step hc hstep)
    ⟨spaced_of_erased herased, fun h hopen => absurd (hclosed h) hopen⟩ hC

theorem roomy_first : Roomy erasedFs.mem (openNew erasedFs.file (letter 97)) 1 where
  inode := by decide +kernel
  below := creates_first.below
  chain := Or.inl rfl

theorem blocks_apart_after_create :
    Machine.Always slfsStep (fun s => BlksApart s.fs.mem) erasedSys createA := by
  refine blocks_apart_of_spares (fun _ _ _ => rfl) (fun _ => rfl) fun t ht => ⟨trivial, fun u hu => ⟨?_, trivial⟩⟩
  obtain ⟨hmem, hfile⟩ := open_first ht
  refine Or.inr (Or.inr (Or.inr ?_))
  rw [hmem, hfile]
  exact roomy_first

/-- A file of 8176 blocks and one byte. -/
def fillDevice : List SlfsCall :=
  [.slfsOpen 0 (letter 97), .slfsWrite 0 (fun _ => 42) (8176 * 504 + 1) zeroUninit]

theorem erased_freeBlks (h : ∀ x, 192 ≤ x → x < ramdiskSize → m x = 0xFF) :
    freeBlks m datablkStart datablkMaxCnt = blkAddrs datablkStart datablkMaxCnt := by
  refine freeBlks_of_all_free fun q hq => ?_
  rcases (tidy_of_erased h).rest q hq with hfree | ⟨i, -, ps, hps, -⟩
  · exact hfree
  · cases hps

/-- The last block of the file is the first one of the swap page. -/
theorem swap_page_taken : ¬ Machine.Always slfsStep (fun s => BlksApart s.fs.mem) erasedSys fillDevice := by
  intro h
  have hopen := eq_ok_of_succeeded (r := slfsOpen (letter 97) erasedFs) (by decide +kernel)
  obtain ⟨v, hv⟩ : ∃ v, v = stateAfter (slfsOpen (letter 97) erasedFs) := ⟨_, rfl⟩
  have hmem : v.mem = erasedFs.mem := hv ▸ slfsOpen_mem (letter 97) erasedFs
  have hfile : v.file = openNew erasedFs.file (letter 97) := hv ▸ slfsOpen_new hopen (by decide +kernel)
  rw [← hv] at hopen
  have hfree : freeBlks v.mem datablkStart datablkMaxCnt = blkAddrs datablkStart datablkMaxCnt :=
    erased_freeBlks fun x _ _ => by rw [hmem]; rfl
  have htaken : takenBlks v.mem 8177 = blkAddrs datablkStart 8177 := by
    rw [takenBlks, hfree]
    exact take_blkAddrs (by decide)
  have hlast : swapPageStart ∈ blkAddrs datablkStart 8177 := mem_blkAddrs_of_lt (k := 8176) (by decide)
  obtain ⟨p, qs, hcons, hqs⟩ : ∃ p qs, takenBlks v.mem 8177 = p :: qs ∧ qs.length + 1 = 8177 :=
    takenBlks_eq_cons (by decide) (by rw [hfree, length_blkAddrs]; decide)
  have hpair : (p :: qs).Pairwise fun a b => a + 512 ≤ b := hcons ▸ takenBlks_pairwise v.mem 8177
  have hin : ∀ q ∈ p :: qs, 4096 ≤ q ∧ q + 512 ≤ 0x400000 := fun q hq => mem_takenBlks (m := v.mem) (hcons ▸ hq)
  have hinode : freeInode v.mem = some 0 := by
    rw [hmem]
    decide +kernel
  have hfresh : Fresh v.file := hfile ▸ openNew_fresh _ _
  obtain ⟨w, hwrite, hwfile, hwmem⟩ : ∃ w, slfsWrite (fun _ => 42) (8176 * 504 + 1) zeroUninit v = .ok () w ∧ _ ∧ _ :=
    slfsWrite_fresh hfresh (by decide) (by decide) hinode (by decide) hcons hqs
  have hfirst : slfsStep erasedSys (.slfsOpen 0 (letter 97)) = some _ := runCall_ok (s := erasedSys) hopen
  have hsecond : slfsStep ⟨v, Function.update erasedSys.handles 0 v.file⟩
      (.slfsWrite 0 (fun _ => 42) (8176 * 504 + 1) zeroUninit) =
        some ⟨w, Function.update (Function.update erasedSys.handles 0 v.file) 0 w.file⟩ := by
    refine runCall_ok (w := w) ?_
    dsimp only
    rw [Function.update_self]
    exact hwrite
  have hapart := ((h.2 _ hfirst).2 _ hsecond).start
  have hsize₀ : w.file.fileSize = 8176 * 504 + 1 := by rw [hwfile]; rfl
  have hcnt₀ : w.file.updateCnt = 1 := by rw [hwfile, hfile]; rfl
  have haddr₀ : w.file.datablkAddr = p := by rw [hwfile]; rfl
  have hp : p < Word.size := by
    have hp := (hin p List.mem_cons_self).2
    unfold Word.size
    omega
  obtain ⟨hsize, hcnt, haddr, -⟩ := writtenNew_inode (m := v.mem) (i := 0) zeroUninit
    (bytes (fun _ => 42) 0 (8176 * 504 + 1)) (by decide) (fun q hq => (hin q hq).1)
    (hsize₀ ▸ by decide) (hcnt₀ ▸ by decide) (haddr₀.symm ▸ hp)
  have hchain : Chain (writtenNew v.mem 0 w.file zeroUninit p qs (bytes (fun _ => 42) 0 (8176 * 504 + 1))) p qs :=
    writtenNew_chain (by decide) hpair hin
  rw [← hwmem] at hsize hcnt haddr hchain
  have hblk : FileBlk w.mem 0 swapPageStart := by
    refine ⟨⟨?_, ?_⟩, ?_, ?_⟩
    · rw [hsize, hsize₀]
      decide
    · rw [hcnt, hcnt₀]
      decide
    · rw [hsize, hsize₀]
      exact fun hdel => absurd hdel.1 (by decide)
    · rw [haddr, haddr₀]
      exact OnChain.head.of_chain hchain _ (hcons ▸ htaken.symm ▸ hlast)
  exact absurd (hapart.between 0 (by decide) _ hblk).2 (by decide)

end Slos.Slfs
