import Slos.SlfsChain

/-!
# The first write of a file

What `slfs_write` leaves on the device when the file is new, and the round trip through the handle:
every range read back is the range written, and nothing changes outside the inode slot and the blocks
taken.
-/

namespace Slos.Slfs
open Word ByteMemory Ramdisk ScatterGather

variable {β : Type} {w w' : Fs}

theorem openLoop_readOnly (pname : ℕ → UInt8) (is : List ℕ) (last : Option SlfsInode) :
    ReadOnly (openLoop pname is last) := by
  induction is generalizing last with
  | nil => exact ReadOnly.pure _
  | cons i is ih => exact (readOrErr_readOnly _ _).bind fun _ => ih _

theorem getDatablkNumLoop_readOnly (fuel cur num : ℕ) : ReadOnly (getDatablkNumLoop fuel cur num) := by
  induction fuel generalizing cur num with
  | zero => exact ReadOnly.throw _
  | succ n ih =>
      rw [getDatablkNumLoop]
      split
      · exact ReadOnly.pure _
      · exact (readWord_readOnly _).bind fun next => ih next _

theorem getDatablkNum_readOnly : ReadOnly getDatablkNum :=
  getFile_readOnly.bind fun _ => getDatablkNumLoop_readOnly _ _ _

/-- A handle whose inode is not known yet is that of a name not found. -/
theorem slfsOpen_new {pname : ℕ → UInt8} {w₀ : Fs} (hopen : slfsOpen pname w₀ = .ok () w)
    (hnew : w.file.inodeIdx = minusOne) : w.file = openNew w₀.file pname := by
  rw [slfsOpen] at hopen
  obtain ⟨r, u, hloop, hrest⟩ := bind_eq_ok hopen
  obtain rfl := (openLoop_readOnly _ _ _).ok hloop
  cases r with
  | none =>
      cases hrest
      rfl
  | some inode =>
      by_cases hidx : inode.inodeIdx ≠ minusOne
      · simp only [if_pos hidx] at hrest
        rw [modifyFile_bind] at hrest
        obtain ⟨num, v, hnum, hlast⟩ := bind_eq_ok hrest
        obtain rfl := getDatablkNum_readOnly.ok hnum
        cases hlast
        exact absurd hnew hidx
      · simp only [if_neg hidx] at hrest
        cases hrest
        rfl

@[simp] theorem toBytes_length (inode : SlfsInode) : inode.toBytes.length = 56 := by
  simp [SlfsInode.toBytes]

def firstInode (uninit : Uninit) (pf : SlfsFile) : SlfsInode :=
  { uninit.inode with fileSize := pf.fileSize }

def fullInode (uninit : Uninit) (pf : SlfsFile) : SlfsInode :=
  { firstInode uninit pf with
    inodeIdx := pf.inodeIdx
    fileId := pf.fd
    datablkAddr := pf.datablkAddr
    name := fun j => if j < slfsFnameLen then pf.name j else uninit.inode.name j }

theorem takeInode_of_some {uninit : Uninit} {i : ℕ} (h : freeInode w.mem = some i) :
    ∃ w', takeInode uninit w = .ok () w' ∧ w'.mem = w.mem ∧ w'.file = takenInode w.file i ∧
      w'.past = w.past :=
  ⟨_, tryCatch_ok (updateFp_of_some h), rfl, rfl, rfl⟩

theorem takeInode_of_none {uninit : Uninit} (h : freeInode w.mem = none) : takeInode uninit w =
    (collectGarbage uninit >>= fun _ => updateFp) { w with page := loadedPage w metadataPageIdx } := by
  simp only [takeInode, tryCatch, tryCatchThe, MonadExceptOf.tryCatch, EStateM.tryCatch, updateFp_of_none h]
  rfl

theorem writeInode_of_lt {uninit : Uninit} (hi : w.file.inodeIdx < inodeMaxCnt) :
    ∃ w', writeInode uninit w = .ok () w' ∧
      w'.mem = put (put w.mem (inodeAddr w.file.inodeIdx) (firstInode uninit w.file).toBytes)
        (inodeAddr w.file.inodeIdx) (fullInode uninit w.file).toBytes ∧ w'.file = w.file ∧
      w'.past = put w.mem (inodeAddr w.file.inodeIdx) (firstInode uninit w.file).toBytes ::
        w.mem :: w.past := by
  have hle (inode : SlfsInode) : inodeAddr w.file.inodeIdx + inode.toBytes.length ≤ ramdiskSize := by
    rw [toBytes_length]
    exact (inodeAddr_lt hi).le.trans (by decide)
  rw [writeInode, getFile_bind]
  exact ⟨_, (bind_ok (writeOrErr_of_le (hle _))).trans (writeOrErr_of_le (hle _)), rfl, rfl, rfl⟩

theorem writeUpdateCnt_of_lt (hi : w.file.inodeIdx < inodeMaxCnt) :
    ∃ w', writeUpdateCnt w = .ok () w' ∧
      w'.mem = put w.mem (inodeAddr w.file.inodeIdx + 4) (wordBytes w.file.updateCnt) ∧
      w'.file = w.file ∧ w'.past = w.mem :: w.past := by
  have hlt := inodeAddr_lt hi
  simp only [ramdiskPageSize] at hlt
  have haddr : u32 (inodeAddr w.file.inodeIdx + 4) = inodeAddr w.file.inodeIdx + 4 :=
    u32_of_lt (by unfold size; omega)
  have hle : inodeAddr w.file.inodeIdx + 4 + (wordBytes w.file.updateCnt).length ≤ ramdiskSize := by
    simp only [wordBytes_length, ramdiskSize]
    omega
  rw [writeUpdateCnt, getFile_bind, haddr]
  exact ⟨_, writeOrErr_of_le hle, rfl, rfl, rfl⟩

/-- The device once the blocks `p :: qs` are linked. -/
def linkedBlks (m : Mem) (i : ℕ) (pf : SlfsFile) (p : ℕ) (qs : List ℕ) : Mem :=
  linkTails (put m (inodeAddr i + 8) (wordBytes pf.fileSize ++ wordBytes p)) (inodeAddr i) p qs

/-- The device once the inode is written as well. -/
def namedBlks (m : Mem) (i : ℕ) (pf : SlfsFile) (uninit : Uninit) (p : ℕ) (qs : List ℕ) : Mem :=
  put (put (linkedBlks m i pf p qs) (inodeAddr i) (firstInode uninit pf).toBytes) (inodeAddr i)
    (fullInode uninit pf).toBytes

/-- The device after the first write of a file, into inode `i` and the blocks `p :: qs`. -/
def writtenNew (m : Mem) (i : ℕ) (pf : SlfsFile) (uninit : Uninit) (p : ℕ) (qs : List ℕ)
    (bs : List UInt8) : Mem :=
  put (scatter 504 (namedBlks m i pf uninit p qs) (p :: qs) bs) (inodeAddr i + 4)
    (wordBytes pf.updateCnt)

/-- The first `needed` free blocks. -/
def takenBlks (m : Mem) (needed : ℕ) : List ℕ :=
  (freeBlks m datablkStart datablkMaxCnt).take needed

theorem mem_takenBlks {m : Mem} {needed q : ℕ} (h : q ∈ takenBlks m needed) :
    4096 ≤ q ∧ q + 512 ≤ 0x400000 := by
  obtain ⟨hlo, hhi, -⟩ := mem_freeBlks (List.mem_of_mem_take h)
  exact ⟨hlo, hhi⟩

theorem takenBlks_pairwise (m : Mem) (needed : ℕ) :
    (takenBlks m needed).Pairwise fun a b => a + 512 ≤ b :=
  (freeBlks_pairwise ..).sublist (List.take_sublist ..)

theorem takenBlks_eq_cons {m : Mem} {needed : ℕ} (h0 : 0 < needed)
    (hblks : needed ≤ (freeBlks m datablkStart datablkMaxCnt).length) :
    ∃ p qs, takenBlks m needed = p :: qs ∧ qs.length + 1 = needed := by
  have hcount : (takenBlks m needed).length = needed := by
    rw [takenBlks, List.length_take, min_eq_left hblks]
  cases htaken : takenBlks m needed with
  | nil =>
      rw [htaken, List.length_nil] at hcount
      exact absurd hcount.symm h0.ne'
  | cons p qs =>
      rw [htaken, List.length_cons] at hcount
      exact ⟨p, qs, rfl, hcount⟩

theorem namedBlks_of_notMem {m : Mem} {i p x : ℕ} {pf : SlfsFile} {uninit : Uninit} {qs : List ℕ}
    (hx : x < inodeAddr i ∨ inodeAddr i + 56 ≤ x) (hblks : ∀ q ∈ p :: qs, x < q ∨ q + 512 ≤ x) :
    namedBlks m i pf uninit p qs x = m x := by
  have htail : ∀ q ∈ p :: qs, x < q + 504 ∨ q + 512 ≤ x := fun q hq =>
    (hblks q hq).imp_left fun h => h.trans_le (Nat.le_add_right q 504)
  rw [namedBlks, put_of_notMem (by rwa [toBytes_length]), put_of_notMem (by rwa [toBytes_length]), linkedBlks,
    linkTails_of_notMem htail, put_of_notMem]
  rw [List.length_append, wordBytes_length, wordBytes_length]
  omega

theorem writtenNew_of_notMem {m : Mem} {i p x : ℕ} {pf : SlfsFile} {uninit : Uninit} {qs : List ℕ}
    {bs : List UInt8} (hx : x < inodeAddr i ∨ inodeAddr i + 56 ≤ x)
    (hblks : ∀ q ∈ p :: qs, x < q ∨ q + 512 ≤ x) : writtenNew m i pf uninit p qs bs x = m x := by
  have hpay : ∀ q ∈ p :: qs, x < q ∨ q + 504 ≤ x := fun q hq =>
    (hblks q hq).imp_right fun h => le_trans (Nat.add_le_add_left (by decide) q) h
  rw [writtenNew, put_of_notMem (by rw [wordBytes_length]; omega), scatter_of_notMem hpay,
    namedBlks_of_notMem hx hblks]

section Written

variable {m : Mem} {i p : ℕ} {pf : SlfsFile} {uninit : Uninit} {qs : List ℕ} {bs : List UInt8}

theorem namedBlks_chain (hi : i < inodeMaxCnt) (hqs : (p :: qs).Pairwise fun a b => a + 512 ≤ b)
    (hin : ∀ q ∈ p :: qs, 4096 ≤ q ∧ q + 512 ≤ 0x400000) :
    Chain (namedBlks m i pf uninit p qs) p qs := by
  have hslot : inodeAddr i + 56 < 4096 := inodeAddr_lt hi
  have hpos : ∀ q ∈ qs, q ≠ 0 := fun q hq => by
    have hq' := (hin q (List.mem_cons_of_mem p hq)).1
    omega
  have hchain : Chain (linkTails (put m (inodeAddr i + 8) (wordBytes pf.fileSize ++ wordBytes p))
      (inodeAddr i) p qs) p qs := linkTails_chain hqs hpos fun q hq => (hin q hq).2
  have hbelow (inode : SlfsInode) : ∀ q ∈ p :: qs, q + 512 ≤ inodeAddr i ∨
      inodeAddr i + inode.toBytes.length ≤ q + 504 := fun q hq => by
    have hq' := (hin q hq).1
    rw [toBytes_length]
    omega
  exact (hchain.put_payload (hbelow _)).put_payload (hbelow _)

theorem writtenNew_chain (hi : i < inodeMaxCnt) (hqs : (p :: qs).Pairwise fun a b => a + 512 ≤ b)
    (hin : ∀ q ∈ p :: qs, 4096 ≤ q ∧ q + 512 ≤ 0x400000) :
    Chain (writtenNew m i pf uninit p qs bs) p qs := by
  have hslot : inodeAddr i + 56 < 4096 := inodeAddr_lt hi
  refine ((namedBlks_chain hi hqs hin).scatter fun a ha b hb => ?_).put_payload fun q hq => ?_
  · have hab := apart_of_pairwise hqs ha hb
    omega
  · have hq' := (hin q hq).1
    rw [wordBytes_length]
    omega

theorem writtenNew_gather (hi : i < inodeMaxCnt) (hqs : (p :: qs).Pairwise fun a b => a + 512 ≤ b)
    (hin : ∀ q ∈ p :: qs, 4096 ≤ q ∧ q + 512 ≤ 0x400000) (hlen : bs.length ≤ 504 * (qs.length + 1)) :
    (gather (writtenNew m i pf uninit p qs bs) 504 (p :: qs)).take bs.length = bs := by
  have hslot : inodeAddr i + 56 < 4096 := inodeAddr_lt hi
  have hcnt : gather (writtenNew m i pf uninit p qs bs) 504 (p :: qs) = gather _ 504 (p :: qs) :=
    gather_congr fun q hq x hx _ => put_of_ge (by
      have hq' := (hin q hq).1
      rw [wordBytes_length]
      omega)
  rw [hcnt]
  exact gather_scatter hlen (hqs.imp fun h => le_trans (Nat.add_le_add_left (by decide) _) h)

end Written

/-- The handle once the blocks, `blks` of them from `p` on, and inode `i` are taken. -/
def takenFile (pf : SlfsFile) (i p blks : ℕ) : SlfsFile :=
  { takenInode pf i with datablkAddr := p, allocedblkNum := blks }

/-- What a write does before it copies data: it takes an inode and the blocks for the whole file. -/
theorem takeAll_run {i p needed : ℕ} {qs : List ℕ} (len : ℕ) (uninit : Uninit) (rest : FsM β)
    (hlen : u32 (w.file.pos + len) ≤ w.file.fileSize) (hsize : 0 < w.file.fileSize)
    (hinode : freeInode w.mem = some i) (hneeded : (w.file.fileSize + 503) / 504 = needed)
    (htaken : takenBlks w.mem needed = p :: qs) (hqs : qs.length + 1 = needed) : ∃ w',
    (takeInode uninit >>= fun _ => takeDatablks len uninit >>= fun _ =>
      writeInode uninit >>= fun _ => rest) w = rest w' ∧
      w'.mem = namedBlks w.mem i (takenFile w.file i p needed) uninit p qs ∧
      w'.file = takenFile w.file i p needed ∧
      ∃ l, w'.past = put (linkedBlks w.mem i (takenFile w.file i p needed) p qs) (inodeAddr i)
          (firstInode uninit (takenFile w.file i p needed)).toBytes ::
            linkedBlks w.mem i (takenFile w.file i p needed) p qs :: (l ++ w.past) ∧
        l.length = needed + 1 ∧ ∀ m ∈ l, OnlyOpened w.mem m i w.file.fileSize := by
  obtain ⟨w₁, htake, hmem₁, hfile₁, hpast₁⟩ := takeInode_of_some hinode
  have hidx₁ : w₁.file.inodeIdx = i := by rw [hfile₁]; rfl
  have hsize₁ : w₁.file.fileSize = w.file.fileSize := by rw [hfile₁]; rfl
  have hpos₁ : w₁.file.pos = w.file.pos := by rw [hfile₁]; rfl
  have hneeded₁ : (w₁.file.fileSize + 503) / 504 = needed := by rwa [hsize₁]
  have htaken₁ : takenBlks w₁.mem needed = p :: qs := by rwa [hmem₁]
  obtain ⟨w₂, halloc, hmem₂, hfile₂, l, hpast₂, hl, hopened⟩ := allocDatablk_of_le (w := w₁)
    (by rwa [hpos₁, hsize₁]) (by rwa [hsize₁]) (by rw [hidx₁]; exact freeInode_lt hinode) hneeded₁ htaken₁
    hqs
  have hfile₂' : w₂.file = takenFile w.file i p needed := by rw [hfile₂, hfile₁]; rfl
  have hblks : takeDatablks len uninit w₁ = .ok () w₂ := tryCatch_ok halloc
  have hidx₂ : w₂.file.inodeIdx = i := by rw [hfile₂']; rfl
  obtain ⟨w₃, hinode₃, hmem₃, hfile₃, hpast₃⟩ := writeInode_of_lt (w := w₂)
    (by rw [hidx₂]; exact freeInode_lt hinode)
  refine ⟨w₃, ?_, ?_, hfile₃.trans hfile₂', l, ?_, hl, ?_⟩
  · rw [bind_ok htake, bind_ok hblks, bind_ok hinode₃]
  · rw [hmem₃, hmem₂, hidx₂, hfile₂', hidx₁, hsize₁, hmem₁]
    rfl
  · rw [hpast₃, hmem₂, hidx₂, hfile₂', hidx₁, hsize₁, hmem₁, hpast₂, hpast₁]
    rfl
  · rw [hmem₁, hidx₁, hsize₁] at hopened
    exact hopened

/-- A handle on which the first write runs: nothing is written yet and the position is 0. -/
structure Fresh (pf : SlfsFile) : Prop where
  isOpen : pf.openCnt ≠ 0
  empty : pf.fileSize = 0
  start : pf.pos = 0

theorem openNew_fresh (pf : SlfsFile) (pname : ℕ → UInt8) : Fresh (openNew pf pname) :=
  ⟨Nat.one_ne_zero, rfl, rfl⟩

theorem slfsWrite_eq {pbuf : Mem} {len : ℕ} {uninit : Uninit} (hopen : w.file.openCnt ≠ 0)
    (hlen : 0 < len) : slfsWrite pbuf len uninit w = (do
      takeInode uninit
      takeDatablks len uninit
      writeInode uninit
      if w.file.fileSize = 0 then getFile >>= fun pf => writeNew pbuf len pf.datablkAddr 0 len
      else writeUpdate pbuf w.file len uninit
      writeUpdateCnt) { w with file := { w.file with fileSize := grownSize w.file len } } := by
  rw [slfsWrite, getFile_bind, if_neg hopen, if_neg hlen.ne', modifyFile_bind]
  split <;> rfl

theorem slfsWrite_fresh {pbuf : Mem} {len i p needed : ℕ} {qs : List ℕ} {uninit : Uninit}
    (hfresh : Fresh w.file) (hlen : 0 < len) (hlt : len < Word.size) (hinode : freeInode w.mem = some i)
    (hneeded : (len + 503) / 504 = needed) (htaken : takenBlks w.mem needed = p :: qs)
    (hqs : qs.length + 1 = needed) : ∃ w', slfsWrite pbuf len uninit w = .ok () w' ∧
      w'.file = takenFile { w.file with fileSize := len } i p needed ∧
      w'.mem = writtenNew w.mem i w'.file uninit p qs (bytes pbuf 0 len) := by
  have hi := freeInode_lt hinode
  have hpair : (p :: qs).Pairwise fun a b => a + 512 ≤ b := htaken ▸ takenBlks_pairwise w.mem needed
  have hin : ∀ q ∈ p :: qs, 4096 ≤ q ∧ q + 512 ≤ 0x400000 := fun q hq =>
    mem_takenBlks (m := w.mem) (htaken ▸ hq)
  have hend : u32 (w.file.pos + len) ≤ len := by
    rw [hfresh.start, Nat.zero_add, u32_of_lt hlt]
  have hgrown : grownSize w.file len = len := if_pos hfresh.empty
  obtain ⟨w₁, htake, hmem₁, hfile₁, -⟩ := takeAll_run
    (w := { w with file := { w.file with fileSize := len } }) len uninit
    ((getFile >>= fun pf => writeNew pbuf len pf.datablkAddr 0 len) >>= fun _ => writeUpdateCnt)
    hend hlen hinode hneeded htaken hqs
  have haddr₁ : w₁.file.datablkAddr = p := by rw [hfile₁]; rfl
  have hidx₁ : w₁.file.inodeIdx = i := by rw [hfile₁]; rfl
  have hchain : Chain w₁.mem p qs := hmem₁ ▸ namedBlks_chain hi hpair hin
  obtain ⟨w₂, hnew, hmem₂, hfile₂⟩ := writeNew_chain hchain hpair
    (n := len) (by omega) hlen le_rfl
  have hdata : (getFile >>= fun pf => writeNew pbuf len pf.datablkAddr 0 len) w₁ = .ok () w₂ := by
    rw [getFile_bind, haddr₁]
    exact hnew
  have hidx₂ : w₂.file.inodeIdx = i := by rw [hfile₂, hidx₁]
  obtain ⟨w₃, hcnt, hmem₃, hfile₃, -⟩ := writeUpdateCnt_of_lt (hidx₂ ▸ hi)
  refine ⟨w₃, ?_, hfile₃.trans (hfile₂.trans hfile₁), ?_⟩
  · rw [slfsWrite_eq hfresh.isOpen hlen, hgrown, if_pos hfresh.empty]
    exact htake.trans ((bind_ok hdata).trans hcnt)
  · rw [hmem₃, hfile₃, hidx₂, hmem₂, hmem₁, hfile₂, hfile₁]
    rfl

theorem slfsSeek_set {p : ℕ} (hopen : w.file.openCnt ≠ 0) (hp : p ≤ w.file.fileSize) :
    slfsSeek p .seekSet w = .ok () { w with file := { w.file with pos := p } } := by
  rw [slfsSeek, getFile_bind, if_neg hopen, if_neg (Nat.not_lt.mpr hp), modifyFile_run]

theorem drop_take_bytes {m : Mem} {a len p n : ℕ} :
    ((bytes m a len).drop p).take (min n (len - p)) = bytes m (a + p) (min (p + n) len - p) := by
  rcases le_total p len with h | h
  · rw [drop_bytes h, take_bytes (min_le_right _ _)]
    congr 1
    omega
  · rw [List.drop_eq_nil_of_le (by rwa [bytes_length]), List.take_nil,
      Nat.sub_eq_zero_of_le ((min_le_right _ _).trans h)]
    rfl

/-- A new file reads back as it was written, whatever the device holds, and the first write changes
its inode slot and its blocks only. -/
theorem new_file_round_trip {w₀ : Fs} {pname pbuf : ℕ → UInt8} {len i : ℕ} {uninit : Uninit}
    (hopen : slfsOpen pname w₀ = .ok () w) (hnew : w.file.inodeIdx = minusOne) (hlen : 0 < len)
    (hinode : freeInode w.mem = some i)
    (hblks : (len + 503) / 504 ≤ (freeBlks w.mem datablkStart datablkMaxCnt).length) :
    ∃ w', slfsWrite pbuf len uninit w = .ok () w' ∧
      (∀ p n, p ≤ len → p + n < Word.size → ∃ w'',
        (slfsSeek p .seekSet >>= fun _ => slfsRead n) w' = .ok () w'' ∧
          w''.buf = put w'.buf 0 (bytes pbuf p (min (p + n) len - p))) ∧
      ∀ x, x < inodeAddr i ∨ inodeAddr i + 56 ≤ x →
        (∀ q ∈ takenBlks w.mem ((len + 503) / 504), x < q ∨ q + 512 ≤ x) → w'.mem x = w.mem x := by
  have hfile := slfsOpen_new hopen hnew
  have hfresh : Fresh w.file := hfile ▸ openNew_fresh w₀.file pname
  have hcount := hblks.trans (freeBlks_length_le w.mem datablkStart datablkMaxCnt)
  have hmax : datablkMaxCnt = 8184 := by decide
  have hlt : len < Word.size := by
    rw [hmax] at hcount
    unfold Word.size
    omega
  have hi := freeInode_lt hinode
  obtain ⟨p, qs, htaken, hqs⟩ := takenBlks_eq_cons (Nat.div_pos (by omega) (by decide)) hblks
  have hpair : (p :: qs).Pairwise fun a b => a + 512 ≤ b := htaken ▸ takenBlks_pairwise w.mem _
  have hin : ∀ q ∈ p :: qs, 4096 ≤ q ∧ q + 512 ≤ 0x400000 := fun q hq =>
    mem_takenBlks (m := w.mem) (htaken ▸ hq)
  obtain ⟨w', hwrite, hfile', hmem'⟩ := slfsWrite_fresh hfresh hlen
    hlt hinode rfl htaken hqs
  have hopen' : w'.file.openCnt ≠ 0 := by rw [hfile']; exact hfresh.isOpen
  have hsize' : w'.file.fileSize = len := by rw [hfile']; rfl
  have haddr' : w'.file.datablkAddr = p := by rw [hfile']; rfl
  have hfit : len ≤ 504 * (qs.length + 1) := by omega
  refine ⟨w', hwrite, fun pos n hpos hn => ?_, fun x hx hq => ?_⟩
  · have hchain : Chain w'.mem w'.file.datablkAddr qs := by
      rw [haddr', hmem']
      exact writtenNew_chain hi hpair hin
    have hdata : (gather w'.mem 504 (p :: qs)).take len = bytes pbuf 0 len := by
      have hgather : (gather (writtenNew w.mem i w'.file uninit p qs (bytes pbuf 0 len)) 504 (p :: qs)).take
          (bytes pbuf 0 len).length = _ := writtenNew_gather hi hpair hin (by rwa [bytes_length])
      rwa [bytes_length, ← hmem'] at hgather
    have hread := slfsRead_chain (w := { w' with file := { w'.file with pos := pos } }) (n := n) hchain
      (by simpa only [hsize'] using hlen) (by simpa only [hsize'] using hfit)
      (by simpa only [hsize'] using hpos) hn
    refine ⟨_, (bind_ok (slfsSeek_set hopen' (hsize' ▸ hpos))).trans hread, ?_⟩
    have hrange : ((gather w'.mem 504 (p :: qs)).drop pos).take (min n (len - pos)) =
        bytes pbuf pos (min (pos + n) len - pos) := by
      have hcut : ((bytes pbuf 0 len).drop pos).take (min n (len - pos)) = _ := drop_take_bytes
      rw [Nat.zero_add] at hcut
      rw [← hcut, ← hdata, List.drop_take, List.take_take, min_eq_left (min_le_right _ _)]
    simp only [haddr', hsize', hrange]
  · rw [hmem']
    exact writtenNew_of_notMem hx fun q hq' => hq q (htaken ▸ hq')

/-- Behind the metadata page of an erased device there is room for a file of two blocks. -/
theorem opened_blks : 2 ≤ (freeBlks (stateAfter (slfsOpen (letter 97) erasedFs)).mem datablkStart datablkMaxCnt).length := by
  have hmax : datablkMaxCnt = 8182 + 1 + 1 := rfl
  rw [hmax, freeBlks_succ, if_pos (by decide +kernel), freeBlks_succ, if_pos (by decide +kernel), List.length_cons,
    List.length_cons]
  omega

/-- A file of two blocks, and a read across the border of them. -/
theorem new_file_round_trip_two_blocks :
    ∃ w', slfsWrite (fun k => UInt8.ofNat k) 600 zeroUninit (stateAfter (slfsOpen (letter 97) erasedFs)) = .ok () w' ∧
      ∃ w'', (slfsSeek 500 .seekSet >>= fun _ => slfsRead 50) w' = .ok () w'' ∧
        w''.buf = put w'.buf 0 (bytes (fun k => UInt8.ofNat k) 500 50) := by
  obtain ⟨w', hwrite, hread, -⟩ : ∃ w', slfsWrite (fun k => UInt8.ofNat k) 600 zeroUninit
      (stateAfter (slfsOpen (letter 97) erasedFs)) = .ok () w' ∧ _ ∧ _ :=
    new_file_round_trip (i := 0) (eq_ok_of_succeeded (by decide +kernel)) (by decide +kernel) (by decide)
      (by decide +kernel) opened_blks
  obtain ⟨w'', hrun, hbuf⟩ := hread 500 50 (by decide) (by decide)
  exact ⟨w', hwrite, w'', hrun, hbuf⟩

end Slos.Slfs
