import Slos.SlfsInodes

/-!
# The stages of a write

The devices `slfs_write` goes through: while the blocks are linked only two words of the inode slot
change, then the inode is written twice, then data goes into the payloads of the new chain, and the last
operation records the update count.
-/

namespace Slos.Slfs
open Word ByteMemory Ramdisk ScatterGather

variable {α : Type} {m T : Mem} {p i n : ℕ} {qs : List ℕ} {w : Fs} {pf : SlfsFile} {uninit : Uninit}

/-- A call that never fails from a state with the property. -/
def Returns (P : Fs → Prop) (x : FsM α) : Prop := ∀ w, P w → ∃ a w', x w = .ok a w'

/-- Data goes into the chain `p :: qs`; the first page, the memory outside the device and the other blocks are
as in `T`. -/
structure Filling (T : Mem) (pf : SlfsFile) (p : ℕ) (qs : List ℕ) (u : Fs) : Prop where
  page : ∀ x < ramdiskPageSize, u.mem x = T x
  outside : ∀ x, ramdiskSize ≤ x → u.mem x = T x
  frame : ∀ x, (∀ q ∈ p :: qs, x < q ∨ q + 512 ≤ x) → u.mem x = T x
  chain : Chain u.mem p qs
  file : u.file = pf

/-- The blocks of a chain lie apart behind the first page. -/
structure Apart (p : ℕ) (qs : List ℕ) : Prop where
  pairwise : (p :: qs).Pairwise fun a b => a + 512 ≤ b
  inside : ∀ q ∈ p :: qs, ramdiskPageSize ≤ q ∧ q + 512 ≤ ramdiskSize

theorem Filling.write {u : Fs} (h : Filling T pf p qs u) (hqs : Apart p qs) {r : ℕ} (hr : r ∈ p :: qs)
    {bs : List UInt8} (hbs : bs.length ≤ 504) (hm : writeRamdisk u.mem r bs = some m) :
    Filling T pf p qs (u.store m) := by
  obtain ⟨hlo, hhi⟩ := hqs.inside r hr
  rw [writeRamdisk_of_le (by omega)] at hm
  obtain rfl := Option.some.inj hm
  refine ⟨fun x hx => ?_, fun x hx => ?_, fun x hx => ?_, ?_, h.file⟩
  · rw [store_mem, put_of_lt (hx.trans_le hlo)]
    exact h.page x hx
  · rw [store_mem, put_of_ge (by omega)]
    exact h.outside x hx
  · rw [store_mem, put_of_notMem ((hx r hr).imp_right fun hge => by omega)]
    exact h.frame x hx
  · refine h.chain.put_payload fun q hq => ?_
    rcases apart_of_pairwise hqs.pairwise hq hr with rfl | hqr | hqr
    · exact Or.inr (Nat.add_le_add_left hbs q)
    · exact Or.inl hqr
    · exact Or.inr (by omega)

theorem Filling.write_stays (hqs : Apart p qs) {r : ℕ} (hr : r ∈ p :: qs) {bs : List UInt8}
    (hbs : bs.length ≤ 504) : Stays (Filling T pf p qs) (writeOrErr r bs) fun _ => True :=
  writeOrErr_stays fun _ _ h hm => h.write hqs hr hbs hm

theorem Filling.write_returns (hqs : Apart p qs) {r : ℕ} (hr : r ∈ p :: qs) {bs : List UInt8}
    (hbs : bs.length ≤ 504) : Returns (Filling T pf p qs) (writeOrErr r bs) := fun _ _ =>
  ⟨_, _, writeOrErr_of_le (by have hin := (hqs.inside r hr).2; omega)⟩

theorem Chain.get_next {r s : ℕ} (h : Chain m p qs) (hr : (p :: qs)[i]? = some r)
    (hs : (p :: qs)[i + 1]? = some s) : word m (r + 508) = s := by
  induction qs generalizing p i with
  | nil =>
      rw [List.getElem?_cons_succ, List.getElem?_nil] at hs
      cases hs
  | cons q qs ih =>
      cases i with
      | zero =>
          cases hr
          cases hs
          exact h.next
      | succ i => exact ih h.tail hr hs

theorem Filling.next_stays (hqs : Apart p qs) {r : ℕ} (hr : (p :: qs)[i]? = some r) :
    Stays (Filling T pf p qs) (readWord (u32 (r + datablkTailOffLow)))
      fun a => i < qs.length → (p :: qs)[i + 1]? = some a :=
  (readWord_readOnly _).stays fun u hu a u' hrun hi => by
    have hin := (hqs.inside r (List.mem_of_getElem? hr)).2
    rw [readNext hin] at hrun
    cases hrun
    have hlt : i + 1 < (p :: qs).length := Nat.succ_lt_succ hi
    rw [List.getElem?_eq_getElem hlt]
    exact congrArg some (hu.chain.get_next hr (List.getElem?_eq_getElem hlt)).symm

theorem Filling.next_returns (hqs : Apart p qs) {r : ℕ} (hr : r ∈ p :: qs) :
    Returns (Filling T pf p qs) (readWord (u32 (r + datablkTailOffLow))) := fun _ _ =>
  ⟨_, _, readNext (hqs.inside r hr).2⟩

theorem Returns.bind {β : Type} {P : Fs → Prop} {R : α → Prop} {x : FsM α} {f : α → FsM β}
    (hx : Returns P x) (hs : Stays P x R) (hf : ∀ a, R a → Returns P (f a)) :
    Returns P (x >>= f) := by
  intro w hw
  obtain ⟨a, w', hrun⟩ := hx w hw
  obtain ⟨hP, -, hR⟩ := hs w hw
  rw [hrun] at hP
  rw [bind_ok hrun]
  exact hf a (hR a w' hrun) w' hP

theorem writeNew_stays {pbuf : Mem} {fuel bufPos r : ℕ} (hqs : Apart p qs)
    (hr : (p :: qs)[i]? = some r) (hn : n ≤ 504 * (qs.length + 1 - i)) :
    Stays (Filling T pf p qs) (writeNew pbuf fuel r bufPos n) fun _ => True := by
  induction fuel generalizing i r bufPos n with
  | zero => exact Stays.pure trivial
  | succ fuel ih =>
      have hmem := List.mem_of_getElem? hr
      rw [writeNew]
      split
      · exact Stays.pure trivial
      · split
        · rename_i hgt
          have hgt' : 504 < n := hgt
          have hsub : n - datablkPayloadSize = n - 504 := rfl
          refine (Filling.write_stays hqs hmem (by rw [bytes_length]; decide)).bind fun _ _ => ?_
          refine (Filling.next_stays hqs hr).bind fun a ha => ?_
          exact ih (ha (by omega)) (by omega)
        · rename_i hle
          exact Filling.write_stays hqs hmem (by rw [bytes_length]; exact Nat.not_lt.mp hle)

theorem cpuRead_readOnly (addr : ℕ) : ReadOnly (cpuRead addr) := fun _ => rfl

@[simp] theorem spliceBlk_datablkAddr (pbuf data : Mem) (st : CopyState) :
    (spliceBlk pbuf data st).2.datablkAddr = st.datablkAddr := by
  by_cases h : st.bytesWrite > 0 ∧ st.pos < datablkPayloadSize
  · simp only [spliceBlk, if_pos h]
  · simp only [spliceBlk, if_neg h]

@[simp] theorem spliceBlk_datablkAddrPrev (pbuf data : Mem) (st : CopyState) :
    (spliceBlk pbuf data st).2.datablkAddrPrev = st.datablkAddrPrev := by
  by_cases h : st.bytesWrite > 0 ∧ st.pos < datablkPayloadSize
  · simp only [spliceBlk, if_pos h]
  · simp only [spliceBlk, if_neg h]

/-- The copies of `n` blocks stay in the chain from its block `i` on. -/
theorem copyBlks_stays {pbuf : Mem} {st : CopyState} (hqs : Apart p qs)
    (hr : i < qs.length + 1 → (p :: qs)[i]? = some st.datablkAddr) (hn : i + n ≤ qs.length + 1) :
    Stays (Filling T pf p qs) (copyBlks pbuf n st)
      fun st' => i + n < qs.length + 1 → (p :: qs)[i + n]? = some st'.datablkAddr := by
  induction n generalizing i st with
  | zero => exact Stays.pure hr
  | succ n ih =>
      have hget := hr (by omega)
      refine ((readOrErr_readOnly _ _).stays fun _ _ _ _ _ => trivial).bind fun b _ => ?_
      dsimp only
      rw [spliceBlk_datablkAddr, spliceBlk_datablkAddrPrev]
      refine (Filling.write_stays hqs (List.mem_of_getElem? hget) bytes_length.le).bind fun _ _ => ?_
      refine ((cpuRead_readOnly _).stays fun _ _ _ _ _ => trivial).bind fun prev _ => ?_
      refine (Filling.next_stays hqs hget).bind fun next hnext => ?_
      rw [← Nat.succ_add_eq_add_succ] at hn ⊢
      exact ih (fun hi => hnext (Nat.lt_of_succ_lt_succ hi)) hn

theorem appendLen_le {k len : ℕ} (h : (if k < datablkPayloadSize then k else datablkPayloadSize) = len) :
    len ≤ 504 := by
  rw [← h]
  split
  · rename_i hk
    exact hk.le
  · exact le_rfl

theorem appendBlks_stays {pbuf : Mem} {j r k b : ℕ} (hqs : Apart p qs)
    (hr : i < qs.length + 1 → (p :: qs)[i]? = some r) (hn : i + n ≤ qs.length + 1) :
    Stays (Filling T pf p qs) (appendBlks pbuf n j r k b) fun _ => True := by
  induction n generalizing i j r k b with
  | zero => exact Stays.pure trivial
  | succ n ih =>
      have hget := hr (by omega)
      obtain ⟨len, hlen⟩ : ∃ len, (if k < datablkPayloadSize then k else datablkPayloadSize) = len := ⟨_, rfl⟩
      have hle := appendLen_le hlen
      rw [appendBlks, hlen]
      refine (Filling.write_stays hqs (List.mem_of_getElem? hget) (bytes_length.le.trans hle)).bind
        fun _ _ => ?_
      split
      · exact Stays.pure trivial
      · refine (Filling.next_stays hqs hget).bind fun next hnext => ?_
        rw [← Nat.succ_add_eq_add_succ] at hn
        exact ih (fun hi => hnext (Nat.lt_of_succ_lt_succ hi)) hn

theorem appendBlks_returns {pbuf : Mem} {j r k b : ℕ} (hqs : Apart p qs)
    (hr : i < qs.length + 1 → (p :: qs)[i]? = some r) (hn : i + n ≤ qs.length + 1) :
    Returns (Filling T pf p qs) (appendBlks pbuf n j r k b) := by
  induction n generalizing i j r k b with
  | zero => exact fun _ _ => ⟨_, _, rfl⟩
  | succ n ih =>
      have hget := hr (by omega)
      have hmem := List.mem_of_getElem? hget
      obtain ⟨len, hlen⟩ : ∃ len, (if k < datablkPayloadSize then k else datablkPayloadSize) = len := ⟨_, rfl⟩
      have hle := appendLen_le hlen
      rw [appendBlks, hlen]
      refine (Filling.write_returns hqs hmem (bytes_length.le.trans hle)).bind
        (Filling.write_stays hqs hmem (bytes_length.le.trans hle)) fun _ _ => ?_
      split
      · exact fun _ _ => ⟨_, _, rfl⟩
      · refine (Filling.next_returns hqs hmem).bind (Filling.next_stays hqs hget) fun next hnext => ?_
        rw [← Nat.succ_add_eq_add_succ] at hn
        exact ih (fun hi => hnext (Nat.lt_of_succ_lt_succ hi)) hn

/-- The first `n` blocks that `slfs_write` takes for those of the previous version can be read. All but
the first have addresses out of memory outside the device. -/
def Readable (m : Mem) : (n a : ℕ) → Prop
  | 0, _ => True
  | n + 1, a => u32 (a + datablkPayloadSize) ≤ ramdiskSize ∧
      Readable m n (cpuWord m (u32 (a + datablkTailOffLow)))

/-- The tail of a block that can be read lies outside the device, for the plain addresses of the device are
higher. -/
theorem cpuWord_outside {m' : Mem} {a : ℕ} (h : u32 (a + datablkPayloadSize) ≤ ramdiskSize)
    (heq : ∀ x, ramdiskSize ≤ x → m' x = m x) :
    cpuWord m' (u32 (a + datablkTailOffLow)) = cpuWord m (u32 (a + datablkTailOffLow)) := by
  have hstart : ramdiskStart = 50331648 := rfl
  have hsize : ramdiskSize = 4194304 := rfl
  have hpay : a + datablkPayloadSize = a + 504 := rfl
  have htail : a + datablkTailOffLow = a + 508 := rfl
  rw [hpay, hsize] at h
  have hlow : u32 (a + 508) ≤ 4194308 := by
    unfold u32 size at *
    omega
  have hbyte {j : ℕ} (hj : j < 4) :
      m' (usub (u32 (a + 508) + j) ramdiskStart) = m (usub (u32 (a + 508) + j) ramdiskStart) := by
    refine heq _ ?_
    rw [hstart, hsize, usub_of_lt (by decide) (by omega)]
    unfold size
    omega
  have h₀ := hbyte (j := 0) (by decide)
  rw [Nat.add_zero] at h₀
  rw [htail, cpuWord, cpuWord, h₀, hbyte (by decide), hbyte (by decide), hbyte (by decide)]

theorem readOrErr_of_u32_le {addr len : ℕ} (h : u32 (addr + len) ≤ ramdiskSize) :
    ∃ b, readOrErr addr len w = .ok b w := by
  have hread : readRamdisk w.mem addr len = some _ := if_neg (Nat.not_lt.mpr h)
  rw [readOrErr, hread]
  exact ⟨_, rfl⟩

theorem readOrErr_of_lt_u32 {addr len : ℕ} (h : ramdiskSize < u32 (addr + len)) :
    readOrErr addr len w = .error .io w := by
  have hread : readRamdisk w.mem addr len = none := if_pos h
  rw [readOrErr, hread]

/-- One block is copied, whatever bytes of the previous version are read. -/
theorem copyBlks_step {pbuf data : Mem} {st : CopyState} (hqs : Apart p qs) (hw : Filling T pf p qs w)
    (hget : (p :: qs)[i]? = some st.datablkAddr)
    (hread : readOrErr st.datablkAddrPrev datablkPayloadSize w = .ok data w) : ∃ w' next,
      copyBlks pbuf (n + 1) st w = copyBlks pbuf n
        { (spliceBlk pbuf data st).2 with
          datablkAddrPrev := cpuWord w'.mem (u32 (st.datablkAddrPrev + datablkTailOffLow))
          datablkAddr := next
          bytesWritten := u32 ((spliceBlk pbuf data st).2.bytesWritten + (spliceBlk pbuf data st).2.len) } w' ∧
        w'.mem = put w.mem st.datablkAddr (bytes (spliceBlk pbuf data st).1 0 datablkPayloadSize) ∧
        Filling T pf p qs w' ∧ (i < qs.length → (p :: qs)[i + 1]? = some next) := by
  have hmem := List.mem_of_getElem? hget
  have hhi := (hqs.inside _ hmem).2
  obtain ⟨bs, hbs⟩ : ∃ bs, bs = bytes (spliceBlk pbuf data st).1 0 datablkPayloadSize := ⟨_, rfl⟩
  have hlen : bs.length = 504 := by rw [hbs, bytes_length]; rfl
  obtain ⟨w₁, hw₁⟩ : ∃ w₁, w₁ = w.store (put w.mem st.datablkAddr bs) := ⟨_, rfl⟩
  have hwrite : writeOrErr st.datablkAddr bs w = .ok () w₁ := by
    rw [hw₁]
    exact writeOrErr_of_le (by omega)
  have hfill := (Filling.write_stays (T := T) hqs hmem hlen.le w hw).1
  rw [hwrite] at hfill
  replace hfill : Filling T pf p qs w₁ := hfill
  have hcpu : cpuRead (u32 (st.datablkAddrPrev + datablkTailOffLow)) w₁ =
      .ok (cpuWord w₁.mem (u32 (st.datablkAddrPrev + datablkTailOffLow))) w₁ := rfl
  have hnext := readNext (p := st.datablkAddr) (w := w₁) hhi
  refine ⟨w₁, word w₁.mem (st.datablkAddr + 508), ?_, by rw [hw₁, ← hbs]; rfl, hfill,
    (Filling.next_stays (T := T) hqs hget w₁ hfill).2.2 _ _ hnext⟩
  rw [copyBlks, bind_ok hread]
  dsimp only
  rw [spliceBlk_datablkAddr, spliceBlk_datablkAddrPrev, ← hbs, bind_ok hwrite, bind_ok hcpu, bind_ok hnext]

theorem copyBlks_succeeded {pbuf : Mem} {st : CopyState} (hqs : Apart p qs)
    (hw : Filling T pf p qs w) (hr : i < qs.length + 1 → (p :: qs)[i]? = some st.datablkAddr)
    (hn : i + n ≤ qs.length + 1) :
    succeeded (copyBlks pbuf n st w) ↔ Readable T n st.datablkAddrPrev := by
  induction n generalizing i st w with
  | zero => exact iff_of_true rfl trivial
  | succ n ih =>
      have hget := hr (by omega)
      rw [Readable]
      by_cases hread : u32 (st.datablkAddrPrev + datablkPayloadSize) ≤ ramdiskSize
      · obtain ⟨data, hdata⟩ := readOrErr_of_u32_le (w := w) hread
        obtain ⟨w', next, hrun, -, hw', hnext⟩ := copyBlks_step (n := n) hqs hw hget hdata
        rw [← Nat.succ_add_eq_add_succ] at hn
        rw [hrun, ih hw' (fun hi => hnext (Nat.lt_of_succ_lt_succ hi)) hn, cpuWord_outside hread hw'.outside]
        exact (and_iff_right hread).symm
      · rw [copyBlks, bind_error (readOrErr_of_lt_u32 (Nat.not_le.mp hread))]
        exact iff_of_false Bool.false_ne_true fun h => hread h.1

theorem Readable.congr {m' : Mem} {a : ℕ} (heq : ∀ x, ramdiskSize ≤ x → m' x = m x) :
    Readable m' n a ↔ Readable m n a := by
  induction n generalizing a with
  | zero => exact Iff.rfl
  | succ n ih =>
      rw [Readable, Readable]
      refine and_congr_right fun h => ?_
      rw [cpuWord_outside h heq]
      exact ih

section Data

variable {pbuf : Mem} {prev : SlfsFile} {len : ℕ}

/-- The data of a write, to a new file or over the previous version. -/
def writeData (pbuf : Mem) (prev : SlfsFile) (len : ℕ) (uninit : Uninit) : FsM Unit :=
  if prev.fileSize = 0 then getFile >>= fun pf => writeNew pbuf len pf.datablkAddr 0 len
  else writeUpdate pbuf prev len uninit

/-- The data fits the new chain: the buffer of a first write, or the blocks counted for the previous
version. -/
def Fits (prev : SlfsFile) (len blks : ℕ) : Prop :=
  prev.fileSize = 0 ∧ len ≤ 504 * blks ∨ prev.fileSize ≠ 0 ∧ prev.allocedblkNum ≤ blks

theorem usub_blks (hlt : n < Word.size) {k : ℕ} (h : k ≤ n) : k + usub n k = n := by
  rw [usub_of_le hlt h]
  omega

theorem writeData_stays (hqs : Apart p qs) (hlt : qs.length + 1 < Word.size)
    (haddr : pf.datablkAddr = p) (hnum : pf.allocedblkNum = qs.length + 1)
    (hfit : Fits prev len (qs.length + 1)) :
    Stays (Filling T pf p qs) (writeData pbuf prev len uninit) fun _ => True := by
  have hget : Stays (Filling T pf p qs) getFile (· = pf) := getFile_stays fun _ h => h.file
  rw [writeData]
  rcases hfit with ⟨hzero, hlen⟩ | ⟨hpos, hblks⟩
  · rw [if_pos hzero]
    refine hget.bind fun f hf => ?_
    rw [hf, haddr]
    exact writeNew_stays (i := 0) hqs rfl hlen
  · rw [if_neg hpos, writeUpdate]
    refine hget.bind fun f hf => ?_
    rw [hf, haddr, hnum]
    refine (copyBlks_stays (i := 0) hqs (fun _ => rfl) (by omega)).bind fun st hst => ?_
    split
    · exact appendBlks_stays (i := 0 + prev.allocedblkNum) hqs hst
        (by rw [Nat.zero_add, usub_blks hlt hblks])
    · exact Stays.pure trivial

theorem writeData_succeeded (hqs : Apart p qs) (hlt : qs.length + 1 < Word.size)
    (haddr : pf.datablkAddr = p) (hnum : pf.allocedblkNum = qs.length + 1) (h0 : 0 < len)
    (hfit : Fits prev len (qs.length + 1)) {w : Fs} (hw : Filling T pf p qs w) :
    succeeded (writeData pbuf prev len uninit w) ↔
      (prev.fileSize ≠ 0 → Readable T prev.allocedblkNum prev.datablkAddr) := by
  rw [writeData]
  rcases hfit with ⟨hzero, hlen⟩ | ⟨hpos, hblks⟩
  · obtain ⟨w', hrun, -⟩ := writeNew_chain hw.chain hqs.pairwise hlen h0 le_rfl
    rw [if_pos hzero, getFile_bind, hw.file, haddr, hrun]
    exact iff_of_true rfl fun hne => absurd hzero hne
  · rw [if_neg hpos, writeUpdate, getFile_bind, hw.file, haddr, hnum]
    obtain ⟨st, hst⟩ : ∃ st : CopyState, st = ⟨prev.datablkAddr, p, pf.pos, 0, len, 0, uninit.len⟩ := ⟨_, rfl⟩
    have hcopy : succeeded (copyBlks pbuf prev.allocedblkNum st w) ↔ _ :=
      copyBlks_succeeded (i := 0) hqs hw (fun _ => by rw [hst]; rfl) (by omega)
    have hcopied : Stays (Filling T pf p qs) (copyBlks pbuf prev.allocedblkNum st) _ :=
      copyBlks_stays (i := 0) hqs (fun _ => by rw [hst]; rfl) (by omega)
    have hstays := hcopied w hw
    rw [← hst]
    have hprev : st.datablkAddrPrev = prev.datablkAddr := by rw [hst]
    rw [hprev] at hcopy
    rw [imp_iff_right hpos, ← hcopy]
    cases hrun : copyBlks pbuf prev.allocedblkNum st w with
    | error e u => rw [bind_error hrun]; rfl
    | ok st' u =>
        rw [hrun] at hstays
        rw [bind_ok hrun]
        refine iff_of_true ?_ rfl
        split
        · obtain ⟨_, u', hrest⟩ := appendBlks_returns (T := T) (j := 0)
            (k := st'.bytesWrite) (b := st'.bytesWritten) (i := 0 + prev.allocedblkNum)
            (n := usub (qs.length + 1) prev.allocedblkNum) hqs (hstays.2.2 st' u rfl)
            (by rw [Nat.zero_add, usub_blks hlt hblks]) u hstays.1
          rw [hrest]
          rfl
        · rfl

end Data

/-- The first page is as before but for the inode in slot `i`. -/
def SlotIs (m m' : Mem) (i : ℕ) (inode : SlfsInode) : Prop :=
  ∀ x < ramdiskPageSize, m' x = put m (inodeAddr i) inode.toBytes x

theorem slotIs_put {m' : Mem} {inode : SlfsInode}
    (h : ∀ x < ramdiskPageSize, x < inodeAddr i ∨ inodeAddr i + 56 ≤ x → m' x = m x) :
    SlotIs m (put m' (inodeAddr i) inode.toBytes) i inode := fun x hx =>
  put_congr fun hslot => h x hx (by rwa [toBytes_length] at hslot)

theorem OnlyOpened.slotIs {m' : Mem} {fileSize : ℕ} {inode : SlfsInode} (h : OnlyOpened m m' i fileSize) :
    SlotIs m (put m' (inodeAddr i) inode.toBytes) i inode :=
  slotIs_put fun x hx hslot => h.rest x hx (by omega)

theorem SlotIs.rewrite {m' : Mem} {inode inode' : SlfsInode} (h : SlotIs m m' i inode') :
    SlotIs m (put m' (inodeAddr i) inode.toBytes) i inode :=
  slotIs_put fun x hx hslot => (h x hx).trans (put_of_notMem (by rwa [toBytes_length]))

theorem SlotIs.congr {m' m'' : Mem} {inode : SlfsInode} (h : SlotIs m m' i inode)
    (heq : ∀ x < ramdiskPageSize, m'' x = m' x) : SlotIs m m'' i inode := fun x hx =>
  (heq x hx).trans (h x hx)

/-- The update count is written over. -/
theorem SlotIs.close {m' : Mem} {inode : SlfsInode} {cnt : ℕ} (h : SlotIs m m' i inode) :
    SlotIs m (put m' (inodeAddr i + 4) (wordBytes cnt)) i { inode with updateCnt := cnt } := by
  obtain ⟨rest, hrest⟩ : ∃ rest, rest = wordBytes inode.fileSize ++ wordBytes inode.datablkAddr ++
    wordBytes inode.fileId ++ wordBytes inode.reserved ++ (List.range fnameLen).map inode.name := ⟨_, rfl⟩
  have hbytes : inode.toBytes = wordBytes inode.inodeIdx ++ (wordBytes inode.updateCnt ++ rest) := by
    rw [hrest]
    simp only [SlfsInode.toBytes, List.append_assoc]
  have hclosed : SlfsInode.toBytes { inode with updateCnt := cnt } =
      wordBytes inode.inodeIdx ++ (wordBytes cnt ++ rest) := by
    rw [hrest]
    simp only [SlfsInode.toBytes, List.append_assoc]
  intro x hx
  have hover : put (put m (inodeAddr i) (wordBytes inode.inodeIdx ++ (wordBytes inode.updateCnt ++ rest)))
      (inodeAddr i + 4) (wordBytes cnt) = _ := put_overwrite rfl rfl
  rw [hclosed, ← hover, ← hbytes]
  exact put_congr fun _ => h x hx

/-- What a write leaves on the way: `needed + 1` devices while the blocks are linked, one when they are, one
with the inode written once, and then devices with the whole inode but for the update count. -/
structure Staged (w w' : Fs) (i needed : ℕ) (uninit : Uninit) (pf : SlfsFile) (alloc later : List Mem)
    (linked first : Mem) : Prop where
  past : w'.past = later ++ first :: linked :: (alloc ++ w.past)
  file : w'.file = pf
  length : alloc.length = needed + 1
  opened : ∀ m ∈ alloc, OnlyOpened w.mem m i pf.fileSize
  linked : OnlyOpened w.mem linked i pf.fileSize
  first : SlotIs w.mem first i (firstInode uninit pf)
  later : ∀ m ∈ later, SlotIs w.mem m i (fullInode uninit pf)

theorem namedBlks_outside {x : ℕ} (hi : i < inodeMaxCnt) (hqs : Apart p qs) (hx : ramdiskSize ≤ x) :
    namedBlks m i pf uninit p qs x = m x := by
  have hslot : inodeAddr i + 56 < ramdiskPageSize := inodeAddr_lt hi
  have hpage : ramdiskPageSize ≤ ramdiskSize := by decide
  have htail : ∀ q ∈ p :: qs, x < q + 504 ∨ q + 512 ≤ x := fun q hq =>
    Or.inr ((hqs.inside q hq).2.trans hx)
  rw [namedBlks, put_of_ge (by rw [toBytes_length]; omega), put_of_ge (by rw [toBytes_length]; omega),
    linkedBlks, linkTails_of_notMem htail, put_of_ge]
  rw [List.length_append, wordBytes_length, wordBytes_length]
  omega

theorem linkedBlks_opened (hi : i < inodeMaxCnt) (hqs : Apart p qs) (hsize : pf.fileSize < Word.size) :
    OnlyOpened m (linkedBlks m i pf p qs) i pf.fileSize :=
  OnlyOpened.linkTails (onlyOpened_put hsize) hi fun q hq => (hqs.inside q hq).1

/-- The last stage: data goes into the chain, and the update count is recorded if that works. -/
theorem writeData_staged {pbuf : Mem} {prev : SlfsFile} {len : ℕ} {r : EStateM.Result FsErr Fs Unit}
    (hrun : (writeData pbuf prev len uninit >>= fun _ => writeUpdateCnt) w = r) (hi : pf.inodeIdx = i)
    (hlt : i < inodeMaxCnt) (hqs : Apart p qs) (hw : Filling w.mem pf p qs w)
    (hword : qs.length + 1 < Word.size) (haddr : pf.datablkAddr = p)
    (hnum : pf.allocedblkNum = qs.length + 1) (h0 : 0 < len) (hfit : Fits prev len (qs.length + 1))
    {inode : SlfsInode} (hslot : SlotIs m w.mem i inode) : ∃ later,
      (stateAfter r).past = later ++ w.past ∧ (stateAfter r).file = pf ∧
      (∀ m' ∈ later, SlotIs m m' i inode) ∧
      (succeeded r ↔ (prev.fileSize ≠ 0 → Readable w.mem prev.allocedblkNum prev.datablkAddr)) ∧
      SlotIs m (stateAfter r).mem i
        (if succeeded r then { inode with updateCnt := pf.updateCnt } else inode) := by
  obtain ⟨hdata, ⟨l, hl, hlater⟩, -⟩ := writeData_stays hqs hword haddr
    hnum hfit w hw
  have hok : succeeded (writeData pbuf prev len uninit w) ↔ _ :=
    writeData_succeeded hqs hword haddr hnum h0 hfit hw
  have hpage {u : Fs} (hu : Filling w.mem pf p qs u) : SlotIs m u.mem i inode := hslot.congr hu.page
  have hlater' : ∀ m' ∈ l, SlotIs m m' i inode := fun m' hm => by
    obtain ⟨u, hu, rfl⟩ := hlater m' hm
    exact hpage hu
  cases hd : writeData pbuf prev len uninit w with
  | error e u =>
      rw [hd] at hdata hl hok
      rw [bind_error hd] at hrun
      subst hrun
      exact ⟨l, hl, hdata.file, hlater', hok, hpage hdata⟩
  | ok a u =>
      rw [hd] at hdata hl hok
      have hu : Filling w.mem pf p qs u := hdata
      have hidx : u.file.inodeIdx = i := by rw [hu.file, hi]
      obtain ⟨v, hcnt, hmem, hfile, hpast⟩ := writeUpdateCnt_of_lt (w := u) (hidx ▸ hlt)
      rw [bind_ok hd, hcnt] at hrun
      subst hrun
      refine ⟨u.mem :: l, hpast.trans (congrArg (u.mem :: ·) hl), hfile.trans hu.file, fun m' hm => ?_, hok, ?_⟩
      · rcases List.mem_cons.mp hm with rfl | hm
        · exact hpage hu
        · exact hlater' m' hm
      · change SlotIs m v.mem i _
        rw [hmem, hidx, hu.file]
        exact (hpage hu).close

/-- The handle once the write has its inode and `needed` blocks from `p` on. -/
def grownFile (pf : SlfsFile) (len i p needed : ℕ) : SlfsFile :=
  takenFile { pf with fileSize := grownSize pf len } i p needed

def blksFor (pf : SlfsFile) (len : ℕ) : ℕ := (grownSize pf len + 503) / 504

/-- A write for which an inode and blocks are there, on a handle at a position in the file. -/
structure Affordable (m : Mem) (pf : SlfsFile) (len i needed : ℕ) : Prop where
  isOpen : pf.openCnt ≠ 0
  nonempty : 0 < len
  inode : freeInode m = some i
  count : (grownSize pf len + 503) / 504 = needed
  blks : needed ≤ (freeBlks m datablkStart datablkMaxCnt).length
  size : 0 < grownSize pf len
  fits : u32 (pf.pos + len) ≤ grownSize pf len

variable {pbuf : Mem} {len needed : ℕ}

/-- The write reaches the last stage. -/
theorem Affordable.run (h : Affordable w.mem w.file len i needed) (pbuf : Mem) (uninit : Uninit) : ∃ p qs w₁ alloc,
    takenBlks w.mem needed = p :: qs ∧ qs.length + 1 = needed ∧ Apart p qs ∧
    slfsWrite pbuf len uninit w = (writeData pbuf w.file len uninit >>= fun _ => writeUpdateCnt) w₁ ∧
    w₁.mem = namedBlks w.mem i (grownFile w.file len i p needed) uninit p qs ∧
    w₁.file = grownFile w.file len i p needed ∧
    w₁.past = put (linkedBlks w.mem i (grownFile w.file len i p needed) p qs) (inodeAddr i)
      (firstInode uninit (grownFile w.file len i p needed)).toBytes ::
        linkedBlks w.mem i (grownFile w.file len i p needed) p qs :: (alloc ++ w.past) ∧
    alloc.length = needed + 1 ∧
    ∀ m ∈ alloc, OnlyOpened w.mem m i (grownFile w.file len i p needed).fileSize := by
  have hdiv := h.count
  have hsize := h.size
  obtain ⟨p, qs, htaken, hqs⟩ := takenBlks_eq_cons (by omega) h.blks
  have hapart : Apart p qs := ⟨htaken ▸ takenBlks_pairwise w.mem needed, fun q hq =>
    mem_takenBlks (m := w.mem) (htaken ▸ hq)⟩
  obtain ⟨u, hu⟩ : ∃ u, u = { w with file := { w.file with fileSize := grownSize w.file len } } := ⟨_, rfl⟩
  have humem : u.mem = w.mem := by rw [hu]
  have hufile : u.file = { w.file with fileSize := grownSize w.file len } := by rw [hu]
  have hupast : u.past = w.past := by rw [hu]
  have hrun : slfsWrite pbuf len uninit w = (takeInode uninit >>= fun _ => takeDatablks len uninit >>=
      fun _ => writeInode uninit >>= fun _ => writeData pbuf w.file len uninit >>= fun _ => writeUpdateCnt) u := by
    rw [hu, slfsWrite_eq h.isOpen h.nonempty, writeData]
    split <;> rfl
  obtain ⟨w₁, htake, hmem, hfile, alloc, hpast, halloc, hopened⟩ := takeAll_run (w := u)
    (i := i) len uninit (writeData pbuf w.file len uninit >>= fun _ => writeUpdateCnt)
    (by rw [hufile]; exact h.fits) (by rw [hufile]; exact h.size) (humem ▸ h.inode)
    (by rw [hufile]; exact h.count) (humem ▸ htaken) hqs
  rw [hufile, humem] at hmem hpast
  rw [hufile] at hfile
  rw [hupast] at hpast
  rw [humem, hufile] at hopened
  refine ⟨p, qs, w₁, alloc, htaken, hqs, hapart, hrun.trans htake, ?_, ?_, ?_, halloc, hopened⟩
  · rw [grownFile]
    exact hmem
  · rw [grownFile]
    exact hfile
  · rw [grownFile]
    exact hpast

theorem Affordable.needed_lt (h : Affordable m pf len i needed) : needed < Word.size := by
  have hle := h.blks.trans (freeBlks_length_le m datablkStart datablkMaxCnt)
  have hmax : datablkMaxCnt = 8184 := by decide
  rw [hmax] at hle
  unfold Word.size
  omega

theorem Affordable.grown_lt (h : Affordable m pf len i needed) : grownSize pf len < minusOne := by
  have hle := h.blks.trans (freeBlks_length_le m datablkStart datablkMaxCnt)
  have hmax : datablkMaxCnt = 8184 := by decide
  have hcount := h.count
  rw [hmax] at hle
  simp only [minusOne]
  omega

theorem Affordable.staged (h : Affordable w.mem w.file len i needed) (hfit : Fits w.file len needed)
    {r : EStateM.Result FsErr Fs Unit} (hr : slfsWrite pbuf len uninit w = r) :
    ∃ p alloc later linked first pf, pf = grownFile w.file len i p needed ∧
      Staged w (stateAfter r) i needed uninit pf alloc later linked first ∧
      (succeeded r ↔ (w.file.fileSize ≠ 0 → Readable w.mem w.file.allocedblkNum w.file.datablkAddr)) ∧
      SlotIs w.mem (stateAfter r).mem i (if succeeded r then
        { fullInode uninit pf with updateCnt := pf.updateCnt } else fullInode uninit pf) := by
  have hlt := freeInode_lt h.inode
  obtain ⟨p, qs, w₁, alloc, _, hqs, hapart, hrun, hmem, hfile, hpast, halloc, hopened⟩ :=
    h.run pbuf uninit
  have hword := h.needed_lt
  have haddr : (grownFile w.file len i p needed).datablkAddr = p := rfl
  have hnum : (grownFile w.file len i p needed).allocedblkNum = needed := rfl
  have hidx : (grownFile w.file len i p needed).inodeIdx = i := rfl
  obtain ⟨pf, hpf⟩ : ∃ pf, pf = grownFile w.file len i p needed := ⟨_, rfl⟩
  have hsize : (grownFile w.file len i p needed).fileSize < Word.size := h.grown_lt.trans (by decide)
  rw [← hpf] at hmem hfile hpast hopened haddr hnum hidx hsize
  have hlinked := linkedBlks_opened (m := w.mem) (i := i) hlt hapart hsize
  have hnamed : SlotIs w.mem w₁.mem i (fullInode uninit pf) := by
    rw [hmem]
    exact hlinked.slotIs.rewrite
  have hfill : Filling w₁.mem pf p qs w₁ :=
    ⟨fun _ _ => rfl, fun _ _ => rfl, fun _ _ => rfl, hmem ▸ namedBlks_chain hlt hapart.pairwise hapart.inside, hfile⟩
  have hout : ∀ x, ramdiskSize ≤ x → w₁.mem x = w.mem x := fun x hx => by
    rw [hmem]
    exact namedBlks_outside hlt hapart hx
  obtain ⟨later, hpast', hfile', hlater, hok, hslot⟩ := writeData_staged (hrun.symm.trans hr) hidx hlt hapart
    hfill (hqs ▸ hword) haddr (hnum.trans hqs.symm) h.nonempty (hqs.symm ▸ hfit) hnamed
  rw [Readable.congr hout] at hok
  have hfirst : SlotIs w.mem (put (linkedBlks w.mem i pf p qs) (inodeAddr i) (firstInode uninit pf).toBytes) i
      (firstInode uninit pf) := hlinked.slotIs
  exact ⟨p, alloc, later, _, _, pf, hpf, ⟨hpast ▸ hpast', hfile', halloc, hopened, hlinked, hfirst,
    hlater⟩, hok, hslot⟩

end Slos.Slfs
