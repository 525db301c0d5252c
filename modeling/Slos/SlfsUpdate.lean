import Slos.SlfsOpen
import Slos.SlfsPhases

/-!
# Updating a file

The second write of a file: the blocks of the previous version are copied with the buffer spliced in, and
what is left of the buffer is appended. The result is described for a buffer that starts in the first block
and reaches the last block copied.
-/

namespace Slos.Slfs
open Word ByteMemory Ramdisk ScatterGather

variable {m T : Mem} {p i n k b : ℕ} {qs : List ℕ} {w : Fs} {pf : SlfsFile} {uninit : Uninit} {pbuf : Mem}
  {st : CopyState}

/-- A block with the buffer spliced in: what stands before the position, the part of the buffer, and erased
bytes to the end of the block. -/
theorem spliceBlk_eq (pbuf data : Mem) (h0 : 0 < st.bytesWrite) (hpos : st.pos < 504) :
    bytes (spliceBlk pbuf data st).1 0 504 = bytes data 0 st.pos ++
        bytes pbuf st.bufPos (min (504 - st.pos) st.bytesWrite) ++
        List.replicate (504 - (st.pos + st.bytesWrite)) 0xFF ∧
      (spliceBlk pbuf data st).2 =
        { st with
          pos := 0
          bufPos := u32 (st.bufPos + min (504 - st.pos) st.bytesWrite)
          bytesWrite := st.bytesWrite - min (504 - st.pos) st.bytesWrite
          len := min (504 - st.pos) st.bytesWrite } := by
  have hcond : st.bytesWrite > 0 ∧ st.pos < datablkPayloadSize := ⟨h0, hpos⟩
  obtain ⟨len, hlen⟩ : ∃ len, min (504 - st.pos) st.bytesWrite = len := ⟨_, rfl⟩
  have hroom : (if datablkPayloadSize - st.pos < st.bytesWrite then datablkPayloadSize - st.pos
      else st.bytesWrite) = len := by
    rw [← hlen]
    change (if 504 - st.pos < st.bytesWrite then 504 - st.pos else st.bytesWrite) = _
    split <;> omega
  have hput : bytes (put data st.pos (bytes pbuf st.bufPos len)) 0 (st.pos + len) =
      bytes data 0 st.pos ++ bytes pbuf st.bufPos len := by
    have hend : bytes (put data (0 + st.pos) (bytes pbuf st.bufPos len)) 0 (st.pos + len) = _ :=
      bytes_put_end (by rw [bytes_length])
    rwa [Nat.zero_add] at hend
  rw [spliceBlk, if_pos hcond]
  simp only [hroom]
  rw [hlen]
  constructor
  · by_cases hmore : st.bytesWrite > len
    · have hfull : st.pos + len = 504 := by omega
      have hnone : 504 - (st.pos + st.bytesWrite) = 0 := by omega
      rw [if_pos hmore, hnone, List.replicate_zero, List.append_nil, ← hput, hfull]
    · have hall : len = st.bytesWrite := by omega
      have hend : bytes (put (put data st.pos (bytes pbuf st.bufPos len)) (0 + (st.pos + len))
          (List.replicate (504 - (st.pos + len)) 0xFF)) 0 504 = _ :=
        bytes_put_end (by rw [List.length_replicate]; omega)
      rw [Nat.zero_add, hput] at hend
      rw [if_neg hmore, ← hall]
      exact hend
  · have hleft : (if st.bytesWrite > len then st.bytesWrite - len else 0) = st.bytesWrite - len := by
      split <;> omega
    rw [hleft]

/-- A block before the position is copied as it is. -/
theorem spliceBlk_before (pbuf data : Mem) (hpos : 504 ≤ st.pos) (hlt : st.pos < Word.size) :
    spliceBlk pbuf data st = (data, { st with pos := st.pos - 504 }) := by
  have hcond : ¬ (st.bytesWrite > 0 ∧ st.pos < datablkPayloadSize) := fun h =>
    Nat.not_lt.mpr hpos h.2
  have hsub : usub st.pos datablkPayloadSize = st.pos - 504 := usub_of_le hlt hpos
  rw [spliceBlk, if_neg hcond, hsub]

theorem copyBlks_ok {w' : Fs} {st' : CopyState} (hrun : copyBlks pbuf (n + 1) st w = .ok st' w') :
    ∃ data, readOrErr st.datablkAddrPrev datablkPayloadSize w = .ok data w := by
  rw [copyBlks] at hrun
  obtain ⟨data, u, hread, -⟩ := bind_eq_ok hrun
  obtain rfl := (readOrErr_readOnly _ _).ok hread
  exact ⟨data, hread⟩

/-- The copies of `n` blocks and what is appended behind them, `d` blocks at most. -/
def copyRest (pbuf : Mem) (n d : ℕ) (st : CopyState) : FsM Unit :=
  copyBlks pbuf n st >>= fun st =>
    if st.bytesWrite > 0 then appendBlks pbuf d 0 st.datablkAddr st.bytesWrite st.bytesWritten else pure ()

/-- The buffer starts in the next block to be copied, reaches the last one and ends in the block behind it. -/
structure Reaches (st : CopyState) (n d : ℕ) : Prop where
  start : st.pos < 504
  atEnd : n = 0 → st.pos = 0
  left : 0 < n → 0 < st.bytesWrite
  last : 504 * (n - 1) < st.pos + st.bytesWrite ∨ n = 0
  behind : st.pos + st.bytesWrite ≤ 504 * (n + 1)
  room : 504 * n < st.pos + st.bytesWrite → 0 < d
  written : 504 * n < st.pos + st.bytesWrite → st.bytesWritten = st.bufPos
  buf : st.bufPos + st.bytesWrite < Word.size
  prev : 0 < st.pos → st.datablkAddrPrev + 504 ≤ ramdiskSize

/-- What the blocks behind the copied ones hold in the end. -/
def restBytes (m pbuf : Mem) (n : ℕ) (st : CopyState) : List UInt8 :=
  bytes m st.datablkAddrPrev st.pos ++ bytes pbuf st.bufPos st.bytesWrite ++
    List.replicate (504 * n - (st.pos + st.bytesWrite)) 0xFF

theorem drop_eq_cons {α : Type} {l : List α} {a : α} (h : l[i]? = some a) :
    l.drop i = a :: l.drop (i + 1) := by
  obtain ⟨hlt, rfl⟩ := List.getElem?_eq_some_iff.mp h
  exact List.drop_eq_getElem_cons hlt

theorem appendBlks_last {d r : ℕ} (hd : 0 < d) (hr : r + 512 ≤ ramdiskSize) (hk : k ≤ 504) (hb : b < Word.size) :
    appendBlks pbuf d 0 r k b w = .ok () (w.store (put w.mem r (bytes pbuf b k))) := by
  obtain ⟨d, rfl⟩ := Nat.exists_eq_succ_of_ne_zero hd.ne'
  have hlen : (if k < datablkPayloadSize then k else datablkPayloadSize) = k := by
    change (if k < 504 then k else 504) = k
    split <;> omega
  have hwrite : writeOrErr r (bytes pbuf b k) w = .ok () _ := writeOrErr_of_le (by rw [bytes_length]; omega)
  have hoff : u32 (b + 0 * datablkPayloadSize) = b := by rw [Nat.zero_mul, Nat.add_zero, u32_of_lt hb]
  rw [appendBlks, hlen, hoff, bind_ok hwrite, Nat.sub_self, if_pos rfl]
  rfl

theorem copyRest_zero {d : ℕ} {w' : Fs} (hqs : Apart p qs)
    (hr : i < qs.length + 1 → (p :: qs)[i]? = some st.datablkAddr) (hn : i + d = qs.length + 1)
    (hst : Reaches st 0 d) (hrun : copyRest pbuf 0 d st w = .ok () w') :
    w'.mem = scatter 504 w.mem ((p :: qs).drop i) (restBytes w.mem pbuf 0 st) := by
  have hbytes : restBytes w.mem pbuf 0 st = bytes pbuf st.bufPos st.bytesWrite := by
    rw [restBytes, hst.atEnd rfl, Nat.mul_zero, Nat.zero_sub, List.replicate_zero, List.append_nil]
    rfl
  have hbehind := hst.behind
  change (if st.bytesWrite > 0 then appendBlks pbuf d 0 st.datablkAddr st.bytesWrite st.bytesWritten
    else pure ()) w = .ok () w' at hrun
  by_cases h0 : st.bytesWrite > 0
  · have hmore : 504 * 0 < st.pos + st.bytesWrite := by omega
    have hd := hst.room hmore
    have hget := hr (by omega)
    have hbuf := hst.buf
    rw [if_pos h0, hst.written hmore, appendBlks_last hd (hqs.inside _ (List.mem_of_getElem? hget)).2
      (by omega) (by omega)] at hrun
    cases hrun
    have hfull : (bytes pbuf st.bufPos st.bytesWrite).length ≤ 504 := by
      rw [bytes_length]
      omega
    rw [drop_eq_cons hget, hbytes, scatter, List.take_of_length_le hfull, List.drop_eq_nil_of_le hfull,
      scatter_nil, store_mem]
  · rw [if_neg h0] at hrun
    cases hrun
    rw [hbytes, Nat.eq_zero_of_not_pos h0]
    exact scatter_nil.symm

/-- The first block of the rest is what is spliced into it. -/
theorem restBytes_succ {data : Mem} (m' pbuf : Mem) (st' : CopyState) (hst : st.pos < 504)
    (hlast : 504 * n < st.pos + st.bytesWrite)
    (hdata : bytes data 0 st.pos = bytes m st.datablkAddrPrev st.pos)
    (hpos : st'.pos = 0) (hbuf : st'.bufPos = st.bufPos + min (504 - st.pos) st.bytesWrite)
    (hleft : st'.bytesWrite = st.bytesWrite - min (504 - st.pos) st.bytesWrite) :
    restBytes m pbuf (n + 1) st = (bytes data 0 st.pos ++
      bytes pbuf st.bufPos (min (504 - st.pos) st.bytesWrite) ++
      List.replicate (504 - (st.pos + st.bytesWrite)) 0xFF) ++ restBytes m' pbuf n st' := by
  have hrest : restBytes m' pbuf n st' = bytes pbuf (st.bufPos + min (504 - st.pos) st.bytesWrite)
      (st.bytesWrite - min (504 - st.pos) st.bytesWrite) ++
        List.replicate (504 * n - (st.bytesWrite - min (504 - st.pos) st.bytesWrite)) 0xFF := by
    rw [restBytes, hpos, hbuf, hleft, Nat.zero_add]
    rfl
  rw [restBytes, hrest, hdata]
  rcases le_total (504 - st.pos) st.bytesWrite with hle | hle
  · obtain ⟨k, hk⟩ := Nat.exists_eq_add_of_le hle
    have hnone : 504 - (st.pos + st.bytesWrite) = 0 := by omega
    have hpad : 504 * (n + 1) - (st.pos + st.bytesWrite) = 504 * n - k := by
      rw [Nat.mul_succ]
      omega
    rw [min_eq_left hle, hnone, hpad, List.replicate_zero, List.append_nil, hk, Nat.add_sub_cancel_left,
      bytes_append]
    simp only [List.append_assoc]
  · have hzero : n = 0 := by omega
    subst hzero
    rw [min_eq_right hle, Nat.sub_self, Nat.mul_zero, Nat.zero_sub, List.replicate_zero, List.append_nil]
    exact (List.append_nil _).symm

/-- The state behind a block that part of the buffer went into. -/
def spliced (st : CopyState) (prev next : ℕ) : CopyState where
  datablkAddrPrev := prev
  datablkAddr := next
  pos := 0
  bufPos := u32 (st.bufPos + min (504 - st.pos) st.bytesWrite)
  bytesWrite := st.bytesWrite - min (504 - st.pos) st.bytesWrite
  bytesWritten := u32 (st.bytesWritten + min (504 - st.pos) st.bytesWrite)
  len := min (504 - st.pos) st.bytesWrite

theorem Reaches.next {d prev next : ℕ} (h : Reaches st (n + 1) d) : Reaches (spliced st prev next) n d := by
  have hstart := h.start
  have hleft := h.left n.succ_pos
  have hlast : 504 * n < st.pos + st.bytesWrite := h.last.resolve_right n.succ_ne_zero
  have hbehind := h.behind
  rw [Nat.mul_succ, Nat.mul_succ] at hbehind
  have hbuf := h.buf
  have hu32 : u32 (st.bufPos + min (504 - st.pos) st.bytesWrite) =
      st.bufPos + min (504 - st.pos) st.bytesWrite := u32_of_lt (by omega)
  have hmore (hn : 504 * n < 0 + (st.bytesWrite - min (504 - st.pos) st.bytesWrite)) :
      504 * (n + 1) < st.pos + st.bytesWrite := by
    rw [Nat.mul_succ]
    omega
  refine ⟨Nat.zero_lt_succ 503, fun _ => rfl, fun hn => ?_, ?_, ?_, fun hn => h.room (hmore hn), fun hn => ?_, ?_,
    fun hp => absurd hp (lt_irrefl 0)⟩
  · obtain ⟨n, rfl⟩ := Nat.exists_eq_succ_of_ne_zero hn.ne'
    rw [Nat.mul_succ] at hlast
    dsimp only [spliced]
    omega
  · cases n with
    | zero => exact Or.inr rfl
    | succ n =>
        rw [Nat.mul_succ] at hlast
        refine Or.inl ?_
        dsimp only [spliced]
        rw [Nat.add_sub_cancel]
        omega
  · rw [Nat.mul_succ]
    dsimp only [spliced]
    omega
  · dsimp only [spliced] at hn ⊢
    rw [h.written (hmore hn)]
  · dsimp only [spliced]
    rw [hu32]
    omega

theorem bytes_of_read {a len k : ℕ} {data : Mem} (hread : readOrErr a len w = .ok data w) (hk : k ≤ len)
    (ha : 0 < k → a + len ≤ ramdiskSize) : bytes data 0 k = bytes w.mem a k := by
  rcases Nat.eq_zero_or_pos k with rfl | h0
  · rfl
  · rw [readOrErr_of_le (ha h0)] at hread
    cases hread
    rw [← take_bytes hk, bytes_ofBytes bytes_length, take_bytes hk]

/-- The data reaches the chain block by block. -/
theorem copyRest_mem {d : ℕ} {w' : Fs} (hqs : Apart p qs) (hw : Filling T pf p qs w)
    (hr : i < qs.length + 1 → (p :: qs)[i]? = some st.datablkAddr) (hn : i + n + d = qs.length + 1)
    (hst : Reaches st n d) (hrun : copyRest pbuf n d st w = .ok () w') :
    w'.mem = scatter 504 w.mem ((p :: qs).drop i) (restBytes w.mem pbuf n st) := by
  induction n generalizing i st w with
  | zero => exact copyRest_zero hqs hr hn hst hrun
  | succ n ih =>
      have hget := hr (by omega)
      have hlast : 504 * n < st.pos + st.bytesWrite := hst.last.resolve_right n.succ_ne_zero
      rw [copyRest] at hrun
      obtain ⟨st₁, u, hcopy, -⟩ := bind_eq_ok hrun
      obtain ⟨data, hread⟩ := copyBlks_ok hcopy
      obtain ⟨w₁, next, hstep, hmem, hw₁, hnext⟩ := copyBlks_step (n := n) hqs hw hget hread
      obtain ⟨hblk, hsplice⟩ := spliceBlk_eq pbuf data (hst.left n.succ_pos) hst.start
      rw [hsplice] at hstep
      have hrest : copyRest pbuf n d (spliced st
          (cpuWord w₁.mem (u32 (st.datablkAddrPrev + datablkTailOffLow))) next) w₁ = .ok () w' := by
        rw [copyRest, ← hrun]
        simp only [bind, EStateM.bind, hstep]
        rfl
      have hn' : i + 1 + n + d = qs.length + 1 := by omega
      have hdata := bytes_of_read hread hst.start.le hst.prev
      have hbuf := hst.buf
      have hbytes := restBytes_succ w₁.mem pbuf
        (spliced st (cpuWord w₁.mem (u32 (st.datablkAddrPrev + datablkTailOffLow))) next) hst.start hlast
        hdata rfl (u32_of_lt (by omega)) rfl
      rw [ih hw₁ (fun hi => hnext (Nat.lt_of_succ_lt_succ hi)) hn' hst.next hrest, drop_eq_cons hget, hbytes,
        ← hblk, scatter]
      have hlen : (bytes (spliceBlk pbuf data st).1 0 504).length = 504 := bytes_length
      rw [List.take_left' hlen, List.drop_left' hlen, hmem]
      rfl

/-- The buffer starts in the first block or, if the length on the stack does no harm, right behind it; it
reaches the last block the handle counts and goes at most one block further. -/
structure Reached (pf : SlfsFile) (len stackLen : ℕ) : Prop where
  start : pf.pos < 504 ∨
    pf.pos = 504 ∧ (pf.pos + len ≤ 504 * pf.allocedblkNum ∨ u32 stackLen = 0)
  last : 504 * (pf.allocedblkNum - 1) < pf.pos + len
  behind : pf.pos + len ≤ 504 * (pf.allocedblkNum + 1)

/-- The bytes of the new version. -/
def updatedBytes (m pbuf : Mem) (prev : SlfsFile) (len : ℕ) : List UInt8 :=
  bytes m prev.datablkAddr prev.pos ++ bytes pbuf 0 len ++
    List.replicate (504 * prev.allocedblkNum - (prev.pos + len)) 0xFF

variable {prev : SlfsFile} {len : ℕ}

def firstState (prev : SlfsFile) (p len stackLen : ℕ) : CopyState :=
  ⟨prev.datablkAddr, p, prev.pos, 0, len, 0, stackLen⟩

/-- The buffer starts right behind the first block, which is copied as it is. -/
theorem copyRest_behind {d a stackLen : ℕ} {w' : Fs} (hqs : Apart p qs) (hw : Filling T pf p qs w) (h0 : 0 < len)
    (hlen : len < Word.size) (hprev : prev.datablkAddr + 504 ≤ ramdiskSize) (hn : a + 1 + d = qs.length + 1)
    (hpos : prev.pos = 504) (hlast : 504 * a < 504 + len) (hbehind : len ≤ 504 * (a + 1))
    (hd : 504 * a < len → 0 < d) (hstack : 504 * a < len → u32 stackLen = 0)
    (hrun : copyRest pbuf (a + 1) d (firstState prev p len stackLen) w = .ok () w') :
    w'.mem = scatter 504 w.mem (p :: qs) (bytes w.mem prev.datablkAddr 504 ++ (bytes pbuf 0 len ++
      List.replicate (504 * a - len) 0xFF)) := by
  have hget : (p :: qs)[0]? = some (firstState prev p len stackLen).datablkAddr := rfl
  rw [copyRest] at hrun
  obtain ⟨st₁, u, hcopy, -⟩ := bind_eq_ok hrun
  obtain ⟨data, hread⟩ := copyBlks_ok hcopy
  obtain ⟨w₁, next, hstep, hmem, hw₁, hnext⟩ := copyBlks_step (n := a) hqs hw hget hread
  have hsplice : spliceBlk pbuf data (firstState prev p len stackLen) = _ :=
    spliceBlk_before pbuf data hpos.ge (hpos.trans_lt (by decide))
  rw [hsplice] at hstep hmem
  obtain ⟨st, hst⟩ : ∃ st : CopyState, st = ⟨cpuWord w₁.mem (u32 (prev.datablkAddr + datablkTailOffLow)), next, 0,
    0, len, u32 stackLen, stackLen⟩ := ⟨_, rfl⟩
  have hzero : prev.pos - 504 = 0 := by rw [hpos]
  have hnew : copyBlks pbuf (a + 1) (firstState prev p len stackLen) w = copyBlks pbuf a st w₁ := by
    rw [hstep, hst]
    simp only [firstState, hzero, Nat.zero_add]
  have hrest : copyRest pbuf a d st w₁ = .ok () w' := by
    rw [copyRest, ← hrun]
    simp only [bind, EStateM.bind, hnew]
  have hreach : Reaches st a d := by
    rw [hst]
    refine ⟨Nat.zero_lt_succ 503, fun _ => rfl, fun _ => h0, ?_, ?_, fun hm => hd ?_, fun hm => hstack ?_, ?_,
      fun hp => absurd hp (lt_irrefl 0)⟩
    · cases a with
      | zero => exact Or.inr rfl
      | succ a =>
          rw [Nat.mul_succ] at hlast
          refine Or.inl ?_
          rw [Nat.add_sub_cancel, Nat.zero_add]
          dsimp only
          omega
    · rwa [Nat.zero_add]
    · rwa [Nat.zero_add] at hm
    · rwa [Nat.zero_add] at hm
    · rwa [Nat.zero_add]
  have hdata := bytes_of_read hread le_rfl fun _ => hprev
  have hpay : bytes data 0 datablkPayloadSize = bytes w.mem prev.datablkAddr 504 := hdata
  rw [hpay] at hmem
  have hafter := copyRest_mem (i := 1) hqs hw₁ (fun hi => by rw [hst]; exact hnext (Nat.lt_of_succ_lt_succ hi))
    (by omega) hreach hrest
  have hbytes : restBytes w₁.mem pbuf a st = bytes pbuf 0 len ++ List.replicate (504 * a - len) 0xFF := by
    rw [restBytes, hst, Nat.zero_add]
    rfl
  have hfull : (bytes w.mem prev.datablkAddr 504).length = 504 := bytes_length
  rw [hafter, hbytes, hmem, scatter, List.take_left' hfull, List.drop_left' hfull]
  rfl

theorem copyRest_update {d : ℕ} {w' : Fs} (hqs : Apart p qs) (hw : Filling T pf p qs w) (h0 : 0 < len)
    (hlen : len < Word.size) (ha : 0 < prev.allocedblkNum) (hprev : prev.datablkAddr + 504 ≤ ramdiskSize)
    (hn : prev.allocedblkNum + d = qs.length + 1)
    (hd : 504 * prev.allocedblkNum < prev.pos + len → 0 < d) (hreach : Reached prev len uninit.len)
    (hrun : copyRest pbuf prev.allocedblkNum d (firstState prev p len uninit.len) w = .ok () w') :
    w'.mem = scatter 504 w.mem (p :: qs) (updatedBytes w.mem pbuf prev len) := by
  have hlast := hreach.last
  have hbehind := hreach.behind
  rcases hreach.start with hstart | ⟨hstart, hstack⟩
  · have hst : Reaches (firstState prev p len uninit.len) prev.allocedblkNum d := by
      refine ⟨hstart, fun hz => absurd hz ha.ne', fun _ => h0, Or.inl hlast, hbehind, hd, fun _ => rfl, ?_,
        fun _ => hprev⟩
      change 0 + len < Word.size
      rwa [Nat.zero_add]
    have hafter := copyRest_mem (i := 0) hqs hw (fun _ => rfl) (by rwa [Nat.zero_add]) hst hrun
    rw [restBytes] at hafter
    exact hafter
  · obtain ⟨a, hsucc⟩ := Nat.exists_eq_succ_of_ne_zero ha.ne'
    rw [hsucc] at hrun hlast hbehind hn hd hstack
    rw [hstart, Nat.succ_eq_add_one, Nat.mul_succ] at hd hstack hbehind
    rw [hstart, Nat.succ_eq_add_one, Nat.add_sub_cancel] at hlast
    have hafter := copyRest_behind hqs hw h0 hlen hprev hn hstart hlast (by omega) (fun hm => hd (by omega))
      (fun hm => hstack.resolve_left (by omega)) hrun
    have hpad : 504 * prev.allocedblkNum - (prev.pos + len) = 504 * a - len := by
      rw [hsucc, hstart, Nat.succ_eq_add_one, Nat.mul_succ]
      omega
    rw [hafter, updatedBytes, hpad, hstart, List.append_assoc]

/-- A handle on a file with a well-formed chain, at a position in the file. `slfs_open` counts at least its
blocks, the write that created it exactly them. -/
structure OldFile (m : Mem) (pf : SlfsFile) (qs : List ℕ) : Prop where
  isOpen : pf.openCnt ≠ 0
  chain : Chain m pf.datablkAddr qs
  aligned : ∀ q ∈ pf.datablkAddr :: qs, q ∈ blkAddrs datablkStart datablkMaxCnt
  size : 0 < pf.fileSize
  fits : pf.fileSize ≤ 504 * (qs.length + 1)
  counted : qs.length + 1 ≤ pf.allocedblkNum
  pos : pf.pos ≤ pf.fileSize

def contents (m : Mem) (pf : SlfsFile) (qs : List ℕ) : List UInt8 :=
  (gather m 504 (pf.datablkAddr :: qs)).take pf.fileSize

def newSize (pf : SlfsFile) (len : ℕ) : ℕ := max pf.fileSize (pf.pos + len)

variable {rs : List ℕ}

theorem OldFile.contents_length (h : OldFile m pf rs) : (contents m pf rs).length = pf.fileSize := by
  have hfits := h.fits
  rw [contents, List.length_take, length_gather, List.length_cons, min_eq_left hfits]

theorem OldFile.take_contents (h : OldFile m pf rs) (hpos : pf.pos ≤ 504) :
    (contents m pf rs).take pf.pos = bytes m pf.datablkAddr pf.pos := by
  rw [contents, List.take_take, min_eq_left h.pos, gather_cons,
    List.take_append_of_le_length (by rwa [bytes_length]), take_bytes hpos]

theorem OldFile.grown (h : OldFile m pf rs) (len : ℕ) (hlt : newSize pf len < Word.size) :
    grownSize pf len = newSize pf len := by
  have hend : pf.pos + len < Word.size := (le_max_right ..).trans_lt hlt
  rw [grownSize, if_neg h.size.ne', u32_of_lt hend, newSize]
  split <;> omega

/-- The bytes written begin with the contents the update is to have. -/
theorem updatedBytes_take (h : OldFile m pf rs) (hpos : pf.pos ≤ 504)
    (hrest : ∀ b ∈ (contents m pf rs).drop (pf.pos + len), b = 0xFF) :
    (updatedBytes m pbuf pf len).take (newSize pf len) =
      (contents m pf rs).take pf.pos ++ bytes pbuf 0 len ++ (contents m pf rs).drop (pf.pos + len) := by
  have hdrop : (contents m pf rs).drop (pf.pos + len) =
      List.replicate (pf.fileSize - (pf.pos + len)) 0xFF := by
    rw [← h.contents_length, ← List.length_drop]
    exact List.eq_replicate_of_mem hrest
  have hfits := h.fits
  have hcounted := Nat.mul_le_mul_left 504 h.counted
  have hhead : (bytes m pf.datablkAddr pf.pos ++ bytes pbuf 0 len).length = pf.pos + len := by
    rw [List.length_append, bytes_length, bytes_length]
  have hmin : min (newSize pf len - (pf.pos + len)) (504 * pf.allocedblkNum - (pf.pos + len)) =
      pf.fileSize - (pf.pos + len) := by
    rw [newSize]
    omega
  rw [h.take_contents hpos, hdrop, updatedBytes, List.take_append,
    List.take_of_length_le (by rw [hhead]; exact le_max_right ..), hhead, List.take_replicate, hmin]

theorem OldFile.fileSize_le (h : OldFile m pf rs) : pf.fileSize ≤ 504 * pf.allocedblkNum :=
  h.fits.trans (Nat.mul_le_mul_left 504 h.counted)

theorem updatedBytes_length : (updatedBytes m pbuf prev len).length = max (prev.pos + len) (504 * prev.allocedblkNum) := by
  rw [updatedBytes, List.length_append, List.length_append, bytes_length, bytes_length, List.length_replicate]
  omega

/-- The blocks taken for the new version lie apart from the old ones. -/
theorem OldFile.namedBlks_bytes {pf' : SlfsFile} (h : OldFile m pf rs) (hi : i < inodeMaxCnt)
    (htaken : ∀ q ∈ p :: qs, q ∈ freeBlks m datablkStart datablkMaxCnt) (hk : k ≤ 504) :
    bytes (namedBlks m i pf' uninit p qs) pf.datablkAddr k = bytes m pf.datablkAddr k := by
  have hslot := inodeAddr_lt hi
  have hold := h.aligned _ List.mem_cons_self
  have hlo : ramdiskPageSize ≤ pf.datablkAddr := (mem_blkAddrs hold).1
  refine bytes_congr fun x hx hend => ?_
  have htails : ∀ q ∈ p :: qs, x < q + 504 ∨ q + 512 ≤ x := fun q hq => by
    rcases apart_of_pairwise (blkAddrs_pairwise ..) hold (mem_blkAddrs_of_mem_freeBlks (htaken q hq)) with
      heq | hlt | hlt
    · exact absurd (mem_freeBlks (htaken q hq)).2.2 (heq ▸ h.chain.not_free _ List.mem_cons_self)
    · omega
    · omega
  rw [namedBlks, put_of_ge (by rw [toBytes_length]; omega), put_of_ge (by rw [toBytes_length]; omega),
    linkedBlks, linkTails_of_notMem htails, put_of_ge]
  rw [List.length_append, wordBytes_length, wordBytes_length]
  omega

theorem OldFile.affordable {needed : ℕ} (h : OldFile m pf rs) (hinode : freeInode m = some i)
    (hcount : (newSize pf len + 503) / 504 = needed)
    (hblks : needed ≤ (freeBlks m datablkStart datablkMaxCnt).length) (h0 : 0 < len) :
    Affordable m pf len i needed := by
  have hmax : datablkMaxCnt = 8184 := by decide
  have hle := hblks.trans (freeBlks_length_le m datablkStart datablkMaxCnt)
  rw [hmax] at hle
  have hgrown := h.grown len (by unfold Word.size; omega)
  have hsize := h.size
  have hnew : pf.fileSize ≤ newSize pf len ∧ pf.pos + len ≤ newSize pf len := ⟨le_max_left .., le_max_right ..⟩
  have hend : pf.pos + len < Word.size := by unfold Word.size; omega
  exact ⟨h.isOpen, h0, hinode, hgrown.symm ▸ hcount, hblks, by omega, by rw [u32_of_lt hend]; omega⟩

/-- What the write of an update leaves, if it returns. -/
theorem slfsWrite_update {needed : ℕ} {w' : Fs} (h : OldFile w.mem w.file rs)
    (hinode : freeInode w.mem = some i) (hcount : (newSize w.file len + 503) / 504 = needed)
    (hblks : needed ≤ (freeBlks w.mem datablkStart datablkMaxCnt).length) (h0 : 0 < len)
    (hreach : Reached w.file len uninit.len) (hrun : slfsWrite pbuf len uninit w = .ok () w') :
    ∃ p qs, takenBlks w.mem needed = p :: qs ∧ qs.length + 1 = needed ∧
      w'.file = grownFile w.file len i p needed ∧
      w'.mem = writtenNew w.mem i w'.file uninit p qs (updatedBytes w.mem pbuf w.file len) := by
  have hmax : datablkMaxCnt = 8184 := by decide
  have hle := hblks.trans (freeBlks_length_le w.mem datablkStart datablkMaxCnt)
  rw [hmax] at hle
  have hsize := h.size
  have hnew : w.file.fileSize ≤ newSize w.file len ∧ w.file.pos + len ≤ newSize w.file len :=
    ⟨le_max_left .., le_max_right ..⟩
  have hend : w.file.pos + len < Word.size := by unfold Word.size; omega
  have hafford : Affordable w.mem w.file len i needed := h.affordable hinode hcount hblks h0
  obtain ⟨p, qs, w₁, alloc, htaken, hqs, hapart, hsteps, hmem, hfile, -⟩ :=
    hafford.run pbuf uninit
  obtain ⟨pf, hpf⟩ : ∃ pf, pf = grownFile w.file len i p needed := ⟨_, rfl⟩
  rw [← hpf] at hmem hfile
  have hlt := freeInode_lt hinode
  have hfill : Filling w₁.mem pf p qs w₁ :=
    ⟨fun _ _ => rfl, fun _ _ => rfl, fun _ _ => rfl, hmem ▸ namedBlks_chain hlt hapart.pairwise hapart.inside, hfile⟩
  have hfree : ∀ q ∈ p :: qs, q ∈ freeBlks w.mem datablkStart datablkMaxCnt := fun q hq =>
    List.mem_of_mem_take (htaken ▸ hq : q ∈ takenBlks w.mem needed)
  have hcnt : 0 < w.file.allocedblkNum := Nat.zero_lt_of_lt h.counted
  have hlast := hreach.last
  have hfew : w.file.allocedblkNum ≤ needed := by omega
  have hword : needed < Word.size := hafford.needed_lt
  have hdata : writeData pbuf w.file len uninit w₁ = copyRest pbuf w.file.allocedblkNum
      (usub needed w.file.allocedblkNum) (firstState w.file p len uninit.len) w₁ := by
    rw [writeData, if_neg hsize.ne', writeUpdate, getFile_bind, hfile, hpf]
    rfl
  rw [hsteps] at hrun
  obtain ⟨_, u, hcopy, hclose⟩ := bind_eq_ok hrun
  have hstays : Stays (Filling w₁.mem pf p qs) (writeData pbuf w.file len uninit) _ :=
    writeData_stays hapart (hqs ▸ hword) (hpf ▸ rfl) (hpf ▸ hqs.symm)
      (Or.inr ⟨hsize.ne', hqs.symm ▸ hfew⟩)
  have hstay := (hstays w₁ hfill).1
  rw [hcopy] at hstay
  replace hstay : Filling w₁.mem pf p qs u := hstay
  rw [hdata, usub_of_le hword hfew] at hcopy
  have hroom : 504 * w.file.allocedblkNum < w.file.pos + len → 0 < needed - w.file.allocedblkNum := by
    intro hmore
    omega
  have hscatter := copyRest_update hapart hfill h0 (by omega) hcnt
    (by have hin := h.chain.head_le; simp only [ramdiskSize]; omega) (by omega) hroom hreach hcopy
  have hpos : w.file.pos ≤ 504 := by
    rcases hreach.start with hstart | hstart
    · exact hstart.le
    · exact hstart.1.le
  have hold : updatedBytes w₁.mem pbuf w.file len = updatedBytes w.mem pbuf w.file len := by
    rw [updatedBytes, updatedBytes, hmem, h.namedBlks_bytes hlt hfree hpos]
  have hidx : u.file.inodeIdx = i := by rw [hstay.file, hpf]; rfl
  obtain ⟨v, hv, hvmem, hvfile, -⟩ := writeUpdateCnt_of_lt (w := u) (hidx ▸ hlt)
  rw [hv] at hclose
  cases hclose
  refine ⟨p, qs, htaken, hqs, hvfile.trans (hstay.file.trans hpf), ?_⟩
  rw [hvmem, hvfile, hidx, hscatter, hold, hmem, hstay.file]
  rfl

/-- An update reads back as it should, and changes its inode slot and its blocks only. -/
theorem update_round_trip {needed : ℕ} {w' : Fs} (h : OldFile w.mem w.file rs)
    (hinode : freeInode w.mem = some i) (hcount : (newSize w.file len + 503) / 504 = needed)
    (hblks : needed ≤ (freeBlks w.mem datablkStart datablkMaxCnt).length) (h0 : 0 < len)
    (hreach : Reached w.file len uninit.len)
    (hrest : ∀ b ∈ (contents w.mem w.file rs).drop (w.file.pos + len), b = 0xFF)
    (hrun : slfsWrite pbuf len uninit w = .ok () w') :
    (∀ n, newSize w.file len ≤ n → n < Word.size → ∃ w'',
      (slfsSeek 0 .seekSet >>= fun _ => slfsRead n) w' = .ok () w'' ∧
        w''.buf = put w'.buf 0 ((contents w.mem w.file rs).take w.file.pos ++ bytes pbuf 0 len ++
          (contents w.mem w.file rs).drop (w.file.pos + len))) ∧
      ∀ x, x < inodeAddr i ∨ inodeAddr i + 56 ≤ x →
        (∀ q ∈ takenBlks w.mem needed, x < q ∨ q + 512 ≤ x) → w'.mem x = w.mem x := by
  obtain ⟨p, qs, htaken, hqs, hfile, hmem⟩ := slfsWrite_update h hinode hcount hblks h0 hreach hrun
  have hlt := freeInode_lt hinode
  have hpair : (p :: qs).Pairwise fun a b => a + 512 ≤ b := htaken ▸ takenBlks_pairwise w.mem needed
  have hin : ∀ q ∈ p :: qs, 4096 ≤ q ∧ q + 512 ≤ 0x400000 := fun q hq =>
    mem_takenBlks (m := w.mem) (htaken ▸ hq)
  refine ⟨fun n hn hword => ?_, fun x hx hq => ?_⟩
  · have hgrown := h.grown len (hn.trans_lt hword)
    have hpos' : w.file.pos ≤ 504 := by
      rcases hreach.start with hstart | hstart
      · exact hstart.le
      · exact hstart.1.le
    have hlast := hreach.last
    have hsize := h.size
    have hold := h.fileSize_le
    have hnew : newSize w.file len = max w.file.fileSize (w.file.pos + len) := rfl
    have hopen' : w'.file.openCnt ≠ 0 := by rw [hfile]; exact h.isOpen
    have hsize' : w'.file.fileSize = newSize w.file len := by rw [hfile, ← hgrown]; rfl
    have haddr' : w'.file.datablkAddr = p := by rw [hfile]; rfl
    have hlen : (updatedBytes w.mem pbuf w.file len).length ≤ 504 * (qs.length + 1) := by
      rw [updatedBytes_length]
      omega
    have hchain : Chain w'.mem w'.file.datablkAddr qs := by
      rw [haddr', hmem]
      exact writtenNew_chain hlt hpair hin
    have hgather : (gather (writtenNew w.mem i w'.file uninit p qs (updatedBytes w.mem pbuf w.file len)) 504
        (p :: qs)).take (updatedBytes w.mem pbuf w.file len).length = _ := writtenNew_gather hlt hpair hin hlen
    rw [← hmem] at hgather
    have hdata : (gather w'.mem 504 (p :: qs)).take (newSize w.file len) =
        (contents w.mem w.file rs).take w.file.pos ++ bytes pbuf 0 len ++
          (contents w.mem w.file rs).drop (w.file.pos + len) := by
      rw [← updatedBytes_take h hpos' hrest, ← hgather, List.take_take, min_eq_left]
      rw [updatedBytes_length]
      omega
    have hread := slfsRead_chain (w := { w' with file := { w'.file with pos := 0 } }) (n := n) hchain
      (by simp only [hsize']; omega) (by simp only [hsize']; omega) (Nat.zero_le _)
      (by rwa [Nat.zero_add])
    refine ⟨_, (bind_ok (slfsSeek_set hopen' (Nat.zero_le _))).trans hread, ?_⟩
    simp only [haddr', hsize', List.drop_zero, Nat.sub_zero, min_eq_right hn, hdata]
  · rw [hmem]
    exact writtenNew_of_notMem hx fun q hq' => hq q (htaken ▸ hq')

/-- The device and the handle of file `a` right after its first write, of `len` bytes. -/
def writtenFs (len : ℕ) : Fs :=
  stateAfter (slfsWrite (fun _ => 42) len zeroUninit (stateAfter (slfsOpen (letter 97) erasedFs)))

theorem writtenFs_fields {len : ℕ} (h : len = 1 ∨ len = 2) :
    (freeInode (writtenFs len).mem = some 1 ∧ FreeBlk (writtenFs len).mem 4608 ∧ word (writtenFs len).mem 4604 = 0) ∧
      ((writtenFs len).file.openCnt ≠ 0 ∧ (writtenFs len).file.datablkAddr = 4096 ∧ (writtenFs len).file.pos = 0) ∧
      (writtenFs len).file.fileSize = len ∧ (writtenFs len).file.allocedblkNum = 1 := by
  rcases h with rfl | rfl <;> decide +kernel

theorem writtenFs_old {len : ℕ} (h : len = 1 ∨ len = 2) : OldFile (writtenFs len).mem (writtenFs len).file [] := by
  obtain ⟨⟨-, -, hend⟩, ⟨hopen, haddr, hpos⟩, hsize, hnum⟩ := writtenFs_fields h
  constructor
  · exact hopen
  · constructor
    · rw [haddr]
      exact nextBlk_eq_none.mpr hend
    · intro q hq
      rw [List.mem_singleton.mp hq, haddr]
      decide
  · intro q hq
    rw [List.mem_singleton.mp hq, haddr]
    exact List.mem_cons_self
  · rw [hsize]
    omega
  · rw [hsize, List.length_nil]
    omega
  · exact hnum.ge
  · exact hpos.trans_le (Nat.zero_le _)

theorem writtenFs_blks {len : ℕ} (h : len = 1 ∨ len = 2) :
    1 ≤ (freeBlks (writtenFs len).mem datablkStart datablkMaxCnt).length := by
  obtain ⟨⟨-, hfree, -⟩, -⟩ := writtenFs_fields h
  have hmax : datablkMaxCnt = 8182 + 1 + 1 := rfl
  have hstart : datablkStart + datablkSize = 4608 := rfl
  rw [hmax, freeBlks_succ, hstart, freeBlks_succ, if_pos hfree]
  split
  · exact Nat.le_add_left 1 _
  · exact Nat.le_add_left 1 _

theorem update_round_trip_one_byte : ∃ w', slfsWrite (fun _ => 7) 1 zeroUninit (writtenFs 1) = .ok () w' ∧
    ∃ w'', (slfsSeek 0 .seekSet >>= fun _ => slfsRead 1) w' = .ok () w'' ∧ w''.buf = put w'.buf 0 [7] := by
  have hold : OldFile (writtenFs 1).mem (writtenFs 1).file [] := writtenFs_old (.inl rfl)
  obtain ⟨⟨hinode, -⟩, ⟨-, -, hpos⟩, hsize, hnum⟩ := writtenFs_fields (.inl rfl : 1 = 1 ∨ 1 = 2)
  have hwrite := eq_ok_of_succeeded (r := slfsWrite (fun _ => 7) 1 zeroUninit (writtenFs 1)) (by decide +kernel)
  have hnew : newSize (writtenFs 1).file 1 = 1 := by rw [newSize, hsize, hpos]; rfl
  have hreach : Reached (writtenFs 1).file 1 zeroUninit.len := by
    constructor
    · exact .inl (by rw [hpos]; decide)
    · rw [hnum, hpos]
      decide
    · rw [hnum, hpos]
      decide
  have hbehind : (contents (writtenFs 1).mem (writtenFs 1).file []).drop ((writtenFs 1).file.pos + 1) = [] := by
    apply List.drop_eq_nil_of_le
    rw [hold.contents_length, hsize, hpos]
  have hrest : ∀ b ∈ (contents (writtenFs 1).mem (writtenFs 1).file []).drop ((writtenFs 1).file.pos + 1), b = 0xFF := by
    intro b hb
    rw [hbehind] at hb
    cases hb
  obtain ⟨hread, -⟩ := update_round_trip hold hinode (by rw [hnew]) (writtenFs_blks (.inl rfl)) Nat.one_pos hreach hrest
    hwrite
  obtain ⟨w'', hrun, hbuf⟩ := hread 1 hnew.le (by decide)
  refine ⟨_, hwrite, w'', hrun, hbuf.trans ?_⟩
  rw [hbehind, hpos]
  rfl

/-- The byte behind the buffer is lost. -/
theorem update_erases_rest : ¬ ∀ (w w' : Fs) (rs : List ℕ) (pbuf : Mem) (len i : ℕ) (uninit : Uninit),
    OldFile w.mem w.file rs → freeInode w.mem = some i →
    (newSize w.file len + 503) / 504 ≤ (freeBlks w.mem datablkStart datablkMaxCnt).length → 0 < len →
    slfsWrite pbuf len uninit w = .ok () w' →
    ∃ w'', (slfsSeek 0 .seekSet >>= fun _ => slfsRead (newSize w.file len)) w' = .ok () w'' ∧
      w''.buf = put w'.buf 0 ((contents w.mem w.file rs).take w.file.pos ++ bytes pbuf 0 len ++
        (contents w.mem w.file rs).drop (w.file.pos + len)) := by
  intro h
  obtain ⟨⟨hinode, -⟩, ⟨-, -, hpos⟩, hsize, -⟩ := writtenFs_fields (.inr rfl : 2 = 1 ∨ 2 = 2)
  have hblks : (newSize (writtenFs 2).file 1 + 503) / 504 ≤
      (freeBlks (writtenFs 2).mem datablkStart datablkMaxCnt).length := by
    rw [newSize, hsize, hpos]
    exact writtenFs_blks (.inr rfl)
  obtain ⟨w'', hrun, hbuf⟩ := h (writtenFs 2) _ [] (fun _ => 7) 1 1 zeroUninit (writtenFs_old (.inr rfl)) hinode hblks
    Nat.one_pos (eq_ok_of_succeeded (by decide +kernel))
  have hlost : (stateAfter ((slfsSeek 0 .seekSet >>= fun _ => slfsRead (newSize (writtenFs 2).file 1))
      (stateAfter (slfsWrite (fun _ => 7) 1 zeroUninit (writtenFs 2))))).buf 1 = 0xFF := by decide +kernel
  rw [hrun] at hlost
  have hkept : w''.buf 1 = 42 := by
    rw [hbuf]
    decide +kernel
  exact absurd (hkept.symm.trans hlost) (by decide)

end Slos.Slfs
