import Mathlib.Data.List.Perm.Subperm
import Slos.Machine
import Slos.PosixFile
import Slos.SlfsUpdate

/-!
# The file system interface

`fs_read`, `fs_write` and `fs_seek` on a file of either back end. A littleFS file behaves like a file with a
position; an SLFS file does so for calls that keep away from the ends of its blocks and set the position
before each transfer.
-/

namespace Slos.FileSystem
open Word ByteMemory Ramdisk ScatterGather Slfs

section Calls

variable {φ : Type*}

/-- The calls of littleFS on an open file. A read and a write return a count or an error code. -/
structure LfsApi (φ : Type*) where
  fileRead : φ → ℕ → ℤ × List UInt8 × φ
  fileWrite : φ → List UInt8 → ℤ × φ
  fileSeek : φ → ℕ → SeekWhence → φ

/-- An open file of either type, and the buffer of the next read. -/
inductive FileT (φ : Type*)
  | slfs (w : Fs)
  | littlefs (f : φ) (buf : Mem)

def FileT.buf : FileT φ → Mem
  | .slfs w => w.buf
  | .littlefs _ buf => buf

/-- The distance of an error code from the last one of the C library. -/
def errCode : FsErr → Option ℕ
  | .io => some 1
  | .metadata => some 2
  | .noDatablk => some 3
  | .noInode => some 4
  | .param => some 5
  | .fileParam => some 6
  | .listBroken => some 9
  | .fileSize => some 10
  | .hang => none

/-- The status of an SLFS call, if it returns. -/
def slfsStatus (lastError : ℕ) : EStateM.Result FsErr Fs Unit → Option ℤ
  | .ok _ _ => some 0
  | .error e _ => (errCode e).map fun c => -((lastError + c : ℕ) : ℤ)

/-- The count is compared as a `size_t`. -/
def lfsStatus (ret : ℤ) (len : ℕ) : ℤ := if ret % (Word.size : ℤ) = len then 0 else -1

def fsRead (api : LfsApi φ) (lastError : ℕ) (fp : FileT φ) (len : ℕ) : Option ℤ × FileT φ :=
  match fp with
  | .slfs w => (slfsStatus lastError (slfsRead len w), .slfs (stateAfter (slfsRead len w)))
  | .littlefs f buf =>
      let (ret, bs, f) := api.fileRead f len
      (some (lfsStatus ret len), .littlefs f (put buf 0 bs))

def fsWrite (api : LfsApi φ) (lastError : ℕ) (fp : FileT φ) (pbuf : Mem) (len : ℕ) (uninit : Uninit) :
    Option ℤ × FileT φ :=
  match fp with
  | .slfs w => (slfsStatus lastError (slfsWrite pbuf len uninit w), .slfs (stateAfter (slfsWrite pbuf len uninit w)))
  | .littlefs f buf =>
      let (ret, f) := api.fileWrite f (bytes pbuf 0 len)
      (some (lfsStatus ret len), .littlefs f buf)

def fsSeek (api : LfsApi φ) (lastError : ℕ) (fp : FileT φ) (offset : ℕ) (whence : SeekWhence) :
    Option ℤ × FileT φ :=
  match fp with
  | .slfs w => (slfsStatus lastError (slfsSeek offset whence w), .slfs (stateAfter (slfsSeek offset whence w)))
  | .littlefs f buf => (some 0, .littlefs (api.fileSeek f offset whence) buf)

inductive FsCall
  | fsSeek (offset : ℕ)
  | fsRead (len : ℕ)
  | fsWrite (pbuf : Mem) (len : ℕ) (uninit : Uninit)

/-- What a call tells its caller: the status, and the bytes read. -/
structure Reply where
  status : Option ℤ
  data : List UInt8

def fsCall (api : LfsApi φ) (lastError : ℕ) (fp : FileT φ) : FsCall → Reply × FileT φ
  | .fsSeek offset =>
      let (status, fp) := fsSeek api lastError fp offset .seekSet
      (⟨status, []⟩, fp)
  | .fsRead len =>
      let (status, fp) := fsRead api lastError fp len
      (⟨status, bytes fp.buf 0 len⟩, fp)
  | .fsWrite pbuf len uninit =>
      let (status, fp) := fsWrite api lastError fp pbuf len uninit
      (⟨status, []⟩, fp)

/-- The same calls on a file with a position: a read succeeds if it delivers all bytes. -/
def posixCall (file : PosixFile UInt8) : FsCall → Reply × PosixFile UInt8
  | .fsSeek offset => (⟨some 0, []⟩, file.seek offset)
  | .fsRead len =>
      (⟨some (if (file.read len).length = len then 0 else -1), file.read len⟩, file.advance (file.read len).length)
  | .fsWrite pbuf len _ => (⟨some 0, []⟩, file.write (bytes pbuf 0 len))

/-- A file and the replies to the calls on it. -/
structure Session (σ : Type*) where
  file : σ
  replies : List Reply

def Session.answer {σ : Type*} (s : Session σ) (r : Reply × σ) : Session σ := ⟨r.2, s.replies ++ [r.1]⟩

/-- The same calls made on one file in each back end, and on a file with a position. -/
structure Backends (φ : Type*) where
  slfs : Session (FileT φ)
  littlefs : Session (FileT φ)
  posix : Session (PosixFile UInt8)

def fsStep (api : LfsApi φ) (lastError : ℕ) (s : Backends φ) (c : FsCall) : Option (Backends φ) :=
  some ⟨s.slfs.answer (fsCall api lastError s.slfs.file c),
    s.littlefs.answer (fsCall api lastError s.littlefs.file c), s.posix.answer (posixCall s.posix.file c)⟩

def Backends.opened (w : Fs) (f : φ) (buf : Mem) (file : PosixFile UInt8) : Backends φ :=
  ⟨⟨.slfs w, []⟩, ⟨.littlefs f buf, []⟩, ⟨file, []⟩⟩

/-- The replies of both back ends are those of a file with a position. -/
def Backends.Agree (s : Backends φ) : Prop :=
  s.slfs.replies = s.littlefs.replies ∧ s.littlefs.replies = s.posix.replies

/-- littleFS as far as the interface relies on it: counts of bytes, reads cut at the end of the file, writes
that transfer everything while there is room, and a position that advances. -/
structure PosixLike (api : LfsApi φ) (view : φ → PosixFile UInt8) (room : φ → ℕ → Prop) : Prop where
  read : ∀ f n, ∃ f', api.fileRead f n = ((((view f).read n).length : ℤ), (view f).read n, f') ∧
    view f' = (view f).advance ((view f).read n).length
  write : ∀ f bs, bs = [] ∨ room f bs.length → ∃ f', api.fileWrite f bs = ((bs.length : ℤ), f') ∧
    view f' = (view f).write bs
  seek : ∀ f n, n ≤ (view f).content.length → view (api.fileSeek f n .seekSet) = (view f).seek n

end Calls

section LittleFs

variable {φ : Type*} {api : LfsApi φ} {view : φ → PosixFile UInt8} {room : φ → ℕ → Prop} {lastError : ℕ} {f : φ}
  {buf : Mem}

/-- The calls on which littleFS answers like a file with a position: a seek in the file, a read that delivers
everything, and a write there is room for. -/
def InRange (room : φ → ℕ → Prop) (f : φ) (file : PosixFile UInt8) : FsCall → Prop
  | .fsSeek offset => offset ≤ file.content.length
  | .fsRead len => len < Word.size ∧ (len = 0 ∨ file.pos + len ≤ file.content.length)
  | .fsWrite _ len _ => len < Word.size ∧ (len = 0 ∨ room f len)

theorem lfsStatus_self {n : ℕ} (h : n < Word.size) : lfsStatus n n = 0 := by
  rw [lfsStatus, if_pos]
  exact Int.emod_eq_of_lt (Int.natCast_nonneg n) (Int.ofNat_lt.mpr h)

theorem littlefs_call (hlfs : PosixLike api view room) {c : FsCall} (h : InRange room f (view f) c) :
    ∃ f' buf', fsCall api lastError (.littlefs f buf) c = ((posixCall (view f) c).1, .littlefs f' buf') ∧
      view f' = (posixCall (view f) c).2 := by
  cases c with
  | fsSeek offset => exact ⟨_, _, rfl, hlfs.seek f offset h⟩
  | fsRead len =>
      obtain ⟨hlt, hin⟩ := h
      obtain ⟨f', hread, hview⟩ := hlfs.read f len
      have hlen : ((view f).read len).length = len := (PosixFile.length_read_eq (view f)).mpr hin
      refine ⟨f', put buf 0 ((view f).read len), ?_, hview⟩
      have hdata : bytes (put buf 0 ((view f).read len)) 0 len = (view f).read len := by
        have hself : bytes (put buf 0 ((view f).read len)) 0 ((view f).read len).length = _ := bytes_put_self
        rwa [hlen] at hself
      simp only [fsCall, fsRead, hread, hlen, FileT.buf, posixCall, if_true, hdata, lfsStatus_self hlt]
  | fsWrite pbuf len uninit =>
      obtain ⟨hlt, hroom⟩ := h
      have hbytes : bytes pbuf 0 len = [] ∨ room f (bytes pbuf 0 len).length := by
        rw [bytes_length]
        exact hroom.imp_left fun hzero => List.length_eq_zero_iff.mp ((bytes_length ..).trans hzero)
      obtain ⟨f', hwrite, hview⟩ := hlfs.write f (bytes pbuf 0 len) hbytes
      rw [bytes_length] at hwrite
      refine ⟨f', buf, ?_, hview⟩
      simp only [fsCall, fsWrite, hwrite, posixCall, lfsStatus_self hlt]

end LittleFs

section SlfsFile

variable {w : Fs} {rs : List ℕ} {content : List UInt8} {n : ℕ} {m : Mem} {pf : SlfsFile}

/-- The handle is on a file with these contents: a new one, or one with a well-formed chain of blocks. -/
inductive Holds (w : Fs) : List UInt8 → Prop
  | new (h : Fresh w.file) : Holds w []
  | old {rs : List ℕ} (h : OldFile w.mem w.file rs) : Holds w (contents w.mem w.file rs)

theorem fileSize_lt (h : OldFile m pf rs) : pf.fileSize < Word.size := by
  have hmax : datablkMaxCnt = 8184 := by decide
  have hlen := (List.Nodup.subperm h.chain.links.nodup h.aligned).length_le
  rw [List.length_cons, length_blkAddrs, hmax] at hlen
  have hfits := h.fits
  unfold Word.size
  omega

theorem Holds.isOpen (h : Holds w content) : w.file.openCnt ≠ 0 := by
  cases h with
  | new hfresh => exact hfresh.isOpen
  | old hold => exact hold.isOpen

theorem Holds.fileSize (h : Holds w content) : w.file.fileSize = content.length := by
  cases h with
  | new hfresh => exact hfresh.empty
  | old hold => exact hold.contents_length.symm

/-- Moving the position inside the file leaves its contents. -/
theorem Holds.seek (h : Holds w content) (hn : n ≤ content.length) :
    Holds { w with file := { w.file with pos := n } } content := by
  cases h with
  | new hfresh => exact .new ⟨hfresh.isOpen, hfresh.empty, Nat.le_zero.mp hn⟩
  | old hold =>
      rw [hold.contents_length] at hn
      have hmoved : OldFile w.mem { w.file with pos := n } _ :=
        ⟨hold.isOpen, hold.chain, hold.aligned, hold.size, hold.fits, hold.counted, hn⟩
      exact Holds.old (w := { w with file := { w.file with pos := n } }) hmoved

theorem Holds.buf (h : Holds w content) (buf : Mem) : Holds { w with buf := buf } content := by
  cases h with
  | new hfresh => exact .new hfresh
  | old hold => exact Holds.old (w := { w with buf := buf }) hold

theorem slfsRead_holds (h : Holds w content) (hne : content ≠ []) (hn : n = 0 ∨ w.file.pos + n ≤ content.length) :
    slfsRead n w = .ok () { w with buf := put w.buf 0 ((content.drop w.file.pos).take n) } := by
  cases h with
  | new hfresh => exact absurd rfl hne
  | old hold =>
      have hsize := fileSize_lt hold
      have hpos := hold.pos
      rw [hold.contents_length] at hn
      have hread := slfsRead_chain (n := n) hold.chain hold.size hold.fits hold.pos (by omega)
      have hmin : min n (w.file.fileSize - w.file.pos) = n := by omega
      rw [hread, hmin, contents, List.drop_take, List.take_take, hmin]

/-- A write that finds an inode and blocks; over old contents, its buffer reaches the last block and leaves only
erased bytes behind it. -/
structure Writable (w : Fs) (content : List UInt8) (len : ℕ) (uninit : Uninit) : Prop where
  inode : freeInode w.mem ≠ none
  blks : (newSize w.file len + 503) / 504 ≤ (freeBlks w.mem datablkStart datablkMaxCnt).length
  update : content ≠ [] → Reached w.file len uninit.len ∧
    Readable w.mem w.file.allocedblkNum w.file.datablkAddr ∧ ∀ b ∈ content.drop (w.file.pos + len), b = 0xFF

variable {i p len needed : ℕ} {qs : List ℕ} {bs : List UInt8} {uninit : Uninit} {pbuf : Mem} {w' : Fs}

/-- The handle that has written a version is on a file with the bytes written, up to the file size. -/
theorem holds_of_written (hi : i < inodeMaxCnt) (htaken : takenBlks m needed = p :: qs)
    (hmem : w'.mem = writtenNew m i w'.file uninit p qs bs) (haddr : w'.file.datablkAddr = p)
    (hopen : w'.file.openCnt ≠ 0) (hnum : qs.length + 1 ≤ w'.file.allocedblkNum) (hsize : 0 < w'.file.fileSize)
    (hle : w'.file.fileSize ≤ bs.length) (hlen : bs.length ≤ 504 * (qs.length + 1))
    (hpos : w'.file.pos ≤ w'.file.fileSize) : Holds w' (bs.take w'.file.fileSize) := by
  have hpair : (p :: qs).Pairwise fun a b => a + 512 ≤ b := htaken ▸ takenBlks_pairwise m needed
  have hin : ∀ q ∈ p :: qs, 4096 ≤ q ∧ q + 512 ≤ 0x400000 := fun q hq => mem_takenBlks (m := m) (htaken ▸ hq)
  have hold : OldFile w'.mem w'.file qs := by
    refine ⟨hopen, ?_, fun q hq => ?_, hsize, hle.trans hlen, hnum, hpos⟩
    · rw [haddr, hmem]
      exact writtenNew_chain hi hpair hin
    · rw [haddr, ← htaken] at hq
      exact mem_blkAddrs_of_mem_freeBlks (List.mem_of_mem_take hq)
  have hgather : (gather w'.mem 504 (p :: qs)).take bs.length = bs := by
    rw [hmem]
    exact writtenNew_gather hi hpair hin hlen
  have hcontents : contents w'.mem w'.file qs = bs.take w'.file.fileSize := by
    rw [contents, haddr, ← min_eq_left hle, ← List.take_take, hgather, min_eq_left hle]
  exact hcontents ▸ Holds.old hold

/-- The first write of a file. -/
theorem slfsWrite_new (hfresh : Fresh w.file) (h0 : 0 < len) (hw : Writable w [] len uninit) :
    ∃ w', slfsWrite pbuf len uninit w = .ok () w' ∧ Holds w' (bytes pbuf 0 len) := by
  obtain ⟨i, hinode⟩ := Option.ne_none_iff_exists'.mp hw.inode
  have hmax : datablkMaxCnt = 8184 := by decide
  have hnew : newSize w.file len = len := by rw [newSize, hfresh.empty, hfresh.start, Nat.zero_add, Nat.zero_max]
  have hblks := hw.blks
  rw [hnew] at hblks
  have hfew := hblks.trans (freeBlks_length_le w.mem datablkStart datablkMaxCnt)
  rw [hmax] at hfew
  obtain ⟨p, qs, htaken, hqs⟩ := takenBlks_eq_cons (by omega) hblks
  obtain ⟨w', hrun, hfile, hmem⟩ : ∃ w', slfsWrite pbuf len uninit w = .ok () w' ∧ _ ∧
      w'.mem = writtenNew w.mem i w'.file uninit p qs (bytes pbuf 0 len) :=
    slfsWrite_fresh hfresh h0 (by unfold Word.size; omega) hinode rfl htaken hqs
  have hsize : w'.file.fileSize = len := by rw [hfile]; rfl
  have hheld : Holds w' ((bytes pbuf 0 len).take w'.file.fileSize) := by
    refine holds_of_written (freeInode_lt hinode) htaken hmem (by rw [hfile]; rfl) (by rw [hfile]; exact hfresh.isOpen)
      (by rw [hfile]; exact hqs.le) (hsize ▸ h0) ?_ ?_ ?_
    · rw [bytes_length, hsize]
    · rw [bytes_length]
      omega
    · rw [hfile]
      exact hfresh.start.trans_le (Nat.zero_le _)
  rw [hsize, List.take_of_length_le (bytes_length ..).le] at hheld
  exact ⟨w', hrun, hheld⟩

/-- A later write, where it does no harm. -/
theorem slfsWrite_old (hold : OldFile w.mem w.file rs) (h0 : 0 < len)
    (hw : Writable w (contents w.mem w.file rs) len uninit) : ∃ w', slfsWrite pbuf len uninit w = .ok () w' ∧
      Holds w' ((contents w.mem w.file rs).take w.file.pos ++ bytes pbuf 0 len ++
        (contents w.mem w.file rs).drop (w.file.pos + len)) := by
  obtain ⟨i, hinode⟩ := Option.ne_none_iff_exists'.mp hw.inode
  have hne : contents w.mem w.file rs ≠ [] := by
    rw [← List.length_pos_iff, hold.contents_length]
    exact hold.size
  obtain ⟨hreach, hreadable, hrest⟩ := hw.update hne
  obtain ⟨needed, hneeded⟩ : ∃ needed, (newSize w.file len + 503) / 504 = needed := ⟨_, rfl⟩
  have hblks : needed ≤ (freeBlks w.mem datablkStart datablkMaxCnt).length := hneeded ▸ hw.blks
  have hafford : Affordable w.mem w.file len i needed := hold.affordable hinode hneeded hblks h0
  have hlast := hreach.last
  have hnew : newSize w.file len = max w.file.fileSize (w.file.pos + len) := rfl
  have hfew : w.file.allocedblkNum ≤ needed := by omega
  have hfit : Fits w.file len needed := Or.inr ⟨hold.size.ne', hfew⟩
  obtain ⟨-, -, -, -, -, -, -, -, hok, -⟩ := hafford.staged hfit (Eq.refl (slfsWrite pbuf len uninit w))
  have hrun := eq_ok_of_succeeded (hok.mpr fun _ => hreadable)
  obtain ⟨w', hw'⟩ : ∃ w', w' = stateAfter (slfsWrite pbuf len uninit w) := ⟨_, rfl⟩
  rw [← hw'] at hrun
  obtain ⟨p, qs, htaken, hqs, hfile, hmem⟩ := slfsWrite_update hold hinode hneeded hblks h0 hreach hrun
  have hmax : datablkMaxCnt = 8184 := by decide
  have hcount := hblks.trans (freeBlks_length_le w.mem datablkStart datablkMaxCnt)
  rw [hmax] at hcount
  have hgrown : grownSize w.file len = newSize w.file len := hold.grown len (by unfold Word.size; omega)
  have hsize : w'.file.fileSize = newSize w.file len := by rw [hfile, ← hgrown]; rfl
  have hpos : w.file.pos ≤ 504 := by
    rcases hreach.start with hstart | hstart
    · exact hstart.le
    · exact hstart.1.le
  have hheld : Holds w' ((updatedBytes w.mem pbuf w.file len).take w'.file.fileSize) := by
    refine holds_of_written (freeInode_lt hinode) htaken hmem (by rw [hfile]; rfl) (by rw [hfile]; exact hold.isOpen)
      (by rw [hfile]; exact hqs.le) ?_ ?_ ?_ ?_
    · rw [hsize, hnew]
      omega
    · rw [updatedBytes_length, hsize, hnew]
      have hold' := hold.fileSize_le
      omega
    · rw [updatedBytes_length]
      omega
    · rw [hsize, hfile]
      exact hold.pos.trans (le_max_left ..)
  rw [hsize, updatedBytes_take hold hpos hrest] at hheld
  exact ⟨w', hrun, hheld⟩

end SlfsFile

section Agreement

variable {φ : Type*} {api : LfsApi φ} {view : φ → PosixFile UInt8} {room : φ → ℕ → Prop} {lastError : ℕ} {f : φ}
  {buf : Mem} {w : Fs} {file : PosixFile UInt8}

/-- The calls on which SLFS answers like a file with a position. -/
def SlfsSafe (w : Fs) (file : PosixFile UInt8) : FsCall → Prop
  | .fsSeek _ => True
  | .fsRead len => file.content ≠ [] ∧ (len = 0 ∨ w.file.pos = file.pos)
  | .fsWrite _ len uninit => len = 0 ∨ w.file.pos = file.pos ∧ Writable w file.content len uninit

theorem slfs_call {c : FsCall} (h : Holds w file.content) (hrange : InRange room f file c) (hc : SlfsSafe w file c) :
    ∃ w', fsCall api lastError (.slfs w) c = ((posixCall file c).1, .slfs w') ∧
      Holds w' (posixCall file c).2.content := by
  cases c with
  | fsSeek offset =>
      have hseek : slfsSeek offset .seekSet w = _ := slfsSeek_set h.isOpen (h.fileSize ▸ hrange)
      refine ⟨_, ?_, h.seek hrange⟩
      simp only [fsCall, fsSeek, hseek, slfsStatus, stateAfter, posixCall]
  | fsRead len =>
      obtain ⟨hlt, hin⟩ := hrange
      obtain ⟨hne, hpos⟩ := hc
      have hin' : len = 0 ∨ w.file.pos + len ≤ file.content.length := by omega
      have hread := slfsRead_holds h hne hin'
      have hlen : (file.read len).length = len := (PosixFile.length_read_eq file).mpr hin
      have hbytes : (file.content.drop w.file.pos).take len = file.read len := by
        rcases hpos with rfl | hpos
        · rw [PosixFile.read_zero, List.take_zero]
        · rw [hpos, PosixFile.read]
      have hdata : bytes (put w.buf 0 (file.read len)) 0 len = file.read len := by
        have hself : bytes (put w.buf 0 (file.read len)) 0 (file.read len).length = _ := bytes_put_self
        rwa [hlen] at hself
      rw [hbytes] at hread
      refine ⟨{ w with buf := put w.buf 0 (file.read len) }, ?_, h.buf _⟩
      simp only [fsCall, fsRead, hread, slfsStatus, stateAfter, FileT.buf, posixCall, hlen, if_true, hdata]
  | fsWrite pbuf len uninit =>
      by_cases hzero : len = 0
      · subst hzero
        have hrun : slfsWrite pbuf 0 uninit w = .ok () w := by
          rw [slfsWrite, getFile_bind, if_neg h.isOpen, if_pos rfl]
          rfl
        refine ⟨w, ?_, ?_⟩
        · simp only [fsCall, fsWrite, hrun, slfsStatus, stateAfter, posixCall]
        · have hnil : file.write (bytes pbuf 0 0) = file := file.write_nil
          rw [posixCall, hnil]
          exact h
      · obtain ⟨hpos, hw⟩ := hc.resolve_left hzero
        have h0 : 0 < len := Nat.pos_of_ne_zero hzero
        obtain ⟨w', hrun, hheld⟩ : ∃ w', slfsWrite pbuf len uninit w = .ok () w' ∧
            Holds w' (file.write (bytes pbuf 0 len)).content := by
          rw [PosixFile.write, bytes_length, ← hpos]
          obtain ⟨content, hcontent⟩ : ∃ content, content = file.content := ⟨_, rfl⟩
          rw [← hcontent] at h hw ⊢
          cases h with
          | new hfresh =>
              rw [List.take_nil, List.drop_nil, List.nil_append, List.append_nil]
              exact slfsWrite_new hfresh h0 hw
          | old hold => exact slfsWrite_old hold h0 hw
        refine ⟨w', ?_, hheld⟩
        simp only [fsCall, fsWrite, hrun, slfsStatus, stateAfter, posixCall]

/-- The condition on a call. -/
def Safe (view : φ → PosixFile UInt8) (room : φ → ℕ → Prop) (s : Backends φ) (c : FsCall) : Prop :=
  match s.slfs.file, s.littlefs.file with
  | .slfs w, .littlefs f _ => InRange room f (view f) c ∧ SlfsSafe w (view f) c
  | _, _ => False

/-- Both files have the same contents, and the replies have been the same. -/
structure Agreeing (view : φ → PosixFile UInt8) (s : Backends φ) : Prop where
  files : ∃ w f buf, s.slfs.file = .slfs w ∧ s.littlefs.file = .littlefs f buf ∧ s.posix.file = view f ∧
    Holds w (view f).content
  agree : s.Agree

theorem Agreeing.step {s t : Backends φ} {c : FsCall} (hlfs : PosixLike api view room) (hs : Agreeing view s)
    (hc : Safe view room s c) (hstep : fsStep api lastError s c = some t) : Agreeing view t := by
  obtain ⟨⟨w, f, buf, hslfs, hlittle, hposix, hholds⟩, hsame, hsame'⟩ := hs
  rw [Safe, hslfs, hlittle] at hc
  obtain ⟨hrange, hsafe⟩ := hc
  obtain ⟨w', hslfs', hholds'⟩ : ∃ w', fsCall api lastError (.slfs w) c = _ ∧ _ := slfs_call hholds hrange hsafe
  obtain ⟨f', buf', hlittle', hview⟩ : ∃ f' buf', fsCall api lastError (.littlefs f buf) c = _ ∧ _ :=
    littlefs_call hlfs hrange
  cases hstep
  refine ⟨⟨w', f', buf', ?_, ?_, ?_, ?_⟩, ?_, ?_⟩
  · simp only [Session.answer, hslfs, hslfs']
  · simp only [Session.answer, hlittle, hlittle']
  · simp only [Session.answer, hposix, hview]
  · rw [hview]
    exact hholds'
  · simp only [Session.answer, hslfs, hslfs', hlittle, hlittle', hsame]
  · simp only [Session.answer, hlittle, hlittle', hposix, hsame']

/-- As long as the calls meet the condition, both back ends give the replies of a file with a position. -/
theorem backends_agree {calls : List FsCall} (hlfs : PosixLike api view room) (hholds : Holds w (view f).content)
    (hC : Machine.StepsMeet (fsStep api lastError) (Safe view room) (.opened w f buf (view f)) calls) :
    Machine.Always (fsStep api lastError) Backends.Agree (.opened w f buf (view f)) calls :=
  Machine.always_of_stepsMeet (Agreeing view) (fun _ h => h.agree) (fun _ _ _ hs hc hstep => hs.step hlfs hc hstep)
    ⟨⟨w, f, buf, rfl, rfl, rfl, hholds⟩, rfl, rfl⟩ hC

end Agreement

section PosixBackend

/-- A back end that is a file with a position. -/
def posixApi : LfsApi (PosixFile UInt8) where
  fileRead file n := ((file.read n).length, file.read n, file.advance (file.read n).length)
  fileWrite file bs := (bs.length, file.write bs)
  fileSeek file offset whence :=
    match whence with
    | .seekSet => file.seek offset
    | .seekCur => file.seek (file.pos + offset)
    | .seekEnd => file.seek (file.content.length - offset)

theorem posixApi_posixLike : PosixLike posixApi id fun _ _ => True where
  read _ _ := ⟨_, rfl, rfl⟩
  write _ _ _ := ⟨_, rfl, rfl⟩
  seek _ _ _ := rfl

theorem writtenFs_one : Holds (writtenFs 1) [42] := by
  have hold : OldFile (writtenFs 1).mem (writtenFs 1).file [] := writtenFs_old (.inl rfl)
  have hcontents : contents (writtenFs 1).mem (writtenFs 1).file [] = [42] := by decide +kernel
  exact hcontents ▸ Holds.old hold

/-- One byte in both back ends, at position 0. -/
def oneByteOpened : Backends (PosixFile UInt8) := .opened (writtenFs 1) ⟨[42], 0⟩ (fun _ => 0) ⟨[42], 0⟩

/-- A file that is opened under a new name, in both back ends. -/
def newOpened : Backends (PosixFile UInt8) := .opened (stateAfter (slfsOpen (letter 97) erasedFs)) ⟨[], 0⟩ (fun _ => 0)
    ⟨[], 0⟩

theorem backends_agree_written : Machine.Always (fsStep posixApi 2000) Backends.Agree newOpened
    [.fsWrite (fun k => UInt8.ofNat k) 600 zeroUninit, .fsSeek 500, .fsRead 50] := by
  have hfresh : Holds (stateAfter (slfsOpen (letter 97) erasedFs)) [] :=
    .new ⟨by decide +kernel, by decide +kernel, by decide +kernel⟩
  have hsize : newSize (stateAfter (slfsOpen (letter 97) erasedFs)).file 600 = 600 := by decide +kernel
  have hblks : (newSize (stateAfter (slfsOpen (letter 97) erasedFs)).file 600 + 503) / 504 ≤
      (freeBlks (stateAfter (slfsOpen (letter 97) erasedFs)).mem datablkStart datablkMaxCnt).length := by
    rw [hsize]
    exact opened_blks
  refine backends_agree posixApi_posixLike hfresh fun s hs => ⟨?_, fun t ht => ⟨?_, fun u hu => ⟨?_, trivial⟩⟩⟩
  · exact ⟨⟨by decide, Or.inr trivial⟩, Or.inr ⟨by decide +kernel, by decide +kernel, hblks, fun h => absurd rfl h⟩⟩
  · cases hs
    refine ⟨?_, trivial⟩
    change 500 ≤ ((PosixFile.mk [] 0).write (bytes (fun k => UInt8.ofNat k) 0 600)).content.length
    decide +kernel
  · cases hs
    cases ht
    exact ⟨⟨by decide, Or.inr (by decide +kernel)⟩, by decide +kernel, Or.inr (by decide +kernel)⟩

/-- The second of two reads of the only byte: SLFS delivers it again, littleFS is at the end of the file. -/
theorem read_again_differs : PosixLike posixApi id (fun _ _ => True) ∧ Holds (writtenFs 1) [42] ∧
    ¬ Machine.Always (fsStep posixApi 2000) Backends.Agree oneByteOpened [.fsRead 1, .fsRead 1] := by
  refine ⟨posixApi_posixLike, writtenFs_one, fun h => ?_⟩
  have hsame := ((h.2 _ rfl).2 _ rfl).start.1
  have hstatus := congrArg (fun replies => (replies[1]?).map Reply.status) hsame
  exact absurd hstatus (by decide +kernel)

end PosixBackend

end Slos.FileSystem
