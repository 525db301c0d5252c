import Slos.Ramdisk

/-!
# SLFS

The functions of `slfs.c`. A call runs on the device, the page buffer, the in-memory superblock, the
handle `pf` it is given and the buffer a read fills, and returns or fails with an error code; `hang`
stands for a loop that never ends. `past` keeps the device as it was before each write or erase,
newest first. What a local variable holds before it is assigned comes as an argument.
-/

namespace Slos.Slfs
open Word ByteMemory Ramdisk

@[simp] def slfsFnameLen : ℕ := 16

@[simp] def fnameLen : ℕ := 32

@[simp] def minusOne : ℕ := 0xFFFFFFFF

@[simp] def swapPageIdx : ℕ := ramdiskPageNum - 1

@[simp] def swapPageStart : ℕ := swapPageIdx <<< ramdiskPageSizeShift

@[simp] def swapPageTailStart : ℕ := swapPageStart + ramdiskPageSize - 4

@[simp] def metadataPageIdx : ℕ := 0

@[simp] def superblkStart : ℕ := 0

@[simp] def inodeBitmapStart : ℕ := 0x40

@[simp] def datablkBitmapStart : ℕ := inodeBitmapStart + 0x40

@[simp] def inodeTabStart : ℕ := datablkBitmapStart + 0x40

@[simp] def inodeMaxCnt : ℕ := 32

@[simp] def inodeSize : ℕ := 56

@[simp] def garbagePageTabStart : ℕ := inodeTabStart + inodeMaxCnt * inodeSize

@[simp] def garbagePageTabMaxCnt : ℕ := ramdiskPageSize >>> ramdiskPageSizeShift

@[simp] def garbagePageTabSize : ℕ := garbagePageTabMaxCnt <<< 2

@[simp] def datablkStart : ℕ := ramdiskPageSize

@[simp] def datablkSize : ℕ := ramdiskBlkSize

@[simp] def datablkMaxCnt : ℕ := (ramdiskSize - ramdiskPageSize) >>> 9

@[simp] def datablkTailSize : ℕ := 8

@[simp] def datablkPayloadSize : ℕ := ramdiskBlkSize - datablkTailSize

@[simp] def datablkTailOffHi : ℕ := datablkPayloadSize

@[simp] def datablkTailOffLow : ℕ := datablkPayloadSize + 4

/-- `"slfs filesystem"` and its terminating NUL. -/
def magicString : List UInt8 :=
  [115, 108, 102, 115, 32, 102, 105, 108, 101, 115, 121, 115, 116, 101, 109, 0]

inductive FsErr
  | io
  | metadata
  | noDatablk
  | noInode
  | param
  | fileParam
  | listBroken
  | fileSize
  | hang
  deriving DecidableEq

structure SlfsFile where
  fd : ℕ
  pos : ℕ
  fileSize : ℕ
  openCnt : ℕ
  datablkAddr : ℕ
  inodeIdx : ℕ
  allocedblkNum : ℕ
  updateCnt : ℕ
  name : ℕ → UInt8

structure SlfsInode where
  inodeIdx : ℕ
  updateCnt : ℕ
  fileSize : ℕ
  datablkAddr : ℕ
  fileId : ℕ
  reserved : ℕ
  name : ℕ → UInt8

namespace SlfsInode

def toBytes (inode : SlfsInode) : List UInt8 :=
  wordBytes inode.inodeIdx ++ wordBytes inode.updateCnt ++ wordBytes inode.fileSize ++
    wordBytes inode.datablkAddr ++ wordBytes inode.fileId ++ wordBytes inode.reserved ++
    (List.range fnameLen).map inode.name

def atAddr (m : Mem) (a : ℕ) : SlfsInode where
  inodeIdx := word m a
  updateCnt := word m (a + 4)
  fileSize := word m (a + 8)
  datablkAddr := word m (a + 12)
  fileId := word m (a + 16)
  reserved := word m (a + 20)
  name j := m (a + 24 + j)

end SlfsInode

structure Fs where
  mem : Mem
  past : List Mem
  page : Mem
  superblk : Mem
  file : SlfsFile
  buf : Mem

abbrev FsM := EStateM FsErr Fs

def getFile : FsM SlfsFile := fun w => .ok w.file w

def modifyFile (f : SlfsFile → SlfsFile) : FsM Unit := fun w => .ok () { w with file := f w.file }

def Fs.store (w : Fs) (m : Mem) : Fs := { w with mem := m, past := w.mem :: w.past }

def ioRead (addr len : ℕ) : FsM (Option (List UInt8)) := fun w =>
  .ok (readRamdisk w.mem addr len) w

/-- `if (io_ops.read(...)) return -IO_ERR`, into a buffer of its own. -/
def readOrErr (addr len : ℕ) : FsM Mem := fun w =>
  match readRamdisk w.mem addr len with
  | some bs => .ok (ofBytes bs) w
  | none => .error .io w

/-- `if (io_ops.write(...)) return -IO_ERR`. -/
def writeOrErr (addr : ℕ) (bs : List UInt8) : FsM Unit := fun w =>
  match writeRamdisk w.mem addr bs with
  | some m => .ok () (w.store m)
  | none => .error .io w

def erasePage (page : ℕ) : FsM Unit := fun w => .ok () (w.store (eraseRamdiskPage w.mem page))

def readWord (addr : ℕ) : FsM ℕ := do
  let b ← readOrErr addr 4
  return word b 0

def cpuRead (addr : ℕ) : FsM ℕ := fun w => .ok (cpuWord w.mem addr) w

/-- The assignments to the page buffer. -/
def modifyPage (f : Mem → Mem) : FsM Unit := fun w => .ok () { w with page := f w.page }

def getPage : FsM Mem := fun w => .ok w.page w

/-- The chunks left when `len` bytes remain from `offset` on, at most `fuel`. -/
def copyFlashToFlash (dst src : ℕ) : (fuel len offset : ℕ) → FsM Unit
  | 0, _, _ => pure ()
  | fuel + 1, len, offset =>
      if len = 0 then pure () else do
        let copyLen := if len > datablkSize then datablkSize else len
        let buf ← readOrErr (u32 (src + offset)) copyLen
        writeOrErr (u32 (dst + offset)) (bytes buf 0 copyLen)
        copyFlashToFlash dst src fuel (len - copyLen) (offset + copyLen)

/-- `rw_page(page_idx, false)`. -/
def loadPage (pageIdx : ℕ) : FsM Unit :=
  if pageIdx ≥ ramdiskPageNum then throw .param else do
    match ← ioRead (pageIdx <<< ramdiskPageSizeShift) ramdiskPageSize with
    | some bs => modifyPage fun page => put page 0 bs
    | none => pure ()

/-- The first erased entry of the garbage page table takes the page's address. -/
def recordGarbagePage (pageIdx : ℕ) : FsM Unit := do
  let section_ ← readOrErr garbagePageTabStart garbagePageTabSize
  match (List.range garbagePageTabMaxCnt).find? fun i => word section_ (4 * i) == minusOne with
  | none => pure ()
  | some i =>
      let entry := wordBytes (u32 (pageIdx <<< ramdiskPageSizeShift))
      writeOrErr (garbagePageTabStart + i * 4) (bytes (put section_ (4 * i) entry) 0 garbagePageTabSize)

/-- `rw_page(page_idx, true)`. -/
def storePage (pageIdx : ℕ) : FsM Unit :=
  if pageIdx ≥ ramdiskPageNum then throw .param else do
    erasePage swapPageIdx
    if pageIdx = metadataPageIdx then
      modifyPage fun page => put page (ramdiskPageSize - 4)
        (wordBytes (u32 (pageIdx <<< ramdiskPageSizeShift)))
    let page ← getPage
    writeOrErr swapPageStart (bytes page 0 ramdiskPageSize)
    if pageIdx ≠ metadataPageIdx then recordGarbagePage pageIdx
    erasePage pageIdx
    copyFlashToFlash (pageIdx <<< ramdiskPageSizeShift) swapPageStart ramdiskPageSize
      ramdiskPageSize 0
    erasePage swapPageIdx

/-- The first inode whose file size is erased. -/
def freeInode (m : Mem) : Option ℕ :=
  (List.range inodeMaxCnt).find? fun i => word m (inodeTabStart + i * inodeSize + 8) == minusOne

def takenInode (pf : SlfsFile) (i : ℕ) : SlfsFile :=
  { pf with
    inodeIdx := i
    updateCnt := u32 (pf.updateCnt + 1)
    fd := if pf.fd = minusOne then i else pf.fd }

def updateFp : FsM Unit := do
  loadPage metadataPageIdx
  let page ← getPage
  match freeInode page with
  | none => throw .noInode
  | some i => modifyFile fun pf => takenInode pf i

/-- The loop that counts whole blocks, and the length left over. -/
def countBlks : (fuel len : ℕ) → ℕ × ℕ
  | 0, len => (0, len)
  | fuel + 1, len =>
      if len > datablkPayloadSize then
        let r := countBlks fuel (len - datablkPayloadSize)
        (r.1 + 1, r.2)
      else (0, len)

def blksNeeded (len : ℕ) : ℕ :=
  let r := countBlks len len
  if r.2 ≠ 0 then r.1 + 1 else r.1

structure AllocState where
  blksAlloced : ℕ
  prevDatablkAddr : ℕ
  prevPrevDatablkAddr : ℕ

def inodeAddr (inodeIdx : ℕ) : ℕ := u32 (inodeTabStart + inodeIdx * inodeSize)

/-- A free data block is linked in. The first one goes into the inode, with the file size; every
later one into the tail of the block before it. -/
def linkDatablk (datablkAddr : ℕ) (st : AllocState) : FsM AllocState := do
  if st.blksAlloced = 0 then
    let pf ← getFile
    modifyFile fun pf => { pf with datablkAddr := datablkAddr }
    writeOrErr (u32 (inodeAddr pf.inodeIdx + 8)) (wordBytes pf.fileSize ++ wordBytes datablkAddr)
    return { blksAlloced := 1, prevDatablkAddr := datablkAddr,
             prevPrevDatablkAddr := inodeAddr pf.inodeIdx }
  else
    writeOrErr (st.prevDatablkAddr + datablkTailOffHi)
      (wordBytes st.prevPrevDatablkAddr ++ wordBytes datablkAddr)
    return { blksAlloced := st.blksAlloced + 1, prevDatablkAddr := datablkAddr,
             prevPrevDatablkAddr := st.prevDatablkAddr }

/-- The last tail has no next address. -/
def endDatablks (datablkAddr : ℕ) (st : AllocState) : FsM Unit := do
  modifyFile fun pf => { pf with allocedblkNum := st.blksAlloced }
  writeOrErr (datablkAddr + datablkTailOffHi) (wordBytes st.prevPrevDatablkAddr ++ wordBytes 0)

/-- The loop over the data blocks; `n` are left to look at. -/
def allocDatablkLoop (needed : ℕ) : (n datablkAddr : ℕ) → AllocState → FsM Unit
  | 0, _, st => if st.blksAlloced ≠ needed then throw .noDatablk else pure ()
  | n + 1, datablkAddr, st => do
      let tail ← readOrErr (datablkAddr + datablkTailOffHi) datablkTailSize
      let st ← if word tail 0 = minusOne ∧ word tail 4 = minusOne then linkDatablk datablkAddr st
        else pure st
      if st.blksAlloced = needed then endDatablks datablkAddr st
      else allocDatablkLoop needed n (datablkAddr + datablkSize) st

/-- `st` holds the two addresses that are not initialised. -/
def allocDatablk (len : ℕ) (st : AllocState) : FsM Unit := do
  modifyFile fun pf =>
    if u32 (pf.pos + len) > pf.fileSize then { pf with fileSize := u32 (pf.pos + len) } else pf
  let pf ← getFile
  allocDatablkLoop (blksNeeded pf.fileSize) datablkMaxCnt datablkStart { st with blksAlloced := 0 }

/-- An address that comes up again comes up for ever: more steps than there are words never end. -/
def getDatablkNumLoop : (fuel curDatablkAddr datablkNum : ℕ) → FsM ℕ
  | 0, _, _ => throw .hang
  | fuel + 1, cur, num =>
      if cur = minusOne then pure num else do
        let next ← readWord (u32 (cur + datablkTailOffLow))
        getDatablkNumLoop fuel next (u32 (num + 1))

def getDatablkNum : FsM ℕ := do
  let pf ← getFile
  getDatablkNumLoop Word.size pf.datablkAddr 0

def getDatablkAddrLoop : (datablkIdx curDatablkAddr : ℕ) → FsM ℕ
  | 0, cur => pure cur
  | idx + 1, cur =>
      if cur = minusOne then pure cur else do
        let next ← readWord (u32 (cur + datablkTailOffLow))
        getDatablkAddrLoop idx next

def getDatablkAddr (datablkIdx : ℕ) : FsM ℕ := do
  let pf ← getFile
  if pf.datablkAddr = minusOne then throw .noDatablk
  else
    let cur ← getDatablkAddrLoop datablkIdx pf.datablkAddr
    if cur = minusOne then throw .noDatablk else pure cur

end Slos.Slfs
