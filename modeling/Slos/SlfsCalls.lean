import Slos.Slfs

/-!
# The SLFS calls

Mounting, garbage collection and the calls on an open file of `slfs.c`, over the block and page
functions. Each call runs on the handle in the state.
-/

namespace Slos.Slfs
open Word ByteMemory Ramdisk

/-- Local variables as they are before the first assignment. -/
structure Uninit where
  inode : SlfsInode
  len : ℕ
  alloc : AllocState
  curDatablkAddr : ℕ
  superblk : Mem

def pageAddr (db : ℕ) : ℕ := db &&& 0xFFFFE000

def pageIdxOf (db : ℕ) : ℕ := db >>> 12

/-- The walk to the last data block, which reads plain memory. -/
def lastDatablk : (fuel datablkAddr curDatablkAddr : ℕ) → FsM ℕ
  | 0, _, _ => throw .hang
  | fuel + 1, datablkAddr, cur =>
      if datablkAddr = minusOne then pure cur else do
        let next ← cpuRead (u32 (datablkAddr + datablkTailOffLow))
        let prev ← cpuRead (u32 (next + datablkTailOffHi))
        if datablkAddr ≠ prev then throw .listBroken
        else lastDatablk fuel next datablkAddr

/-- Erases a quarter of each data block of the loaded page, back along the list. -/
def eraseInPage (pageIdx : ℕ) : (fuel curDatablkAddr : ℕ) → FsM ℕ
  | 0, _ => throw .hang
  | fuel + 1, cur => do
      let prev ← cpuRead (u32 (cur + datablkTailOffHi))
      modifyPage fun page => put page (usub cur (pageAddr cur)) (List.replicate 128 0xFF)
      if pageIdx = pageIdxOf prev then eraseInPage pageIdx fuel prev else pure prev

def orIoErr (x : FsM Unit) : FsM Unit :=
  tryCatch x fun e => throw (if e = .hang then .hang else .io)

def eraseDatablks : (fuel curDatablkAddr : ℕ) → FsM Unit
  | 0, _ => throw .hang
  | fuel + 1, cur => do
      orIoErr (loadPage (pageIdxOf cur))
      let prev ← eraseInPage (pageIdxOf cur) Word.size cur
      orIoErr (storePage (pageIdxOf cur))
      if prev ≥ datablkStart then eraseDatablks fuel prev else pure ()

def deleteDatablks (inode : SlfsInode) (uninit : Uninit) : FsM Unit := do
  let cur ← lastDatablk Word.size inode.datablkAddr uninit.curDatablkAddr
  eraseDatablks Word.size cur

/-- The page is given by its index, or by its address where `slfs_mount` passes that. -/
def recoverPage (pageIdx : ℕ) : FsM Unit := do
  erasePage pageIdx
  copyFlashToFlash pageIdx swapPageStart ramdiskPageSize ramdiskPageSize 0
  if pageIdx ≠ metadataPageIdx then
    orIoErr (loadPage metadataPageIdx)
    modifyPage fun page => put page garbagePageTabStart (List.replicate garbagePageTabSize 0xFF)
    orIoErr (storePage metadataPageIdx)

/-- A call whose error code is dropped. -/
def ignoreErr (x : FsM Unit) : FsM Unit :=
  tryCatch x fun e => if e = .hang then throw .hang else pure ()

/-- The first pass: dangling inodes lose their data blocks, deleted files are recorded. The last inode
read stays in the local variable. -/
def collectObsolete (uninit : Uninit) :
    List ℕ → List (ℕ × ℕ) → SlfsInode → FsM (List (ℕ × ℕ) × SlfsInode)
  | [], deleted, last => pure (deleted, last)
  | i :: is, deleted, _ => do
      let b ← readOrErr (inodeTabStart + i * inodeSize) inodeSize
      let inode := SlfsInode.atAddr b 0
      if inode.fileSize = minusOne then collectObsolete uninit is deleted inode
      else if inode.updateCnt = minusOne then
        ignoreErr (deleteDatablks inode uninit)
        collectObsolete uninit is deleted inode
      else if inode.fileSize = 0 ∧ inode.datablkAddr = 0 then
        collectObsolete uninit is (deleted ++ [(inode.fileId, inode.updateCnt)]) inode
      else collectObsolete uninit is deleted inode

/-- `if (!io_ops.read(...)) return -IO_ERR`: a read that works ends the call. -/
def deleteFileInodes (uninit : Uninit) (fileId updateCnt : ℕ) (inode : SlfsInode) :
    List ℕ → FsM SlfsInode
  | [] => pure inode
  | j :: js => do
      match ← ioRead (inodeTabStart + j * inodeSize) inodeSize with
      | some _ => throw .io
      | none =>
          if inode.fileId = fileId ∧ inode.updateCnt = updateCnt then
            ignoreErr (deleteDatablks inode uninit)
          deleteFileInodes uninit fileId updateCnt inode js

def deleteFiles (uninit : Uninit) : List (ℕ × ℕ) → SlfsInode → FsM Unit
  | [], _ => pure ()
  | (fileId, updateCnt) :: deleted, inode =>
      if fileId = minusOne then pure ()
      else do
        let inode ← deleteFileInodes uninit fileId updateCnt inode (List.range inodeMaxCnt)
        deleteFiles uninit deleted inode

def eraseInode (page : Mem) (i : ℕ) : Mem :=
  put page (inodeTabStart + i * inodeSize) (List.replicate inodeSize 0xFF)

/-- Whether an inode is one of those recorded, before the end mark. -/
def isDeleted (deleted : List (ℕ × ℕ)) (inode : SlfsInode) : Bool :=
  (deleted.takeWhile fun d => d.1 ≠ minusOne).any fun d =>
    inode.fileId = d.1 ∧ inode.updateCnt = d.2

def cleanInode (deleted : List (ℕ × ℕ)) (page : Mem) (i : ℕ) : Mem :=
  let addr := inodeTabStart + i * inodeSize
  let page := if word page (addr + 4) = minusOne then eraseInode page i else page
  if isDeleted deleted (SlfsInode.atAddr page addr) then eraseInode page i else page

def collectGarbage (uninit : Uninit) : FsM Unit := do
  let (deleted, inode) ← collectObsolete uninit (List.range inodeMaxCnt) [] uninit.inode
  deleteFiles uninit deleted inode
  orIoErr (loadPage metadataPageIdx)
  modifyPage fun page => put page garbagePageTabStart (List.replicate garbagePageTabSize 0xFF)
  modifyPage fun page => (List.range inodeMaxCnt).foldl (cleanInode deleted) page
  orIoErr (storePage metadataPageIdx)

def slfsFormat : FsM Unit := fun w => .ok () (w.store (eraseRamdiskChip w.mem))

/-- The fields the function assigns; the write reports an error when it works. -/
def initMetadata (uninit : Uninit) : FsM Unit := do
  let fields := wordBytes ramdiskStart ++ wordBytes inodeBitmapStart ++ wordBytes datablkBitmapStart ++
    wordBytes inodeTabStart ++ wordBytes datablkStart ++
    wordBytes (datablkPayloadSize * datablkMaxCnt) ++ wordBytes (datablkPayloadSize * datablkMaxCnt) ++
    wordBytes 0
  let superblk := put uninit.superblk 0 (magicString ++ fields)
  fun w => match writeRamdisk w.mem superblkStart (bytes superblk 0 56) with
    | some m => .error .io (w.store m)
    | none => .ok () w

/-- The superblock is read at the absolute address of the ramdisk; a read that works is an error. -/
def loadSuperblk : FsM Unit := fun w =>
  match readRamdisk w.mem ramdiskStart 56 with
  | some bs => .error .io { w with superblk := put w.superblk 0 bs }
  | none =>
      if bytes w.superblk 0 magicString.length = magicString then
        .ok () { w with superblk := put w.superblk 52 [1] }
      else .error .metadata w

/-- The last entry of the garbage page table before the first erased one. -/
def lastGarbagePage (page : Mem) : List ℕ → ℕ → ℕ
  | [], prev => prev
  | i :: is, prev =>
      let idx := word page (garbagePageTabStart + i * 4)
      if idx = minusOne then prev else lastGarbagePage page is idx

def recoverAny : FsM Unit := do
  let tail ← readWord swapPageTailStart
  if tail = metadataPageIdx then recoverPage metadataPageIdx
  else
    orIoErr (loadPage metadataPageIdx)
    let page ← getPage
    let prev := lastGarbagePage page (List.range garbagePageTabMaxCnt) 0
    if prev ≠ 0 then recoverPage prev else pure ()

def slfsMount (uninit : Uninit) : FsM Unit := do
  recoverAny
  let magic ← readOrErr superblkStart magicString.length
  if bytes magic 0 magicString.length ≠ magicString then
    slfsFormat
    initMetadata uninit
  loadSuperblk

/-- Whether the names agree up to and including a NUL within the first 16 bytes. -/
def nameMatches (pname name : ℕ → UInt8) : Bool :=
  match (List.range slfsFnameLen).find? fun j => pname j != name j || pname j == 0 with
  | some j => pname j == name j
  | none => false

/-- The newest inode with the name among those looked at: the first one with the largest count. -/
def openLoop (pname : ℕ → UInt8) : List ℕ → Option SlfsInode → FsM (Option SlfsInode)
  | [], last => pure last
  | i :: is, last => do
      let b ← readOrErr (inodeTabStart + i * inodeSize) inodeSize
      let inode := SlfsInode.atAddr b 0
      let last := if nameMatches pname inode.name then
          match last with
          | none => some inode
          | some l => if l.updateCnt < inode.updateCnt then some inode else last
        else last
      openLoop pname is last

/-- Copies up to and including the NUL, 16 bytes at most. -/
def copyName (dst src : ℕ → UInt8) : ℕ → UInt8 := fun i =>
  if i < slfsFnameLen ∧ ∀ j < i, src j ≠ 0 then src i else dst i

def openFound (pf : SlfsFile) (inode : SlfsInode) : SlfsFile :=
  { pf with
    fd := inode.fileId
    fileSize := inode.fileSize
    pos := 0
    datablkAddr := inode.datablkAddr
    inodeIdx := inode.inodeIdx
    openCnt := u32 (pf.openCnt + 1)
    name := copyName pf.name inode.name
    updateCnt := inode.updateCnt }

def openNew (pf : SlfsFile) (pname : ℕ → UInt8) : SlfsFile where
  fd := minusOne
  fileSize := 0
  inodeIdx := minusOne
  pos := 0
  openCnt := 1
  datablkAddr := minusOne
  allocedblkNum := 0
  updateCnt := 0
  name := copyName pf.name pname

def slfsOpen (pname : ℕ → UInt8) : FsM Unit := do
  match ← openLoop pname (List.range inodeMaxCnt) none with
  | some inode =>
      if inode.inodeIdx ≠ minusOne then
        modifyFile fun pf => openFound pf inode
        let datablkNum ← getDatablkNum
        modifyFile fun pf => { pf with allocedblkNum := datablkNum }
      else modifyFile fun pf => openNew pf pname
  | none => modifyFile fun pf => openNew pf pname

inductive SeekWhence
  | seekSet
  | seekCur
  | seekEnd
  deriving DecidableEq

def slfsSeek (offset : ℕ) (whence : SeekWhence) : FsM Unit := do
  let pf ← getFile
  if pf.openCnt = 0 then throw .fileParam
  else
    let pos := match whence with
      | .seekSet => offset
      | .seekCur => u32 (pf.pos + offset)
      | .seekEnd => usub pf.fileSize offset
    if pos > pf.fileSize then throw .fileParam
    else modifyFile fun pf => { pf with pos := pos }

/-- Writes the buffer to a new file, block by block. -/
def writeNew (pbuf : Mem) : (fuel datablkAddr bufPos bytesWrite : ℕ) → FsM Unit
  | 0, _, _, _ => pure ()
  | fuel + 1, datablkAddr, bufPos, bytesWrite =>
      if bytesWrite = 0 then pure ()
      else if bytesWrite > datablkPayloadSize then do
        writeOrErr datablkAddr (bytes pbuf bufPos datablkPayloadSize)
        let next ← readWord (u32 (datablkAddr + datablkTailOffLow))
        writeNew pbuf fuel next (bufPos + datablkPayloadSize) (bytesWrite - datablkPayloadSize)
      else writeOrErr datablkAddr (bytes pbuf bufPos bytesWrite)

structure CopyState where
  datablkAddrPrev : ℕ
  datablkAddr : ℕ
  pos : ℕ
  bufPos : ℕ
  bytesWrite : ℕ
  bytesWritten : ℕ
  len : ℕ

/-- The part of one block that the buffer covers; the rest of the block is erased where the buffer
ends. -/
def spliceBlk (pbuf : Mem) (data : Mem) (st : CopyState) : Mem × CopyState :=
  if st.bytesWrite > 0 ∧ st.pos < datablkPayloadSize then
    let room := datablkPayloadSize - st.pos
    let len := if room < st.bytesWrite then room else st.bytesWrite
    let data := put data st.pos (bytes pbuf st.bufPos len)
    let data := if st.bytesWrite > len then data
      else put data (st.pos + len) (List.replicate (datablkPayloadSize - (st.pos + len)) 0xFF)
    (data, { st with pos := 0, bufPos := u32 (st.bufPos + len),
                     bytesWrite := if st.bytesWrite > len then st.bytesWrite - len else 0,
                     len := len })
  else (data, { st with pos := usub st.pos datablkPayloadSize })

/-- Copies the blocks of the previous version; the next one is read from plain memory. -/
def copyBlks (pbuf : Mem) : ℕ → CopyState → FsM CopyState
  | 0, st => pure st
  | n + 1, st => do
      let b ← readOrErr st.datablkAddrPrev datablkPayloadSize
      let (data, st) := spliceBlk pbuf b st
      writeOrErr st.datablkAddr (bytes data 0 datablkPayloadSize)
      let prev ← cpuRead (u32 (st.datablkAddrPrev + datablkTailOffLow))
      let next ← readWord (u32 (st.datablkAddr + datablkTailOffLow))
      copyBlks pbuf n { st with datablkAddrPrev := prev, datablkAddr := next,
                                bytesWritten := u32 (st.bytesWritten + st.len) }

/-- Appends what is left of the buffer to the blocks behind the copied ones, `n` of them at most;
`i` have been written. -/
def appendBlks (pbuf : Mem) : (n i datablkAddr bytesWrite bytesWritten : ℕ) → FsM Unit
  | 0, _, _, _, _ => pure ()
  | n + 1, i, datablkAddr, bytesWrite, bytesWritten => do
      let len := if bytesWrite < datablkPayloadSize then bytesWrite else datablkPayloadSize
      writeOrErr datablkAddr (bytes pbuf (u32 (bytesWritten + i * datablkPayloadSize)) len)
      if bytesWrite - len = 0 then pure ()
      else
        let next ← readWord (u32 (datablkAddr + datablkTailOffLow))
        appendBlks pbuf n (i + 1) next (bytesWrite - len) (u32 (bytesWritten + len))

/-- The file size with the position taken into account. -/
def grownSize (pf : SlfsFile) (bytesWrite : ℕ) : ℕ :=
  if pf.fileSize = 0 then bytesWrite
  else if u32 (pf.pos + bytesWrite) > pf.fileSize then u32 (pf.pos + bytesWrite)
  else pf.fileSize

/-- A new inode, after a garbage collection if there is none left. -/
def takeInode (uninit : Uninit) : FsM Unit :=
  tryCatch updateFp fun e => if e = .noInode then do
      collectGarbage uninit
      updateFp
    else throw e

/-- New data blocks, after a garbage collection if there are not enough; other errors are dropped. -/
def takeDatablks (bytesWrite : ℕ) (uninit : Uninit) : FsM Unit :=
  tryCatch (allocDatablk bytesWrite uninit.alloc) fun e => if e = .noDatablk then do
      collectGarbage uninit
      allocDatablk bytesWrite uninit.alloc
    else pure ()

/-- The two writes of the whole inode; most of the first one is not initialised. -/
def writeInode (uninit : Uninit) : FsM Unit := do
  let pf ← getFile
  let inode := { uninit.inode with fileSize := pf.fileSize }
  writeOrErr (inodeAddr pf.inodeIdx) inode.toBytes
  let inode := { inode with
    inodeIdx := pf.inodeIdx
    fileId := pf.fd
    datablkAddr := pf.datablkAddr
    name := fun j => if j < slfsFnameLen then pf.name j else inode.name j }
  writeOrErr (inodeAddr pf.inodeIdx) inode.toBytes

/-- Copies the previous version, spliced with the buffer, and appends. -/
def writeUpdate (pbuf : Mem) (prev : SlfsFile) (bytesWrite : ℕ) (uninit : Uninit) : FsM Unit := do
  let pf ← getFile
  let st ← copyBlks pbuf prev.allocedblkNum
    { datablkAddrPrev := prev.datablkAddr, datablkAddr := pf.datablkAddr, pos := pf.pos, bufPos := 0,
      bytesWrite := bytesWrite, bytesWritten := 0, len := uninit.len }
  if st.bytesWrite > 0 then
    appendBlks pbuf (usub pf.allocedblkNum prev.allocedblkNum) 0 st.datablkAddr st.bytesWrite
      st.bytesWritten

/-- The CLOSE event. -/
def writeUpdateCnt : FsM Unit := do
  let pf ← getFile
  writeOrErr (u32 (inodeAddr pf.inodeIdx + 4)) (wordBytes pf.updateCnt)

def slfsWrite (pbuf : Mem) (bytesWrite : ℕ) (uninit : Uninit) : FsM Unit := do
  let prev ← getFile
  if prev.openCnt = 0 then throw .fileParam
  else if bytesWrite = 0 then pure ()
  else
    modifyFile fun pf => { pf with fileSize := grownSize pf bytesWrite }
    takeInode uninit
    takeDatablks bytesWrite uninit
    writeInode uninit
    if prev.fileSize = 0 then
      let pf ← getFile
      writeNew pbuf bytesWrite pf.datablkAddr 0 bytesWrite
    else writeUpdate pbuf prev bytesWrite uninit
    writeUpdateCnt

/-- The data block index and the offset in it for a position. -/
def blkOfPos : (fuel datablkIdxPos offset : ℕ) → ℕ × ℕ
  | 0, idx, offset => (idx, offset)
  | fuel + 1, idx, offset =>
      if offset > datablkPayloadSize then
        let offset := offset - datablkPayloadSize
        if offset < datablkPayloadSize then (idx + 1, offset) else blkOfPos fuel (idx + 1) offset
      else (idx, offset)

/-- A read into the caller's buffer. -/
def readInto (addr len bufPos : ℕ) : FsM Unit := fun w =>
  match readRamdisk w.mem addr len with
  | some bs => .ok () { w with buf := put w.buf bufPos bs }
  | none => .error .io w

def readBlks : (fuel datablkAddr bufPos bytesRead : ℕ) → FsM Unit
  | 0, _, _, _ => pure ()
  | fuel + 1, datablkAddr, bufPos, bytesRead =>
      if bytesRead = 0 then pure () else do
        let next ← readWord (u32 (datablkAddr + datablkTailOffLow))
        let len := if bytesRead ≥ datablkPayloadSize then datablkPayloadSize else bytesRead
        readInto next len bufPos
        readBlks fuel next (bufPos + len) (bytesRead - len)

def slfsRead (bytesRead : ℕ) : FsM Unit := do
  let pf ← getFile
  if pf.fileSize = 0 ∨ pf.datablkAddr = minusOne then throw .fileSize
  else
    let bytesRead := if pf.fileSize < u32 (pf.pos + bytesRead) then usub pf.fileSize pf.pos
      else bytesRead
    let (idx, offset) := blkOfPos pf.pos 0 pf.pos
    let datablkAddr ← getDatablkAddr idx
    let len := if datablkPayloadSize - offset > bytesRead then bytesRead
      else datablkPayloadSize - offset
    readInto (u32 (datablkAddr + offset)) len 0
    readBlks bytesRead datablkAddr len (bytesRead - len)

def slfsDelete (uninit : Uninit) : FsM Unit := do
  let pf ← getFile
  let b ← readOrErr (inodeAddr pf.inodeIdx) inodeSize
  takeInode uninit
  let pf ← getFile
  let inode := { SlfsInode.atAddr b 0 with
    inodeIdx := pf.inodeIdx, updateCnt := pf.updateCnt, fileSize := 0, datablkAddr := 0 }
  writeOrErr (inodeAddr pf.inodeIdx) inode.toBytes

end Slos.Slfs
