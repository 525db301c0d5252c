import Slos.ByteMemory
import Slos.LoggedRun

/-!
# The ELF loader

`load_ramdisk_app` of `loader.c`, over the functions of `fs.c` on an open file, which may behave in any
way. Every read is logged with its destination. The sizes and addresses of the reads come from the file's
headers, and `Fits` says which headers keep them inside the buffers and the application's window. What a
read past its destination does to the rest of memory is left out: it is the first one that counts.
-/

namespace Slos.Loader
open Word ByteMemory LoggedRun

def maxUsrTask : ℕ := 1

def userAppBase : ℕ := 0x1000000

def userAppGap : ℕ := 0x100000

def userAppMaxErr : ℤ := 2000 + 11

def ptLoad : ℕ := 1

def shtSymtab : ℕ := 2

def ehdrSize : ℕ := 52

def phdrSize : ℕ := 32

def shdrSize : ℕ := 40

def symSize : ℕ := 16

def half (m : Mem) (a : ℕ) : ℕ := (m a).toNat + 256 * (m (a + 1)).toNat

/-- The header structures, by their bytes. -/
structure Ehdr where
  bytes : Mem

namespace Ehdr

def phoff (e : Ehdr) : ℕ := word e.bytes 28

def shoff (e : Ehdr) : ℕ := word e.bytes 32

def phentsize (e : Ehdr) : ℕ := half e.bytes 42

def phnum (e : Ehdr) : ℕ := half e.bytes 44

def shentsize (e : Ehdr) : ℕ := half e.bytes 46

def shnum (e : Ehdr) : ℕ := half e.bytes 48

/-- `ehdr.e_phoff + i * ehdr.e_phentsize`. -/
def phdrOffset (e : Ehdr) (i : ℕ) : ℕ := u32 (e.phoff + i * e.phentsize)

/-- `ehdr.e_shoff + i * ehdr.e_shentsize`. -/
def shdrOffset (e : Ehdr) (i : ℕ) : ℕ := u32 (e.shoff + i * e.shentsize)

end Ehdr

structure Phdr where
  bytes : Mem

namespace Phdr

def type (p : Phdr) : ℕ := word p.bytes 0

def offset (p : Phdr) : ℕ := word p.bytes 4

def vaddr (p : Phdr) : ℕ := word p.bytes 8

def filesz (p : Phdr) : ℕ := word p.bytes 16

end Phdr

structure Shdr where
  bytes : Mem

namespace Shdr

def type (h : Shdr) : ℕ := word h.bytes 4

def offset (h : Shdr) : ℕ := word h.bytes 16

def size (h : Shdr) : ℕ := word h.bytes 20

def link (h : Shdr) : ℕ := word h.bytes 24

end Shdr

/-- The open file: a read gives its status and the bytes it stores. -/
structure File (σ : Type) where
  read : σ → ℕ → ℤ × List UInt8 × σ
  seek : σ → ℕ → ℤ × σ
  close : σ → ℤ × σ

/-- Where a read goes: one of the header variables, a buffer `kmalloc` returned for `size` bytes, or a
plain address. -/
inductive Dest
  | ehdr
  | phdr
  | shdr
  | strShdr
  | heap (size : ℕ)
  | addr (a : ℕ)
  deriving DecidableEq

structure Read where
  dest : Dest
  len : ℕ
  deriving DecidableEq

/-- The bytes of the local variables and of the heap before anything is read into them. -/
structure Uninit where
  ehdr : Mem
  phdr : Mem
  shdr : Mem
  strShdr : Mem
  strings : Mem
  symbols : Mem

def baseAddr (appIdx : ℕ) : ℕ := u32 (userAppBase + u32 (userAppGap * appIdx))

/-- The range of a read lies in its buffer, or in the window of the application. -/
def Confined (appIdx : ℕ) (r : Read) : Prop :=
  match r.dest with
  | .ehdr => r.len ≤ ehdrSize
  | .phdr => r.len ≤ phdrSize
  | .shdr => r.len ≤ shdrSize
  | .strShdr => r.len ≤ shdrSize
  | .heap size => r.len ≤ size
  | .addr a => userAppBase + userAppGap * appIdx ≤ a ∧
      a + r.len ≤ userAppBase + userAppGap * appIdx + userAppGap

instance (appIdx : ℕ) : DecidablePred (Confined appIdx) := fun r => by
  unfold Confined
  split <;> infer_instance

variable {ρ σ : Type} (f : File σ)

/-- A call that works when its status is zero. -/
def checked {α : Type} (r : ℤ × α) : Except ℤ α := if r.1 ≠ 0 then .error r.1 else .ok r.2

def seekOutcome (offset : ℕ) (s : σ) : Except ℤ (Unit × σ) := (checked (f.seek s offset)).map fun s => ((), s)

def fetchOutcome (len : ℕ) (s : σ) : Except ℤ (List UInt8 × σ) := checked (f.read s len)

def fsSeek (offset : ℕ) : Logged ρ σ ℤ Unit := quiet (seekOutcome f offset)

/-- What a read delivers. -/
def fetch (len : ℕ) : Logged ρ σ ℤ (List UInt8) := quiet (fetchOutcome f len)

def fsRead (dest : Dest) (len : ℕ) : Logged Read σ ℤ (List UInt8) := do
  log { dest := dest, len := len }
  fetch f len

def fsClose : Logged ρ σ ℤ Unit := quiet fun s => (checked (f.close s)).map fun s => ((), s)

/-- The loop over the program headers, with `n` of them left. -/
def loadSegments (baseAddr : ℕ) (ehdr : Ehdr) : ℕ → ℕ → Phdr → Logged Read σ ℤ Unit
  | 0, _, _ => pure ()
  | n + 1, i, phdr => do
      fsSeek f (ehdr.phdrOffset i)
      let bs ← fsRead f .phdr ehdr.phentsize
      let phdr : Phdr := ⟨put phdr.bytes 0 bs⟩
      if phdr.type ≠ ptLoad then loadSegments baseAddr ehdr n (i + 1) phdr
      else if phdr.filesz = 0 then loadSegments baseAddr ehdr n (i + 1) phdr
      else do
        fsSeek f phdr.offset
        let _ ← fsRead f (.addr (u32 (baseAddr + phdr.vaddr))) phdr.filesz
        loadSegments baseAddr ehdr n (i + 1) phdr

/-- `"main"` with its terminating NUL. -/
def mainName : List UInt8 := [109, 97, 105, 110, 0]

/-- The loop over the symbols, with `n` of them left. -/
def findMain (baseAddr : ℕ) (strings symbols : Mem) : ℕ → ℕ → Option ℕ
  | 0, _ => none
  | n + 1, j =>
      if bytes strings (word symbols (j * symSize)) mainName.length = mainName then
        some (u32 (baseAddr + word symbols (j * symSize + 4)))
      else findMain baseAddr strings symbols n (j + 1)

/-- The loop over the section headers, with `n` of them left. The result is the entry, if it is set. -/
def findEntry (baseAddr : ℕ) (ehdr : Ehdr) (uninit : Uninit) :
    ℕ → ℕ → Shdr → Logged Read σ ℤ (Option ℕ)
  | 0, _, _ => pure none
  | n + 1, i, shdr => do
      fsSeek f (ehdr.shdrOffset i)
      let bs ← fsRead f .shdr ehdr.shentsize
      let shdr : Shdr := ⟨put shdr.bytes 0 bs⟩
      if shdr.type = shtSymtab then do
        fsSeek f (ehdr.shdrOffset shdr.link)
        let bs ← fsRead f .strShdr ehdr.shentsize
        let strShdr : Shdr := ⟨put uninit.strShdr 0 bs⟩
        fsSeek f strShdr.offset
        let strings ← fsRead f (.heap strShdr.size) strShdr.size
        fsSeek f shdr.offset
        let symbols ← fsRead f (.heap shdr.size) shdr.size
        return findMain baseAddr (put uninit.strings 0 strings) (put uninit.symbols 0 symbols)
          (shdr.size / symSize) 0
      else findEntry baseAddr ehdr uninit n (i + 1) shdr

/-- The loader once the file is open, up to the creation of the task with the entry. -/
def loadApp (uninit : Uninit) (appIdx : ℕ) : Logged Read σ ℤ (Option ℕ) := do
  let bs ← fsRead f .ehdr ehdrSize
  let ehdr : Ehdr := ⟨put uninit.ehdr 0 bs⟩
  loadSegments f (baseAddr appIdx) ehdr ehdr.phnum 0 ⟨uninit.phdr⟩
  let entry ← findEntry f (baseAddr appIdx) ehdr uninit ehdr.shnum 0 ⟨uninit.shdr⟩
  fsClose f
  return entry

/-- `fsOpen` is the status of the open and the state it leaves. -/
def loadRamdiskApp (fsOpen : ℤ × σ) (uninit : Uninit) (appIdx : ℕ) :
    List Read × Except ℤ (Option ℕ × σ) :=
  if maxUsrTask ≤ appIdx then ([], .error userAppMaxErr)
  else if fsOpen.1 ≠ 0 then ([], .error fsOpen.1)
  else loadApp f uninit appIdx fsOpen.2

/-- A segment the loader reads from the file. -/
structure Segment where
  vaddr : ℕ
  filesz : ℕ

/-- The segments named by the program headers, up to the first error of the file system. -/
def segments (ehdr : Ehdr) : ℕ → ℕ → Phdr → Logged Segment σ ℤ Unit
  | 0, _, _ => pure ()
  | n + 1, i, phdr => do
      fsSeek f (ehdr.phdrOffset i)
      let bs ← fetch f ehdr.phentsize
      let phdr : Phdr := ⟨put phdr.bytes 0 bs⟩
      if phdr.type ≠ ptLoad then segments ehdr n (i + 1) phdr
      else if phdr.filesz = 0 then segments ehdr n (i + 1) phdr
      else do
        fsSeek f phdr.offset
        log { vaddr := phdr.vaddr, filesz := phdr.filesz }
        let _ ← fetch f phdr.filesz
        segments ehdr n (i + 1) phdr

def InWindow (seg : Segment) : Prop := seg.vaddr + seg.filesz ≤ userAppGap

/-- The headers of the file, once it is open, keep the loader to its buffers and the window: no program
header, segment or section header that it gets to is larger than its place. -/
def HeadersFit (uninit : Uninit) (s : σ) : Prop :=
  ∀ bs s₁, fetchOutcome f ehdrSize s = .ok (bs, s₁) →
    let ehdr : Ehdr := ⟨put uninit.ehdr 0 bs⟩
    (ehdr.phnum ≠ 0 → (f.seek s₁ (ehdr.phdrOffset 0)).1 = 0 → ehdr.phentsize ≤ phdrSize) ∧
    All InWindow (segments f ehdr ehdr.phnum 0 ⟨uninit.phdr⟩) s₁ ∧
    ∀ s₂, (segments f ehdr ehdr.phnum 0 ⟨uninit.phdr⟩ s₁).2 = .ok ((), s₂) →
      ehdr.shnum ≠ 0 → (f.seek s₂ (ehdr.shdrOffset 0)).1 = 0 → ehdr.shentsize ≤ shdrSize

variable {f} {α : Type} {P : ρ → Prop} {offset len : ℕ} {s s' : σ}

theorem all_fsSeek_bind {g : Unit → Logged ρ σ ℤ α} : All P (fsSeek f offset >>= g) s ↔
    ∀ u s', seekOutcome f offset s = .ok (u, s') → All P (g u) s' := all_quiet_bind

theorem all_fetch_bind {g : List UInt8 → Logged ρ σ ℤ α} : All P (fetch f len >>= g) s ↔
    ∀ bs s', fetchOutcome f len s = .ok (bs, s') → All P (g bs) s' := all_quiet_bind

theorem fsRead_outcome (dest : Dest) : (fsRead f dest len s).2 = fetchOutcome f len s := by
  rw [fsRead, outcome_log_bind]
  rfl

theorem all_fsRead_bind {Q : Read → Prop} {dest : Dest} {g : List UInt8 → Logged Read σ ℤ α} :
    All Q (fsRead f dest len >>= g) s ↔ Q { dest := dest, len := len } ∧
      ∀ bs s', fetchOutcome f len s = .ok (bs, s') → All Q (g bs) s' := by
  rw [all_bind, fsRead_outcome, fsRead, all_log_bind]
  constructor
  · rintro ⟨⟨hq, -⟩, hg⟩
    exact ⟨hq, hg⟩
  · rintro ⟨hq, hg⟩
    exact ⟨⟨hq, all_quiet _ s⟩, hg⟩

theorem segment_confined {vaddr filesz : ℕ} (hv : vaddr < size) :
    Confined 0 { dest := .addr (u32 (baseAddr 0 + vaddr)), len := filesz } ↔
      InWindow { vaddr := vaddr, filesz := filesz } := by
  have hbase : baseAddr 0 = userAppBase := by decide
  rw [hbase]
  unfold Confined InWindow
  dsimp only
  unfold u32 userAppBase userAppGap size at *
  omega

/-- With program headers that fit their variable, only the segments decide. -/
theorem loadSegments_confined {ehdr : Ehdr} (hsize : ehdr.phentsize ≤ phdrSize) (n i : ℕ) (phdr : Phdr)
    (s : σ) : All (Confined 0) (loadSegments f (baseAddr 0) ehdr n i phdr) s ↔
      All InWindow (segments f ehdr n i phdr) s := by
  induction n generalizing i phdr s with
  | zero => simp only [loadSegments, segments, all_pure]
  | succ n ih =>
      have hphdr : Confined 0 { dest := .phdr, len := ehdr.phentsize } := hsize
      simp only [loadSegments, segments, all_fsSeek_bind, all_fsRead_bind, all_fetch_bind, hphdr, true_and]
      refine forall_congr' fun _ => forall_congr' fun s₁ => imp_congr_right fun _ => ?_
      refine forall_congr' fun bs => forall_congr' fun s₂ => imp_congr_right fun _ => ?_
      split
      · exact ih _ _ _
      · split
        · exact ih _ _ _
        · simp only [all_fsSeek_bind, all_fsRead_bind, all_log_bind, all_fetch_bind]
          refine forall_congr' fun _ => forall_congr' fun s₃ => imp_congr_right fun _ => ?_
          exact and_congr (segment_confined (word_lt _ _)) <| forall_congr' fun _ =>
            forall_congr' fun s₄ => imp_congr_right fun _ => ih _ _ _

theorem loadSegments_outcome (base : ℕ) (ehdr : Ehdr) (n i : ℕ) (phdr : Phdr) (s : σ) :
    (loadSegments f base ehdr n i phdr s).2 = (segments f ehdr n i phdr s).2 := by
  induction n generalizing i phdr s with
  | zero => rfl
  | succ n ih =>
      rw [loadSegments, segments]
      refine outcome_bind rfl fun _ s₁ _ => outcome_bind (fsRead_outcome .phdr) fun bs s₂ _ => ?_
      generalize (⟨put phdr.bytes 0 bs⟩ : Phdr) = phdr
      by_cases htype : phdr.type ≠ ptLoad
      · rw [if_pos htype, if_pos htype]
        exact ih _ _ _
      · rw [if_neg htype, if_neg htype]
        by_cases hzero : phdr.filesz = 0
        · rw [if_pos hzero, if_pos hzero]
          exact ih _ _ _
        · rw [if_neg hzero, if_neg hzero]
          refine outcome_bind rfl fun _ s₃ _ => ?_
          rw [outcome_log_bind]
          exact outcome_bind (fsRead_outcome _) fun _ s₄ _ => ih _ _ _

theorem seekOutcome_ne_ok_iff :
    (∀ u s', seekOutcome f offset s ≠ .ok (u, s')) ↔ (f.seek s offset).1 ≠ 0 := by
  unfold seekOutcome checked
  by_cases h : (f.seek s offset).1 = 0
  · rw [if_neg (not_not.mpr h)]
    exact ⟨fun hall => absurd rfl (hall () (f.seek s offset).2), fun hne => absurd h hne⟩
  · rw [if_pos h]
    exact ⟨fun _ => h, fun _ u s' hok => by cases hok⟩

/-- Program headers larger than their variable are read past it as soon as one is read. -/
theorem loadSegments_large {ehdr : Ehdr} (hsize : phdrSize < ehdr.phentsize) (n i base : ℕ) (phdr : Phdr)
    (s : σ) : All (Confined 0) (loadSegments f base ehdr n i phdr) s ↔
      (n ≠ 0 → (f.seek s (ehdr.phdrOffset i)).1 ≠ 0) := by
  have hphdr : ¬ Confined 0 { dest := .phdr, len := ehdr.phentsize } := Nat.not_le.mpr hsize
  cases n with
  | zero =>
      simp only [loadSegments, all_pure, true_iff]
      exact fun h => absurd rfl h
  | succ n =>
      simp only [loadSegments, all_fsSeek_bind, all_fsRead_bind, hphdr, false_and, imp_false,
        seekOutcome_ne_ok_iff, ne_eq, Nat.succ_ne_zero, not_false_eq_true, true_imp_iff]

/-- With section headers that fit their variables, nothing is read past its place. -/
theorem findEntry_confined {ehdr : Ehdr} (hsize : ehdr.shentsize ≤ shdrSize) (base : ℕ) (uninit : Uninit)
    (n i : ℕ) (shdr : Shdr) (s : σ) : All (Confined 0) (findEntry f base ehdr uninit n i shdr) s := by
  induction n generalizing i shdr s with
  | zero => simp only [findEntry, all_pure]
  | succ n ih =>
      have hshdr : Confined 0 { dest := .shdr, len := ehdr.shentsize } := hsize
      have hstr : Confined 0 { dest := .strShdr, len := ehdr.shentsize } := hsize
      have hheap (size : ℕ) : Confined 0 { dest := .heap size, len := size } := le_rfl
      simp only [findEntry, all_fsSeek_bind, all_fsRead_bind, hshdr, true_and]
      intro _ s₁ _ bs s₂ _
      split
      · simp only [all_fsSeek_bind, all_fsRead_bind, hstr, hheap, true_and, all_pure]
        intros
        trivial
      · exact ih _ _ _

theorem findEntry_large {ehdr : Ehdr} (hsize : shdrSize < ehdr.shentsize) (base : ℕ) (uninit : Uninit)
    (n i : ℕ) (shdr : Shdr) (s : σ) : All (Confined 0) (findEntry f base ehdr uninit n i shdr) s ↔
      (n ≠ 0 → (f.seek s (ehdr.shdrOffset i)).1 ≠ 0) := by
  have hshdr : ¬ Confined 0 { dest := .shdr, len := ehdr.shentsize } := Nat.not_le.mpr hsize
  cases n with
  | zero =>
      simp only [findEntry, all_pure, true_iff]
      exact fun h => absurd rfl h
  | succ n =>
      simp only [findEntry, all_fsSeek_bind, all_fsRead_bind, hshdr, false_and, imp_false,
        seekOutcome_ne_ok_iff, ne_eq, Nat.succ_ne_zero, not_false_eq_true, true_imp_iff]

/-- Where no program header is read, no segment is. -/
theorem segments_none {P : Segment → Prop} {ehdr : Ehdr} {n i : ℕ}
    (h : n ≠ 0 → (f.seek s (ehdr.phdrOffset i)).1 ≠ 0) (phdr : Phdr) :
    All P (segments f ehdr n i phdr) s := by
  cases n with
  | zero => exact all_pure _ _
  | succ n =>
      rw [segments, all_fsSeek_bind]
      intro u s' hs
      exact absurd hs (seekOutcome_ne_ok_iff.mpr (h (Nat.succ_ne_zero n)) u s')

theorem loadSegments_iff (ehdr : Ehdr) (n : ℕ) (phdr : Phdr) (s : σ) :
    All (Confined 0) (loadSegments f (baseAddr 0) ehdr n 0 phdr) s ↔
      (n ≠ 0 → (f.seek s (ehdr.phdrOffset 0)).1 = 0 → ehdr.phentsize ≤ phdrSize) ∧
        All InWindow (segments f ehdr n 0 phdr) s := by
  rcases Nat.lt_or_ge phdrSize ehdr.phentsize with hlarge | hfits
  · rw [loadSegments_large hlarge]
    constructor
    · intro h
      exact ⟨fun hn hs => absurd hs (h hn), segments_none h phdr⟩
    · rintro ⟨h, -⟩ hn hs
      exact absurd (h hn hs) (Nat.not_le.mpr hlarge)
  · rw [loadSegments_confined hfits]
    exact ⟨fun h => ⟨fun _ _ => hfits, h⟩, fun h => h.2⟩

theorem findEntry_iff (ehdr : Ehdr) (base : ℕ) (uninit : Uninit) (n : ℕ) (shdr : Shdr) (s : σ) :
    All (Confined 0) (findEntry f base ehdr uninit n 0 shdr) s ↔
      (n ≠ 0 → (f.seek s (ehdr.shdrOffset 0)).1 = 0 → ehdr.shentsize ≤ shdrSize) := by
  rcases Nat.lt_or_ge shdrSize ehdr.shentsize with hlarge | hfits
  · rw [findEntry_large hlarge]
    constructor
    · intro h hn hs
      exact absurd hs (h hn)
    · intro h hn hs
      exact absurd (h hn hs) (Nat.not_le.mpr hlarge)
  · exact ⟨fun _ _ _ => hfits, fun _ => findEntry_confined hfits base uninit n 0 shdr s⟩

theorem loadApp_confined_iff (uninit : Uninit) (s : σ) :
    All (Confined 0) (loadApp f uninit 0) s ↔ HeadersFit f uninit s := by
  have hehdr : Confined 0 { dest := .ehdr, len := ehdrSize } := le_rfl
  rw [loadApp, all_fsRead_bind, HeadersFit]
  refine (and_iff_right hehdr).trans ?_
  refine forall_congr' fun bs => forall_congr' fun s₁ => imp_congr_right fun _ => ?_
  dsimp only
  generalize (⟨put uninit.ehdr 0 bs⟩ : Ehdr) = ehdr
  rw [all_bind, loadSegments_iff, loadSegments_outcome, and_assoc]
  refine and_congr_right fun _ => and_congr_right fun _ => ?_
  have hrest (s₂ : σ) : All (Confined 0) (do
      let entry ← findEntry f (baseAddr 0) ehdr uninit ehdr.shnum 0 ⟨uninit.shdr⟩
      fsClose f
      return entry) s₂ ↔ (ehdr.shnum ≠ 0 → (f.seek s₂ (ehdr.shdrOffset 0)).1 = 0 →
        ehdr.shentsize ≤ shdrSize) := by
    rw [all_bind, findEntry_iff]
    refine and_iff_left fun entry s₃ _ => ?_
    rw [fsClose, all_quiet_bind]
    intros
    exact all_pure _ _
  constructor
  · intro h s₂ hs₂
    exact (hrest s₂).mp (h () s₂ hs₂)
  · intro h _ s₂ hs₂
    exact (hrest s₂).mpr (h s₂ hs₂)

/-- The loader's reads stay in their buffers and in the window of the application exactly when the headers
of the file fit. -/
theorem reads_confined_iff (f : File σ) (fsOpen : ℤ × σ) (uninit : Uninit) (appIdx : ℕ) :
    (∀ r ∈ (loadRamdiskApp f fsOpen uninit appIdx).1, Confined appIdx r) ↔
      (appIdx < maxUsrTask → fsOpen.1 = 0 → HeadersFit f uninit fsOpen.2) := by
  unfold loadRamdiskApp
  by_cases hidx : maxUsrTask ≤ appIdx
  · rw [if_pos hidx]
    exact ⟨fun _ h => absurd h (Nat.not_lt.mpr hidx), fun _ r hr => absurd hr List.not_mem_nil⟩
  · obtain rfl : appIdx = 0 := Nat.lt_one_iff.mp (Nat.not_le.mp hidx)
    rw [if_neg hidx]
    by_cases hopen : fsOpen.1 = 0
    · rw [if_neg (not_not.mpr hopen)]
      exact (loadApp_confined_iff uninit fsOpen.2).trans
        ⟨fun h _ _ => h, fun h => h (Nat.not_le.mp hidx) hopen⟩
    · rw [if_pos hopen]
      exact ⟨fun _ _ h => absurd h hopen, fun _ r hr => absurd hr List.not_mem_nil⟩

/-- A file with its position, as littleFS reads it through `fs.c`. -/
def littlefsFile (content : List UInt8) : File ℕ where
  read pos len :=
    let bs := (content.drop pos).take len
    (if bs.length = len then 0 else -1, bs, pos + bs.length)
  seek _ offset := (0, offset)
  close pos := (0, pos)

/-- One program header of 64 bytes, right behind the ELF header. -/
def longPhdr : List UInt8 :=
  List.replicate 28 0 ++ [52, 0, 0, 0] ++ List.replicate 10 0 ++ [64, 0, 1, 0] ++ List.replicate 70 0

def zeroed : Uninit where
  ehdr _ := 0
  phdr _ := 0
  shdr _ := 0
  strShdr _ := 0
  strings _ := 0
  symbols _ := 0

theorem long_phdr_read_past :
    { dest := .phdr, len := 64 } ∈ (loadRamdiskApp (littlefsFile longPhdr) (0, 0) zeroed 0).1 ∧
      ¬ Confined 0 { dest := .phdr, len := 64 } := by
  constructor
  · decide +kernel
  · decide

end Slos.Loader
