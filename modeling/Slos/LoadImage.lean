import Slos.Loader

/-!
# What the ELF loader leaves

`load_ramdisk_app` once more, now with what it does to memory: where the segments go, what it gets from `kmalloc` and
gives to `kfree`, and the entry of the task it creates. The local variables and the heap lie outside the application's
window. Over it stands what the file itself says of its segments and of the symbol `main`, for files that are well
formed and file systems that deliver their bytes.
-/

namespace Slos.Loader.Image
open Word ByteMemory

structure World (σ : Type) where
  file : σ
  mem : Mem
  allocated : List ℕ
  freed : List ℕ
  entries : List ℕ

/-- The variables that are set on some paths only, with what they hold before. -/
structure Locals where
  uninit : Uninit
  stringTab : ℕ
  symTab : ℕ
  entry : ℕ

abbrev LoadM (σ : Type) := EStateM ℤ (World σ)

section Model

variable {σ : Type} (f : File σ) (newAddr : List ℕ → ℕ → ℕ)

def seek (offset : ℕ) : LoadM σ Unit := fun w =>
  let r := f.seek w.file offset
  let w := { w with file := r.2 }
  if r.1 ≠ 0 then .error r.1 w else .ok () w

/-- A read into a local variable or a buffer on the heap. -/
def read (len : ℕ) : LoadM σ (List UInt8) := fun w =>
  let r := f.read w.file len
  let w := { w with file := r.2.2 }
  if r.1 ≠ 0 then .error r.1 w else .ok r.2.1 w

/-- A read to an address of the application. -/
def readTo (addr len : ℕ) : LoadM σ Unit := fun w =>
  let r := f.read w.file len
  let w := { w with file := r.2.2, mem := put w.mem addr r.2.1 }
  if r.1 ≠ 0 then .error r.1 w else .ok () w

def close : LoadM σ Unit := fun w =>
  let r := f.close w.file
  let w := { w with file := r.2 }
  if r.1 ≠ 0 then .error r.1 w else .ok () w

def kmalloc (size : ℕ) : LoadM σ ℕ := fun w =>
  let addr := newAddr w.allocated size
  .ok addr { w with allocated := addr :: w.allocated }

def kfree (addr : ℕ) : LoadM σ Unit := fun w => .ok () { w with freed := addr :: w.freed }

def createUsrCfsTask (entry : ℕ) : LoadM σ Unit := fun w => .ok () { w with entries := entry :: w.entries }

/-- The loop over the program headers, with `n` of them left. -/
def loadSegments (baseAddr : ℕ) (ehdr : Ehdr) : ℕ → ℕ → Phdr → LoadM σ Unit
  | 0, _, _ => pure ()
  | n + 1, i, phdr => do
      seek f (ehdr.phdrOffset i)
      let bs ← read f ehdr.phentsize
      let phdr : Phdr := ⟨put phdr.bytes 0 bs⟩
      if phdr.type ≠ ptLoad then loadSegments baseAddr ehdr n (i + 1) phdr
      else if phdr.filesz = 0 then loadSegments baseAddr ehdr n (i + 1) phdr
      else do
        seek f phdr.offset
        readTo f (u32 (baseAddr + phdr.vaddr)) phdr.filesz
        loadSegments baseAddr ehdr n (i + 1) phdr

/-- The loop over the section headers, with `n` of them left. It leaves `string_tab`, `sym_tab` and `entry`. -/
def findEntry (baseAddr : ℕ) (ehdr : Ehdr) (locals : Locals) : ℕ → ℕ → Shdr → LoadM σ (ℕ × ℕ × ℕ)
  | 0, _, _ => pure (locals.stringTab, locals.symTab, locals.entry)
  | n + 1, i, shdr => do
      seek f (ehdr.shdrOffset i)
      let bs ← read f ehdr.shentsize
      let shdr : Shdr := ⟨put shdr.bytes 0 bs⟩
      if shdr.type = shtSymtab then do
        seek f (ehdr.shdrOffset shdr.link)
        let bs ← read f ehdr.shentsize
        let strShdr : Shdr := ⟨put locals.uninit.strShdr 0 bs⟩
        let stringTab ← kmalloc newAddr strShdr.size
        seek f strShdr.offset
        let strings ← read f strShdr.size
        let symTab ← kmalloc newAddr shdr.size
        seek f shdr.offset
        let symbols ← read f shdr.size
        let main := findMain baseAddr (put locals.uninit.strings 0 strings) (put locals.uninit.symbols 0 symbols)
          (shdr.size / symSize) 0
        pure (stringTab, symTab, main.getD locals.entry)
      else findEntry baseAddr ehdr locals n (i + 1) shdr

def loadApp (locals : Locals) (appIdx : ℕ) : LoadM σ Unit := do
  let bs ← read f ehdrSize
  let ehdr : Ehdr := ⟨put locals.uninit.ehdr 0 bs⟩
  loadSegments f (baseAddr appIdx) ehdr ehdr.phnum 0 ⟨locals.uninit.phdr⟩
  let (stringTab, symTab, entry) ← findEntry f newAddr (baseAddr appIdx) ehdr locals ehdr.shnum 0 ⟨locals.uninit.shdr⟩
  kfree stringTab
  kfree symTab
  close f
  createUsrCfsTask entry

/-- `fsOpen` is the status of the open and the state it leaves. -/
def loadRamdiskApp (fsOpen : ℤ × σ) (locals : Locals) (appIdx : ℕ) (mem : Mem) : EStateM.Result ℤ (World σ) Unit :=
  let w : World σ := ⟨fsOpen.2, mem, [], [], []⟩
  if maxUsrTask ≤ appIdx then .error userAppMaxErr w
  else if fsOpen.1 ≠ 0 then .error fsOpen.1 w
  else loadApp f newAddr locals appIdx w

end Model

/-! ### What the file says -/

section Format

variable (c : List UInt8)

def ehdr : Ehdr := ⟨ofBytes c⟩

def phdr (i : ℕ) : Phdr := ⟨fun x => ofBytes c ((ehdr c).phoff + i * phdrSize + x)⟩

def shdr (i : ℕ) : Shdr := ⟨fun x => ofBytes c ((ehdr c).shoff + i * shdrSize + x)⟩

def memsz (p : Phdr) : ℕ := word p.bytes 20

/-- `st_name` and `st_value` of symbol `k` of section `i`. -/
def symName (i k : ℕ) : ℕ := word (ofBytes c) ((shdr c i).offset + k * symSize)

def symValue (i k : ℕ) : ℕ := word (ofBytes c) ((shdr c i).offset + (k * symSize + 4))

def strings (i : ℕ) : Shdr := shdr c (shdr c i).link

/-- Symbol `k` of the symbol table in section `i` is named `main`. -/
def IsMain (i k : ℕ) : Prop :=
  (i < (ehdr c).shnum ∧ (shdr c i).type = shtSymtab) ∧ k < (shdr c i).size / symSize ∧
    bytes (ofBytes c) ((strings c i).offset + symName c i k) mainName.length = mainName

def IsSegment (i : ℕ) : Prop := i < (ehdr c).phnum ∧ (phdr c i).type = ptLoad

def Occupies (i x : ℕ) : Prop := (phdr c i).vaddr ≤ x ∧ x < (phdr c i).vaddr + memsz (phdr c i)

/-- The section is a symbol table in the file, its names in a string table in the file that ends with a NUL. -/
structure Symtab (i : ℕ) : Prop where
  inside : (shdr c i).offset + (shdr c i).size ≤ c.length
  link : (shdr c i).link < (ehdr c).shnum
  table : (strings c i).offset + (strings c i).size ≤ c.length
  names : ∀ k < (shdr c i).size / symSize, symName c i k < (strings c i).size
  closed : 0 < (strings c i).size → ofBytes c ((strings c i).offset + ((strings c i).size - 1)) = 0

structure WellFormed : Prop where
  fits : c.length < Word.size
  header : ehdrSize ≤ c.length
  phentsize : (ehdr c).phentsize = phdrSize
  shentsize : (ehdr c).shentsize = shdrSize
  phdrs : (ehdr c).phoff + (ehdr c).phnum * phdrSize ≤ c.length
  shdrs : (ehdr c).shoff + (ehdr c).shnum * shdrSize ≤ c.length
  segments : ∀ i, IsSegment c i → (phdr c i).offset + (phdr c i).filesz ≤ c.length ∧
    (phdr c i).filesz ≤ memsz (phdr c i) ∧ (phdr c i).vaddr + memsz (phdr c i) ≤ userAppGap
  disjoint : ∀ i j, IsSegment c i → IsSegment c j → ∀ x, Occupies c i x → Occupies c j x → i = j
  symtab : ∀ i < (ehdr c).shnum, (shdr c i).type = shtSymtab → Symtab c i
  single : ∀ i < (ehdr c).shnum, ∀ j < (ehdr c).shnum,
    (shdr c i).type = shtSymtab → (shdr c j).type = shtSymtab → i = j

/-- Every segment is in memory, with zeros behind the bytes of the file. -/
def Loaded (mem : Mem) : Prop := ∀ i, IsSegment c i → ∀ x < memsz (phdr c i),
  mem (baseAddr 0 + (phdr c i).vaddr + x) =
    if x < (phdr c i).filesz then ofBytes c ((phdr c i).offset + x) else 0

/-- The one task that was created starts at `main`. -/
def StartsMain {σ : Type} (w : World σ) : Prop :=
  ∃ i k, IsMain c i k ∧ w.entries = [u32 (baseAddr 0 + symValue c i k)]

/-- The load failed, without a task and without freeing what was not allocated. -/
def Refused {σ : Type} (r : EStateM.Result ℤ (World σ) Unit) : Prop :=
  ∃ e w, r = .error e w ∧ w.entries = [] ∧ ∀ a ∈ w.freed, a ∈ w.allocated

structure Law {σ : Type} (r : EStateM.Result ℤ (World σ) Unit) : Prop where
  loaded : ∀ w, r = .ok () w → Loaded c w.mem
  main : ∀ w, r = .ok () w → StartsMain c w
  refused : (∀ i k, ¬ IsMain c i k) → Refused r

/-- The memory behind the bytes of each segment is zero already. -/
def Clear (mem : Mem) : Prop := ∀ i, IsSegment c i → ∀ x < memsz (phdr c i), (phdr c i).filesz ≤ x →
  mem (baseAddr 0 + (phdr c i).vaddr + x) = 0

end Format

/-- The file system delivers the bytes of the file: `At s p` is a state of the open file with position `p`. -/
structure Serves {σ : Type} (f : File σ) (c : List UInt8) (At : σ → ℕ → Prop) : Prop where
  seek : ∀ s p offset, At s p → offset ≤ c.length → (f.seek s offset).1 = 0 ∧ At (f.seek s offset).2 offset
  read : ∀ s p len, At s p → p + len ≤ c.length →
    (f.read s len).1 = 0 ∧ (f.read s len).2.1 = bytes (ofBytes c) p len ∧ At (f.read s len).2.2 (p + len)
  close : ∀ s p, At s p → (f.close s).1 = 0

/-! ### Running the loader -/

section Fields

variable {c : List UInt8} {u : Mem} {offset len a : ℕ}

theorem put_file {x : ℕ} (hx : x < len) : put u 0 (bytes (ofBytes c) offset len) x = ofBytes c (offset + x) := by
  rw [put_bytes, if_pos ⟨Nat.zero_le x, by omega⟩, Nat.sub_zero]

theorem word_file (h : a + 4 ≤ len) :
    word (put u 0 (bytes (ofBytes c) offset len)) a = word (fun x => ofBytes c (offset + x)) a :=
  word_congr fun _ _ hx => put_file (by omega)

theorem half_file (h : a + 2 ≤ len) :
    half (put u 0 (bytes (ofBytes c) offset len)) a = half (fun x => ofBytes c (offset + x)) a := by
  rw [half, half, put_file (by omega), put_file (by omega)]

/-- The loader's copy of the header says what the file says. -/
structure SameHeader (c : List UInt8) (e : Ehdr) : Prop where
  phoff : e.phoff = (ehdr c).phoff
  shoff : e.shoff = (ehdr c).shoff
  phentsize : e.phentsize = (ehdr c).phentsize
  phnum : e.phnum = (ehdr c).phnum
  shentsize : e.shentsize = (ehdr c).shentsize
  shnum : e.shnum = (ehdr c).shnum

theorem sameHeader (c : List UInt8) (u : Mem) : SameHeader c ⟨put u 0 (bytes (ofBytes c) 0 ehdrSize)⟩ := by
  have hshift : (fun x => ofBytes c (0 + x)) = ofBytes c := funext fun x => by rw [Nat.zero_add]
  constructor
  · exact (word_file (by decide)).trans (by rw [hshift]; rfl)
  · exact (word_file (by decide)).trans (by rw [hshift]; rfl)
  · exact (half_file (by decide)).trans (by rw [hshift]; rfl)
  · exact (half_file (by decide)).trans (by rw [hshift]; rfl)
  · exact (half_file (by decide)).trans (by rw [hshift]; rfl)
  · exact (half_file (by decide)).trans (by rw [hshift]; rfl)

theorem phdrOffset_eq {e : Ehdr} (h : SameHeader c e) (hwf : WellFormed c) {i : ℕ} (hi : i < (ehdr c).phnum) :
    e.phdrOffset i = (ehdr c).phoff + i * phdrSize ∧ e.phdrOffset i + phdrSize ≤ c.length := by
  have hend : (ehdr c).phoff + (i + 1) * phdrSize ≤ c.length :=
    (Nat.add_le_add_left (Nat.mul_le_mul_right _ hi) _).trans hwf.phdrs
  have hfits := hwf.fits
  rw [Nat.succ_mul] at hend
  have hlow : (ehdr c).phoff + i * phdrSize < Word.size := by omega
  rw [Ehdr.phdrOffset, h.phoff, h.phentsize, hwf.phentsize, u32_of_lt hlow]
  exact ⟨rfl, by omega⟩

theorem shdrOffset_eq {e : Ehdr} (h : SameHeader c e) (hwf : WellFormed c) {i : ℕ} (hi : i < (ehdr c).shnum) :
    e.shdrOffset i = (ehdr c).shoff + i * shdrSize ∧ e.shdrOffset i + shdrSize ≤ c.length := by
  have hend : (ehdr c).shoff + (i + 1) * shdrSize ≤ c.length :=
    (Nat.add_le_add_left (Nat.mul_le_mul_right _ hi) _).trans hwf.shdrs
  have hfits := hwf.fits
  rw [Nat.succ_mul] at hend
  have hlow : (ehdr c).shoff + i * shdrSize < Word.size := by omega
  rw [Ehdr.shdrOffset, h.shoff, h.shentsize, hwf.shentsize, u32_of_lt hlow]
  exact ⟨rfl, by omega⟩

end Fields

section Calls

variable {σ α β : Type} {f : File σ} {c : List UInt8} {At : σ → ℕ → Prop} {w w' : World σ} {p offset len : ℕ}

theorem bind_of_ok {x : LoadM σ α} {g : α → LoadM σ β} {a : α} (h : x w = .ok a w') : (x >>= g) w = g a w' := by
  simp only [bind, EStateM.bind, h]

theorem seek_run (hs : Serves f c At) (hat : At w.file p) (ho : offset ≤ c.length) :
    ∃ s, At s offset ∧ seek f offset w = .ok () { w with file := s } := by
  obtain ⟨hstatus, hat'⟩ := hs.seek w.file p offset hat ho
  refine ⟨_, hat', ?_⟩
  rw [seek, if_neg (not_not.mpr hstatus)]

theorem read_run (hs : Serves f c At) (hat : At w.file p) (hlen : p + len ≤ c.length) :
    ∃ s, At s (p + len) ∧ read f len w = .ok (bytes (ofBytes c) p len) { w with file := s } := by
  obtain ⟨hstatus, hbytes, hat'⟩ := hs.read w.file p len hat hlen
  refine ⟨_, hat', ?_⟩
  rw [read, if_neg (not_not.mpr hstatus), hbytes]

theorem readTo_run (addr : ℕ) (hs : Serves f c At) (hat : At w.file p) (hlen : p + len ≤ c.length) :
    ∃ s, At s (p + len) ∧ readTo f addr len w =
      .ok () { w with file := s, mem := put w.mem addr (bytes (ofBytes c) p len) } := by
  obtain ⟨hstatus, hbytes, hat'⟩ := hs.read w.file p len hat hlen
  refine ⟨_, hat', ?_⟩
  rw [readTo, if_neg (not_not.mpr hstatus), hbytes]

theorem close_run (hs : Serves f c At) (hat : At w.file p) :
    ∃ s, close f w = .ok () { w with file := s } := by
  refine ⟨(f.close w.file).2, ?_⟩
  rw [close, if_neg (not_not.mpr (hs.close w.file p hat))]

/-- A seek and the read behind it. -/
theorem fetch_run {g : List UInt8 → LoadM σ β} (hs : Serves f c At) (hat : At w.file p)
    (hlen : offset + len ≤ c.length) : ∃ s, At s (offset + len) ∧ (do seek f offset; let bs ← read f len; g bs) w =
      g (bytes (ofBytes c) offset len) { w with file := s } := by
  obtain ⟨s, hat', hseek⟩ := seek_run hs hat (by omega : offset ≤ c.length)
  obtain ⟨s', hat'', hread⟩ := read_run (w := { w with file := s }) hs hat' hlen
  exact ⟨s', hat'', by rw [bind_of_ok hseek, bind_of_ok hread]⟩

end Calls

section Segments

variable {σ : Type} {f : File σ} {c : List UInt8} {At : σ → ℕ → Prop} {w : World σ} {m : Mem} {p n i : ℕ}

/-- Where the bytes of a segment go. -/
def place (c : List UInt8) (i : ℕ) (m : Mem) : Mem :=
  if (phdr c i).type = ptLoad then
    put m (baseAddr 0 + (phdr c i).vaddr) (bytes (ofBytes c) (phdr c i).offset (phdr c i).filesz)
  else m

/-- The `n` segments from `i` on, one after the other. -/
def image (c : List UInt8) : ℕ → ℕ → Mem → Mem
  | 0, _, m => m
  | n + 1, i, m => image c n (i + 1) (place c i m)

theorem place_of_not {x : ℕ} (h : (phdr c i).type = ptLoad → x < baseAddr 0 + (phdr c i).vaddr ∨
    baseAddr 0 + (phdr c i).vaddr + (phdr c i).filesz ≤ x) : place c i m x = m x := by
  rw [place]
  split_ifs with htype
  · apply put_of_notMem
    rw [bytes_length]
    exact h htype
  · rfl

theorem place_self {x : ℕ} (htype : (phdr c i).type = ptLoad) (hx : x < (phdr c i).filesz) :
    place c i m (baseAddr 0 + (phdr c i).vaddr + x) = ofBytes c ((phdr c i).offset + x) := by
  rw [place, if_pos htype, put_bytes, if_pos ⟨Nat.le_add_right _ _, by omega⟩, Nat.add_sub_cancel_left]

theorem image_of_not {x : ℕ} (h : ∀ k, i ≤ k → k < i + n → (phdr c k).type = ptLoad →
    x < baseAddr 0 + (phdr c k).vaddr ∨ baseAddr 0 + (phdr c k).vaddr + (phdr c k).filesz ≤ x) :
    image c n i m x = m x := by
  induction n generalizing i m with
  | zero => rfl
  | succ n ih =>
      rw [image, ih fun k hk hlt => h k (by omega) (by omega)]
      exact place_of_not (h i le_rfl (by omega))

/-- The file part of a segment stays where it was put, as the segments are disjoint. -/
theorem image_self (hwf : WellFormed c) (hin : i + n ≤ (ehdr c).phnum) {k x : ℕ} (hik : i ≤ k) (hkn : k < i + n)
    (hk : IsSegment c k) (hx : x < (phdr c k).filesz) :
    image c n i m (baseAddr 0 + (phdr c k).vaddr + x) = ofBytes c ((phdr c k).offset + x) := by
  induction n generalizing i m with
  | zero => omega
  | succ n ih =>
      rw [image]
      rcases Nat.eq_or_lt_of_le hik with rfl | hlt
      · rw [image_of_not, place_self hk.2 hx]
        intro j hj hjn htype
        by_contra hinside
        have hjseg : IsSegment c j := ⟨by omega, htype⟩
        have hsize := (hwf.segments i hk).2.1
        have hjsize := (hwf.segments j hjseg).2.1
        have hsame := hwf.disjoint i j hk hjseg ((phdr c i).vaddr + x) ⟨Nat.le_add_right _ _, by omega⟩
          ⟨by omega, by omega⟩
        omega
      · exact ih (by omega) (by omega) (by omega)

/-- Nothing is put behind the file part of a segment. -/
theorem image_behind (hwf : WellFormed c) {k x : ℕ} (hk : IsSegment c k) (hx : x < memsz (phdr c k))
    (hfile : (phdr c k).filesz ≤ x) :
    image c (ehdr c).phnum 0 m (baseAddr 0 + (phdr c k).vaddr + x) = m (baseAddr 0 + (phdr c k).vaddr + x) := by
  apply image_of_not
  intro j _ hj htype
  by_contra hinside
  have hjseg : IsSegment c j := ⟨by omega, htype⟩
  have hjsize := (hwf.segments j hjseg).2.1
  have hsame := hwf.disjoint k j hk hjseg ((phdr c k).vaddr + x) ⟨Nat.le_add_right _ _, by omega⟩ ⟨by omega, by omega⟩
  subst hsame
  omega

/-- The loader's copy of a program header says what the file says. -/
theorem phdr_fields {u : Mem} {offset : ℕ} (ho : offset = (ehdr c).phoff + i * phdrSize) :
    (⟨put u 0 (bytes (ofBytes c) offset phdrSize)⟩ : Phdr).type = (phdr c i).type ∧
      (⟨put u 0 (bytes (ofBytes c) offset phdrSize)⟩ : Phdr).offset = (phdr c i).offset ∧
      (⟨put u 0 (bytes (ofBytes c) offset phdrSize)⟩ : Phdr).vaddr = (phdr c i).vaddr ∧
      (⟨put u 0 (bytes (ofBytes c) offset phdrSize)⟩ : Phdr).filesz = (phdr c i).filesz := by
  subst ho
  exact ⟨word_file (by decide), word_file (by decide), word_file (by decide), word_file (by decide)⟩

theorem loadSegments_run (hs : Serves f c At) (hwf : WellFormed c) {e : Ehdr} (he : SameHeader c e)
    (hin : i + n = (ehdr c).phnum) (u : Phdr) (hat : At w.file p) : ∃ s p', At s p' ∧
      loadSegments f (baseAddr 0) e n i u w = .ok () { w with file := s, mem := image c n i w.mem } := by
  induction n generalizing i u w p with
  | zero => exact ⟨w.file, p, hat, rfl⟩
  | succ n ih =>
      obtain ⟨hoffset, hinside⟩ := phdrOffset_eq he hwf (by omega : i < (ehdr c).phnum)
      rw [loadSegments, he.phentsize, hwf.phentsize]
      obtain ⟨s₁, hat₁, hfetch⟩ := fetch_run hs hat hinside
      rw [hfetch]
      obtain ⟨htype, hoff, hvaddr, hfilesz⟩ := phdr_fields (u := u.bytes) hoffset
      generalize (⟨put u.bytes 0 (bytes (ofBytes c) (e.phdrOffset i) phdrSize)⟩ : Phdr) = q at htype hoff hvaddr hfilesz ⊢
      rw [htype, hoff, hvaddr, hfilesz]
      by_cases hload : (phdr c i).type = ptLoad
      · rw [if_neg (not_not.mpr hload)]
        by_cases hzero : (phdr c i).filesz = 0
        · have hplace : place c i w.mem = w.mem := by
            rw [place, if_pos hload, hzero]
            exact put_nil
          rw [if_pos hzero, image, hplace]
          exact ih (w := { w with file := s₁ }) (by omega) q hat₁
        · rw [if_neg hzero]
          have hseg : IsSegment c i := ⟨by omega, hload⟩
          obtain ⟨hfile, hsize, hwindow⟩ := hwf.segments i hseg
          obtain ⟨s₂, hat₂, hseek⟩ := seek_run (w := { w with file := s₁ }) hs hat₁
            (by omega : (phdr c i).offset ≤ c.length)
          have haddr : u32 (baseAddr 0 + (phdr c i).vaddr) = baseAddr 0 + (phdr c i).vaddr := by
            apply u32_of_lt
            have hbase : baseAddr 0 = userAppBase := by decide
            rw [hbase]
            unfold userAppBase Word.size
            unfold userAppGap at hwindow
            omega
          obtain ⟨s₃, hat₃, hread⟩ := readTo_run (w := { w with file := s₂ })
            (u32 (baseAddr 0 + (phdr c i).vaddr)) hs hat₂ hfile
          rw [bind_of_ok hseek, bind_of_ok hread, haddr, image, place, if_pos hload]
          exact ih (w := ⟨s₃, put w.mem (baseAddr 0 + (phdr c i).vaddr)
            (bytes (ofBytes c) (phdr c i).offset (phdr c i).filesz), w.allocated, w.freed, w.entries⟩) (by omega) q hat₃
      · rw [if_pos hload, image, place, if_neg hload]
        exact ih (w := { w with file := s₁ }) (by omega) q hat₁

end Segments

section Symbols

variable {c : List UInt8} {i k : ℕ} {u v : Mem}

/-- The loader's copy of a section header says what the file says. -/
theorem shdr_fields {offset : ℕ} (ho : offset = (ehdr c).shoff + i * shdrSize) :
    (⟨put u 0 (bytes (ofBytes c) offset shdrSize)⟩ : Shdr).type = (shdr c i).type ∧
      (⟨put u 0 (bytes (ofBytes c) offset shdrSize)⟩ : Shdr).offset = (shdr c i).offset ∧
      (⟨put u 0 (bytes (ofBytes c) offset shdrSize)⟩ : Shdr).size = (shdr c i).size ∧
      (⟨put u 0 (bytes (ofBytes c) offset shdrSize)⟩ : Shdr).link = (shdr c i).link := by
  subst ho
  exact ⟨word_file (by decide), word_file (by decide), word_file (by decide), word_file (by decide)⟩

def Named (strings symbols : Mem) (k : ℕ) : Prop :=
  bytes strings (word symbols (k * symSize)) mainName.length = mainName

/-- The loop finds the first symbol named `main`. -/
theorem findMain_spec (base : ℕ) (strings symbols : Mem) (n j : ℕ) : (∃ k, j ≤ k ∧ k < j + n ∧ Named strings symbols k ∧
      findMain base strings symbols n j = some (u32 (base + word symbols (k * symSize + 4)))) ∨
    (∀ k, j ≤ k → k < j + n → ¬ Named strings symbols k) ∧ findMain base strings symbols n j = none := by
  induction n generalizing j with
  | zero => exact Or.inr ⟨fun k hk hlt => absurd hlt (Nat.not_lt.mpr hk), rfl⟩
  | succ n ih =>
      rw [findMain]
      by_cases hnamed : bytes strings (word symbols (j * symSize)) mainName.length = mainName
      · rw [if_pos hnamed]
        exact Or.inl ⟨j, le_rfl, by omega, hnamed, rfl⟩
      · rw [if_neg hnamed]
        rcases ih (j + 1) with ⟨k, hk, hlt, hmain, heq⟩ | ⟨hnone, heq⟩
        · exact Or.inl ⟨k, by omega, by omega, hmain, heq⟩
        · refine Or.inr ⟨fun k hk hlt => ?_, heq⟩
          rcases Nat.eq_or_lt_of_le hk with rfl | hjk
          · exact hnamed
          · exact hnone k hjk (by omega)

/-- A string table that ends with a NUL names the same symbols in its buffer as in the file. -/
theorem named_iff (hsym : Symtab c i) (hk : k < (shdr c i).size / symSize) :
    Named (put u 0 (bytes (ofBytes c) (Image.strings c i).offset (Image.strings c i).size))
        (put v 0 (bytes (ofBytes c) (shdr c i).offset (shdr c i).size)) k ↔
      bytes (ofBytes c) ((Image.strings c i).offset + symName c i k) mainName.length = mainName := by
  have hsize : k * symSize + symSize ≤ (shdr c i).size := by
    have hmul := Nat.mul_le_of_le_div symSize (k + 1) (shdr c i).size hk
    rw [Nat.succ_mul] at hmul
    exact hmul
  have hname : word (put v 0 (bytes (ofBytes c) (shdr c i).offset (shdr c i).size)) (k * symSize) = symName c i k := by
    have hfour : k * symSize + 4 ≤ (shdr c i).size := by
      unfold symSize at hsize ⊢
      omega
    rw [word_file hfour, symName]
    exact word_shift fun x _ => by rw [Nat.add_assoc]
  have hlen : mainName.length = 5 := rfl
  rw [Named, hname, hlen]
  have hin := hsym.names k hk
  by_cases hfits : symName c i k + 5 ≤ (Image.strings c i).size
  · have hsame : bytes (put u 0 (bytes (ofBytes c) (Image.strings c i).offset (Image.strings c i).size))
        (symName c i k) 5 = bytes (ofBytes c) ((Image.strings c i).offset + symName c i k) 5 := by
      apply bytes_shift
      intro x hx
      rw [put_file (by omega), Nat.add_assoc]
    rw [hsame]
  · -- The NUL at the end of the table comes before the fifth letter, so neither side is the name.
    obtain ⟨d, hd⟩ : ∃ d, d = (Image.strings c i).size - 1 - symName c i k := ⟨_, rfl⟩
    have hd4 : d < 4 := by omega
    have hzero : ofBytes c ((Image.strings c i).offset + (symName c i k + d)) = 0 := by
      have hlast := hsym.closed (by omega)
      rwa [show (Image.strings c i).size - 1 = symName c i k + d by omega] at hlast
    have hnot : mainName[d]? ≠ some 0 := by
      intro hm
      obtain rfl | rfl | rfl | rfl : d = 0 ∨ d = 1 ∨ d = 2 ∨ d = 3 := by omega
      all_goals exact absurd hm (by decide)
    constructor
    · intro h
      have hbyte := getElem?_bytes (m := put u 0 (bytes (ofBytes c) (Image.strings c i).offset (Image.strings c i).size))
        (a := symName c i k) (by omega : d < 5)
      rw [h, put_file (by omega), hzero] at hbyte
      exact absurd hbyte hnot
    · intro h
      have hbyte := getElem?_bytes (m := ofBytes c) (a := (Image.strings c i).offset + symName c i k) (by omega : d < 5)
      rw [h, Nat.add_assoc, hzero] at hbyte
      exact absurd hbyte hnot

end Symbols

/-- The entry the loader comes to is that of `main`, if there is one. -/
def EntryOf (c : List UInt8) (entry : ℕ) : Prop :=
  (∃ i k, IsMain c i k ∧ entry = u32 (baseAddr 0 + symValue c i k)) ∨ ∀ i k, ¬ IsMain c i k

section Run

variable {σ : Type} {f : File σ} {c : List UInt8} {At : σ → ℕ → Prop} {w : World σ} {p n i : ℕ}

/-- What the symbol table of section `i` gives. -/
theorem entryOf_symtab (hwf : WellFormed c) (hi : i < (ehdr c).shnum) (htype : (shdr c i).type = shtSymtab)
    (u v : Mem) (entry : ℕ) :
    EntryOf c ((findMain (baseAddr 0) (put u 0 (bytes (ofBytes c) (strings c i).offset (strings c i).size))
      (put v 0 (bytes (ofBytes c) (shdr c i).offset (shdr c i).size)) ((shdr c i).size / symSize) 0).getD entry) := by
  have hsym := hwf.symtab i hi htype
  rcases findMain_spec (baseAddr 0) (put u 0 (bytes (ofBytes c) (strings c i).offset (strings c i).size))
    (put v 0 (bytes (ofBytes c) (shdr c i).offset (shdr c i).size)) ((shdr c i).size / symSize) 0 with ⟨k, -, hlt, hnamed, heq⟩ | ⟨hnone, -⟩
  · rw [Nat.zero_add] at hlt
    refine Or.inl ⟨i, k, ⟨⟨hi, htype⟩, hlt, (named_iff hsym hlt).mp hnamed⟩, ?_⟩
    rw [heq, Option.getD_some]
    have hsize : k * symSize + symSize ≤ (shdr c i).size := by
      have hmul := Nat.mul_le_of_le_div symSize (k + 1) (shdr c i).size hlt
      rw [Nat.succ_mul] at hmul
      exact hmul
    have hfour : k * symSize + 4 + 4 ≤ (shdr c i).size := by
      unfold symSize at hsize ⊢
      omega
    rw [word_file hfour, symValue]
    congr 2
  · refine Or.inr fun i' k hmain => ?_
    obtain rfl := hwf.single i hi i' hmain.1.1 htype hmain.1.2
    exact hnone k (Nat.zero_le k) (by rw [Nat.zero_add]; exact hmain.2.1) ((named_iff hsym hmain.2.1).mpr hmain.2.2)

theorem findEntry_run (newAddr : List ℕ → ℕ → ℕ) (hs : Serves f c At) (hwf : WellFormed c) {e : Ehdr} (he : SameHeader c e) (locals : Locals)
    (hin : i + n = (ehdr c).shnum) (hbefore : ∀ k < i, (shdr c k).type ≠ shtSymtab) (u : Shdr) (hat : At w.file p) :
    ∃ s p' allocated stringTab symTab entry, At s p' ∧ EntryOf c entry ∧
      findEntry f newAddr (baseAddr 0) e locals n i u w =
        .ok (stringTab, symTab, entry) { w with file := s, allocated := allocated } := by
  induction n generalizing i u w p with
  | zero =>
      refine ⟨w.file, p, w.allocated, locals.stringTab, locals.symTab, locals.entry, hat, Or.inr fun j k hmain => ?_, rfl⟩
      exact hbefore j (by have := hmain.1.1; omega) hmain.1.2
  | succ n ih =>
      have hi : i < (ehdr c).shnum := by omega
      obtain ⟨hoffset, hinside⟩ := shdrOffset_eq he hwf hi
      rw [findEntry, he.shentsize, hwf.shentsize]
      obtain ⟨s₁, hat₁, hfetch⟩ := fetch_run hs hat hinside
      rw [hfetch]
      obtain ⟨htype, hoff, hsize, hlink⟩ := shdr_fields (u := u.bytes) hoffset
      generalize (⟨put u.bytes 0 (bytes (ofBytes c) (e.shdrOffset i) shdrSize)⟩ : Shdr) = q at htype hoff hsize hlink ⊢
      rw [htype, hoff, hsize, hlink]
      by_cases hsymtab : (shdr c i).type = shtSymtab
      · have hsym := hwf.symtab i hi hsymtab
        obtain ⟨hoffset', hinside'⟩ := shdrOffset_eq he hwf hsym.link
        obtain ⟨s₂, hat₂, hfetch₂⟩ := fetch_run (w := { w with file := s₁ }) hs hat₁ hinside'
        rw [if_pos hsymtab, hfetch₂]
        obtain ⟨-, hoff', hsize', -⟩ := shdr_fields (u := locals.uninit.strShdr) hoffset'
        generalize (⟨put locals.uninit.strShdr 0 (bytes (ofBytes c) (e.shdrOffset (shdr c i).link) shdrSize)⟩ : Shdr) = r
          at hoff' hsize' ⊢
        rw [hoff', hsize']
        obtain ⟨s₃, hat₃, hfetch₃⟩ := fetch_run (w := ⟨s₂, w.mem, newAddr w.allocated (strings c i).size :: w.allocated,
          w.freed, w.entries⟩) hs hat₂ hsym.table
        rw [bind_of_ok (x := kmalloc newAddr (shdr c (shdr c i).link).size) rfl]
        rw [show shdr c (shdr c i).link = strings c i from rfl, hfetch₃]
        obtain ⟨s₄, hat₄, hfetch₄⟩ := fetch_run (w := ⟨s₃, w.mem, newAddr (newAddr w.allocated (strings c i).size ::
          w.allocated) (shdr c i).size :: newAddr w.allocated (strings c i).size :: w.allocated,
          w.freed, w.entries⟩) hs hat₃ hsym.inside
        rw [bind_of_ok (x := kmalloc newAddr (shdr c i).size) rfl, hfetch₄]
        exact ⟨s₄, _, _, _, _, _, hat₄, entryOf_symtab hwf hi hsymtab _ _ _, rfl⟩
      · rw [if_neg hsymtab]
        refine ih (w := { w with file := s₁ }) (by omega) ?_ q hat₁
        intro k hk
        rcases Nat.eq_or_lt_of_le (Nat.le_of_lt_succ hk) with rfl | hlt
        · exact hsymtab
        · exact hbefore k hlt

/-- On a well-formed file the loader always gets through. -/
theorem loadApp_run (newAddr : List ℕ → ℕ → ℕ) (hs : Serves f c At) (hwf : WellFormed c) (locals : Locals) (hat : At w.file 0) :
    ∃ w' entry, loadApp f newAddr locals 0 w = .ok () w' ∧ w'.mem = image c (ehdr c).phnum 0 w.mem ∧
      w'.entries = entry :: w.entries ∧ EntryOf c entry := by
  rw [loadApp]
  obtain ⟨s₁, hat₁, hread⟩ := read_run hs hat (by rw [Nat.zero_add]; exact hwf.header : 0 + ehdrSize ≤ c.length)
  rw [bind_of_ok hread]
  have he := sameHeader c locals.uninit.ehdr
  generalize (⟨put locals.uninit.ehdr 0 (bytes (ofBytes c) 0 ehdrSize)⟩ : Ehdr) = e at he ⊢
  rw [he.phnum, he.shnum]
  obtain ⟨s₂, p₂, hat₂, hsegments⟩ := loadSegments_run (w := { w with file := s₁ }) hs hwf he (Nat.zero_add _)
    ⟨locals.uninit.phdr⟩ hat₁
  rw [bind_of_ok hsegments]
  obtain ⟨s₃, p₃, allocated, stringTab, symTab, entry, hat₃, hentry, hfind⟩ := findEntry_run newAddr
    (w := ⟨s₂, image c (ehdr c).phnum 0 w.mem, w.allocated, w.freed, w.entries⟩) hs hwf he locals (Nat.zero_add _)
    (fun k hk => absurd hk (Nat.not_lt_zero k)) ⟨locals.uninit.shdr⟩ hat₂
  rw [bind_of_ok hfind]
  obtain ⟨s₄, hclose⟩ := close_run (w := ⟨s₃, image c (ehdr c).phnum 0 w.mem, allocated, symTab :: stringTab :: w.freed,
    w.entries⟩) hs hat₃
  refine ⟨⟨s₄, image c (ehdr c).phnum 0 w.mem, allocated, symTab :: stringTab :: w.freed, entry :: w.entries⟩, entry, ?_,
    rfl, rfl, hentry⟩
  change (do close f; createUsrCfsTask entry) (⟨s₃, image c (ehdr c).phnum 0 w.mem, allocated,
    symTab :: stringTab :: w.freed, w.entries⟩ : World σ) = _
  rw [bind_of_ok hclose]
  rfl

theorem loaded_image_iff (hwf : WellFormed c) (mem : Mem) :
    Loaded c (image c (ehdr c).phnum 0 mem) ↔ Clear c mem := by
  constructor
  · intro h i hi x hx hfile
    rw [← image_behind (m := mem) hwf hi hx hfile, h i hi x hx, if_neg (Nat.not_lt.mpr hfile)]
  · intro h i hi x hx
    rcases Nat.lt_or_ge x (phdr c i).filesz with hlt | hge
    · rw [if_pos hlt]
      exact image_self hwf (Nat.zero_add _).le (Nat.zero_le i) (by rw [Nat.zero_add]; exact hi.1) hi hlt
    · rw [if_neg (Nat.not_lt.mpr hge), image_behind hwf hi hx hge]
      exact h i hi x hx hge

end Run

/-! ### The two accounts of the loader -/

section Follows

variable {σ α β γ δ : Type} {f : File σ} {x : LoggedRun.Logged Read σ ℤ α} {y : LoadM σ β} {made : α → List ℕ}
  {R : α → β → Prop}

/-- `y` fails where `x` does; with a result it leaves the same file and has created the tasks that `made` says. -/
def Follows (x : LoggedRun.Logged Read σ ℤ α) (y : LoadM σ β) (made : α → List ℕ) (R : α → β → Prop) : Prop :=
  ∀ w, match (x w.file).2 with
    | .ok (a, s) => ∃ b w', y w = .ok b w' ∧ w'.file = s ∧ w'.entries = made a ++ w.entries ∧ R a b
    | .error e => ∃ w', y w = .error e w' ∧ w'.entries = w.entries

def noTask (_ : α) : List ℕ := []

theorem follows_pure {a : α} {b : β} (h : R a b) :
    Follows (pure a : LoggedRun.Logged Read σ ℤ α) (pure b) noTask R :=
  fun w => ⟨b, w, rfl, rfl, rfl, h⟩

theorem Follows.bind {g : α → LoggedRun.Logged Read σ ℤ γ} {h : β → LoadM σ δ} {made' : γ → List ℕ} {S : γ → δ → Prop}
    (hxy : Follows x y noTask R) (hgh : ∀ a b, R a b → Follows (g a) (h b) made' S) :
    Follows (x >>= g) (y >>= h) made' S := by
  intro w
  have hfirst := hxy w
  cases hx : (x w.file).2 with
  | error e =>
      rw [hx] at hfirst
      obtain ⟨w', hy, hentries⟩ := hfirst
      rw [LoggedRun.bind_of_error hx]
      exact ⟨w', by simp only [Bind.bind, EStateM.bind, hy], hentries⟩
  | ok as =>
      obtain ⟨a, s⟩ := as
      rw [hx] at hfirst
      obtain ⟨b, w', hy, rfl, hentries, hab⟩ := hfirst
      have hsame : w'.entries = w.entries := hentries
      rw [LoggedRun.bind_of_ok hx, bind_of_ok hy, ← hsame]
      exact hgh a b hab w'

/-- A step that leaves the file alone. -/
theorem Follows.silent {z : LoadM σ γ} {h : γ → LoadM σ β}
    (hz : ∀ w, ∃ c w', z w = .ok c w' ∧ w'.file = w.file ∧ w'.entries = w.entries)
    (hxh : ∀ c, Follows x (h c) made R) : Follows x (z >>= h) made R := by
  intro w
  obtain ⟨c, w', hrun, hfile, hentries⟩ := hz w
  rw [bind_of_ok hrun, ← hfile, ← hentries]
  exact hxh c w'

theorem seek_follows (offset : ℕ) : Follows (fsSeek f offset) (seek f offset) noTask fun _ _ => True := by
  intro w
  have hcall : ((fsSeek f offset : LoggedRun.Logged Read σ ℤ Unit) w.file).2 = seekOutcome f offset w.file := rfl
  rw [hcall, seekOutcome, checked]
  by_cases hstatus : (f.seek w.file offset).1 = 0
  · rw [if_neg (not_not.mpr hstatus)]
    exact ⟨(), _, if_neg (not_not.mpr hstatus), rfl, rfl, trivial⟩
  · rw [if_pos hstatus]
    exact ⟨_, if_pos hstatus, rfl⟩

theorem close_follows : Follows (fsClose f) (close f) noTask fun _ _ => True := by
  intro w
  have hcall : ((fsClose f : LoggedRun.Logged Read σ ℤ Unit) w.file).2 =
      (checked (f.close w.file)).map fun s => ((), s) := rfl
  rw [hcall, checked]
  by_cases hstatus : (f.close w.file).1 = 0
  · rw [if_neg (not_not.mpr hstatus)]
    exact ⟨(), _, if_neg (not_not.mpr hstatus), rfl, rfl, trivial⟩
  · rw [if_pos hstatus]
    exact ⟨_, if_pos hstatus, rfl⟩

theorem read_follows (dest : Dest) (len : ℕ) : Follows (fsRead f dest len) (read f len) noTask Eq := by
  intro w
  rw [fsRead_outcome, fetchOutcome, checked]
  by_cases hstatus : (f.read w.file len).1 = 0
  · rw [if_neg (not_not.mpr hstatus)]
    exact ⟨_, _, if_neg (not_not.mpr hstatus), rfl, rfl, rfl⟩
  · rw [if_pos hstatus]
    exact ⟨_, if_pos hstatus, rfl⟩

theorem readTo_follows (addr len : ℕ) :
    Follows (fsRead f (.addr addr) len) (readTo f addr len) noTask fun _ _ => True := by
  intro w
  rw [fsRead_outcome, fetchOutcome, checked]
  by_cases hstatus : (f.read w.file len).1 = 0
  · rw [if_neg (not_not.mpr hstatus)]
    exact ⟨(), _, if_neg (not_not.mpr hstatus), rfl, rfl, trivial⟩
  · rw [if_pos hstatus]
    exact ⟨_, if_pos hstatus, rfl⟩

theorem kmalloc_silent (newAddr : List ℕ → ℕ → ℕ) (size : ℕ) (w : World σ) :
    ∃ c w', kmalloc newAddr size w = .ok c w' ∧ w'.file = w.file ∧ w'.entries = w.entries := ⟨_, _, rfl, rfl, rfl⟩

theorem kfree_silent (addr : ℕ) (w : World σ) :
    ∃ c w', kfree addr w = .ok c w' ∧ w'.file = w.file ∧ w'.entries = w.entries := ⟨_, _, rfl, rfl, rfl⟩

theorem loadSegments_follows (base : ℕ) (e : Ehdr) (n i : ℕ) (u : Phdr) :
    Follows (Loader.loadSegments f base e n i u) (loadSegments f base e n i u) noTask fun _ _ => True := by
  induction n generalizing i u with
  | zero => exact follows_pure trivial
  | succ n ih =>
      rw [Loader.loadSegments, loadSegments]
      apply (seek_follows _).bind
      intro _ _ _
      apply (read_follows _ _).bind
      rintro bs _ rfl
      dsimp only
      split_ifs
      · exact ih _ _
      · exact ih _ _
      · exact (seek_follows _).bind fun _ _ _ => (readTo_follows _ _).bind fun _ _ _ => ih _ _

theorem findEntry_follows (newAddr : List ℕ → ℕ → ℕ) (base : ℕ) (e : Ehdr) (locals : Locals) (n i : ℕ) (u : Shdr) :
    Follows (Loader.findEntry f base e locals.uninit n i u) (findEntry f newAddr base e locals n i u) noTask
      fun main tabs => tabs.2.2 = main.getD locals.entry := by
  induction n generalizing i u with
  | zero => exact follows_pure rfl
  | succ n ih =>
      rw [Loader.findEntry, findEntry]
      apply (seek_follows _).bind
      intro _ _ _
      apply (read_follows _ _).bind
      rintro bs _ rfl
      dsimp only
      split_ifs
      · apply (seek_follows _).bind
        intro _ _ _
        apply (read_follows _ _).bind
        rintro bs' _ rfl
        apply Follows.silent (kmalloc_silent newAddr _)
        intro stringTab
        apply (seek_follows _).bind
        intro _ _ _
        apply (read_follows _ _).bind
        rintro strings _ rfl
        apply Follows.silent (kmalloc_silent newAddr _)
        intro symTab
        apply (seek_follows _).bind
        intro _ _ _
        apply (read_follows _ _).bind
        rintro symbols _ rfl
        exact follows_pure rfl
      · exact ih _ _

theorem loadApp_follows (newAddr : List ℕ → ℕ → ℕ) (locals : Locals) (appIdx : ℕ) :
    Follows (Loader.loadApp f locals.uninit appIdx) (loadApp f newAddr locals appIdx)
      (fun main => [main.getD locals.entry]) fun _ _ => True := by
  rw [Loader.loadApp, loadApp]
  apply (read_follows _ _).bind
  rintro bs _ rfl
  apply (loadSegments_follows _ _ _ _ _).bind
  intro _ _ _
  apply (findEntry_follows newAddr _ _ locals _ _ _).bind
  rintro main ⟨stringTab, symTab, entry⟩ hentry
  apply Follows.silent (kfree_silent stringTab)
  intro _
  apply Follows.silent (kfree_silent symTab)
  intro _
  apply close_follows.bind
  intro _ _ _ w
  have hsame : entry = main.getD locals.entry := hentry
  have hentries : entry :: w.entries = [main.getD locals.entry] ++ w.entries := by rw [hsame]; rfl
  exact ⟨(), _, rfl, rfl, hentries, trivial⟩

/-- Both accounts of the loader agree on its result, and on the task it creates. -/
theorem outcome_agrees (newAddr : List ℕ → ℕ → ℕ) (fsOpen : ℤ × σ) (locals : Locals) (appIdx : ℕ) (mem : Mem) :
    match (Loader.loadRamdiskApp f fsOpen locals.uninit appIdx).2 with
    | .ok (main, s) => ∃ w, loadRamdiskApp f newAddr fsOpen locals appIdx mem = .ok () w ∧ w.file = s ∧
        w.entries = [main.getD locals.entry]
    | .error e => ∃ w, loadRamdiskApp f newAddr fsOpen locals appIdx mem = .error e w ∧ w.entries = [] := by
  rw [Loader.loadRamdiskApp, loadRamdiskApp]
  by_cases hidx : maxUsrTask ≤ appIdx
  · rw [if_pos hidx, if_pos hidx]
    exact ⟨_, rfl, rfl⟩
  · rw [if_neg hidx, if_neg hidx]
    by_cases hopen : fsOpen.1 ≠ 0
    · rw [if_pos hopen, if_pos hopen]
      exact ⟨_, rfl, rfl⟩
    · rw [if_neg hopen, if_neg hopen]
      have hrun := loadApp_follows (f := f) newAddr locals appIdx ⟨fsOpen.2, mem, [], [], []⟩
      cases hout : (Loader.loadApp f locals.uninit appIdx fsOpen.2).2 with
      | error e =>
          rw [hout] at hrun
          exact hrun
      | ok r =>
          rw [hout] at hrun
          obtain ⟨main, s⟩ := r
          obtain ⟨_, w, hok, hfile, hentries, _⟩ := hrun
          exact ⟨w, hok, hfile, hentries⟩

end Follows

section Example

theorem littlefs_serves (c : List UInt8) : Serves (littlefsFile c) c fun s p => s = p ∧ p ≤ c.length where
  seek _ _ _ _ ho := ⟨rfl, rfl, ho⟩
  read s p len hat hlen := by
    obtain ⟨rfl, -⟩ := hat
    have hcount : ((c.drop s).take len).length = len := by
      rw [List.length_take, List.length_drop]
      omega
    have hbytes : (c.drop s).take len = bytes (ofBytes c) s len := by
      have hall : bytes (ofBytes c) 0 c.length = c := bytes_ofBytes rfl
      calc (c.drop s).take len
        _ = ((bytes (ofBytes c) 0 c.length).drop s).take len := by rw [hall]
        _ = bytes (ofBytes c) s len := by
          rw [drop_bytes (by omega), Nat.zero_add, take_bytes (by omega)]
    refine ⟨if_pos hcount, hbytes, ?_, hlen⟩
    change s + ((c.drop s).take len).length = s + len
    rw [hcount]
  close _ _ _ := rfl

/-- A program header for a segment of 84 bytes in the file and 96 in memory, and `shnum` of three section headers: an
empty one, a symbol table with `main` and its string table. -/
def elfFile (shnum : UInt8) : List UInt8 :=
  List.replicate 28 0 ++ wordBytes 52 ++ wordBytes 84 ++ wordBytes 0 ++ [52, 0, 32, 0, 1, 0, 40, 0, shnum, 0, 0, 0] ++
    [1, 0, 0x1000, 0x1000, 84, 96, 5, 4].flatMap wordBytes ++
    List.replicate 40 0 ++ [0, 2, 0, 0, 204, 16, 2, 1, 4, 16].flatMap wordBytes ++
    [0, 3, 0, 0, 220, 6, 0, 0, 1, 0].flatMap wordBytes ++ [1, 0x10, 0, 0].flatMap wordBytes ++ [0, 109, 97, 105, 110, 0]

theorem elfFile_segment {shnum : UInt8} (h : shnum = 0 ∨ shnum = 3) {i : ℕ} (hi : IsSegment (elfFile shnum) i) :
    i = 0 := by
  have hphnum : (ehdr (elfFile shnum)).phnum = 1 := by
    rcases h with rfl | rfl <;> decide +kernel
  have hlt := hi.1
  omega

theorem elfFile_symtab {i : ℕ} (hi : i < (ehdr (elfFile 3)).shnum) (htype : (shdr (elfFile 3) i).type = shtSymtab) :
    i = 1 := by
  have hshnum : (ehdr (elfFile 3)).shnum = 3 := by decide +kernel
  have hothers : (shdr (elfFile 3) 0).type ≠ shtSymtab ∧ (shdr (elfFile 3) 2).type ≠ shtSymtab := by decide +kernel
  obtain rfl | rfl | rfl : i = 0 ∨ i = 1 ∨ i = 2 := by omega
  · exact absurd htype hothers.1
  · rfl
  · exact absurd htype hothers.2

theorem elfFile_wellFormed {shnum : UInt8} (h : shnum = 0 ∨ shnum = 3) : WellFormed (elfFile shnum) where
  fits := by rcases h with rfl | rfl <;> decide +kernel
  header := by rcases h with rfl | rfl <;> decide +kernel
  phentsize := by rcases h with rfl | rfl <;> decide +kernel
  shentsize := by rcases h with rfl | rfl <;> decide +kernel
  phdrs := by rcases h with rfl | rfl <;> decide +kernel
  shdrs := by rcases h with rfl | rfl <;> decide +kernel
  segments i hi := by
    obtain rfl := elfFile_segment h hi
    rcases h with rfl | rfl <;> decide +kernel
  disjoint i j hi hj _ _ _ := (elfFile_segment h hi).trans (elfFile_segment h hj).symm
  symtab i hi htype := by
    rcases h with rfl | rfl
    · exact absurd hi (by have : (ehdr (elfFile 0)).shnum = 0 := by decide +kernel
                          omega)
    · obtain rfl := elfFile_symtab hi htype
      constructor <;> decide +kernel
  single i hi j hj hti htj := by
    rcases h with rfl | rfl
    · exact absurd hi (by have : (ehdr (elfFile 0)).shnum = 0 := by decide +kernel
                          omega)
    · exact (elfFile_symtab hi hti).trans (elfFile_symtab hj htj).symm

def someLocals : Locals := ⟨zeroed, 0x11, 0x22, 0xdead⟩

end Example

end Slos.Loader.Image
