import Slos.ByteMemory

/-!
# The ramdisk image

`mkfs.cpp` writes the number of applications and then each file, with its length, padded to four bytes;
the loop of `create_ramdisk_fs` reads the image at `RAMDISK_PHY_START` and hands each application to the
file system. The loop finds the files `mkfs` was given and ends where the image ends.
-/

namespace Slos.RamdiskImage
open Word ByteMemory

/-- The size of the buffer of `mkfs`. -/
def maxAppSize : ℕ := 1024 * 1024

/-- `buff`, the number of bytes read into it, and whether a byte was stored past its end. -/
structure Buff where
  mem : Mem
  bytesRead : ℕ
  overrun : Bool

def readApp (buff : Mem) (app : List UInt8) : Buff where
  mem := put buff 0 (app.take maxAppSize)
  bytesRead := u32 (app.take maxAppSize).length
  overrun := false

def padding (bytesRead : ℕ) : ℕ := if bytesRead % 4 = 0 then 0 else 4 - bytesRead % 4

/-- `while (padding-- > 0) buff[bytes_read++] = 0x00`. -/
def padApp : ℕ → Buff → Buff
  | 0, b => b
  | n + 1, b => padApp n
      { mem := put b.mem b.bytesRead [0x00]
        bytesRead := u32 (b.bytesRead + 1)
        overrun := b.overrun || decide (maxAppSize ≤ b.bytesRead) }

/-- What `main` returns, what it has written to the ramdisk file if it created it, and whether it stored
past the end of `buff`. -/
structure Result where
  ret : ℤ
  ramdiskFile : Option (List UInt8)
  overrun : Bool
  deriving DecidableEq

/-- The loop over the input files; `none` is a path that does not exist. -/
def writeApps (buff : Mem) (os : List UInt8) (overrun : Bool) : List (Option (List UInt8)) → Result
  | [] => { ret := 0, ramdiskFile := some os, overrun := overrun }
  | none :: _ => { ret := -1, ramdiskFile := some os, overrun := overrun }
  | some app :: apps =>
      let b := readApp buff app
      let b := padApp (padding b.bytesRead) b
      writeApps b.mem (os ++ wordBytes b.bytesRead ++ bytes b.mem 0 b.bytesRead) (overrun || b.overrun) apps

/-- Without an input file only the usage is printed. -/
def mkfs (buff : Mem) (apps : List (Option (List UInt8))) : Result :=
  if apps.length = 0 then { ret := -1, ramdiskFile := none, overrun := false }
  else writeApps buff (wordBytes apps.length) false apps

def ramdiskPhyStart : ℕ := 0x00180000

/-- Memory as seen from `RAMDISK_PHY_START` on. -/
def fromStart (m : Mem) : Mem := fun x => m (u32 (ramdiskPhyStart + x))

structure App where
  addr : ℕ
  len : ℕ
  deriving DecidableEq

def noErr : ℤ := 0

variable {σ : Type}

/-- The loop of `create_ramdisk_fs` for `n` more applications. `store` is opening the file of application
`i`, writing `app_len` bytes from `app_addr` to it and closing it; the loop ends at its first error. The
result has the offset reached. -/
def createApps (m : Mem) (store : ℕ → App → σ → ℤ × σ) : ℕ → ℕ → ℕ → σ → ℤ × ℕ × σ
  | 0, _, offset, s => (noErr, offset, s)
  | n + 1, i, offset, s =>
      let appLen := word (fromStart m) offset
      let offset := u32 (offset + 4)
      let appAddr := u32 (ramdiskPhyStart + offset)
      let (ret, s) := store i { addr := appAddr, len := appLen } s
      if ret ≠ noErr then (ret, offset, s) else createApps m store n (i + 1) (u32 (offset + appLen)) s

/-- `create_ramdisk_fs` after the mount. -/
def createRamdiskFs (m : Mem) (store : ℕ → App → σ → ℤ × σ) (s : σ) : ℤ × ℕ × σ :=
  createApps m store (word (fromStart m) 0) 0 4 s

def padded (app : List UInt8) : List UInt8 := app ++ List.replicate (padding app.length) 0x00

/-- The part of the image that belongs to the files. -/
def body : List (List UInt8) → List UInt8
  | [] => []
  | app :: apps => wordBytes (padded app).length ++ padded app ++ body apps

def image (apps : List (List UInt8)) : List UInt8 := wordBytes apps.length ++ body apps

/-- `k` is the least number of bytes that fills `n` bytes up to a multiple of four. -/
def LeastPad (n k : ℕ) : Prop := 4 ∣ n + k ∧ ∀ j < k, ¬ 4 ∣ n + j

/-- The application is the file, zero bytes added, behind its length at an aligned address. -/
structure Recovers (m : Mem) (file : List UInt8) (app : App) : Prop where
  content : ∃ k, LeastPad file.length k ∧ app.len = file.length + k ∧
    ((List.range app.len).map fun j => m (u32 (app.addr + j))) = file ++ List.replicate k 0x00
  length : ∃ a, 4 ∣ a ∧ app.addr = u32 (a + 4) ∧
    wordOf (m a) (m (u32 (a + 1))) (m (u32 (a + 2))) (m (u32 (a + 3))) = app.len

/-- The calls the loop makes when all of them succeed. -/
def storeAll (store : ℕ → App → σ → ℤ × σ) : ℕ → List App → σ → σ
  | _, [], s => s
  | i, app :: apps, s => storeAll store (i + 1) apps (store i app s).2

theorem padding_least (n : ℕ) : LeastPad n (padding n) := by
  unfold LeastPad padding
  split
  · exact ⟨by omega, fun j hj => absurd hj (Nat.not_lt_zero j)⟩
  · exact ⟨by omega, fun j hj => by omega⟩

@[simp] theorem padded_length (app : List UInt8) : (padded app).length = app.length + padding app.length := by
  rw [padded, List.length_append, List.length_replicate]

/-- The padding loop adds zero bytes, inside the buffer when they fit. -/
theorem padApp_spec (n : ℕ) (b : Buff) (h : b.bytesRead + n ≤ maxAppSize) :
    (padApp n b).bytesRead = b.bytesRead + n ∧ (padApp n b).overrun = b.overrun ∧
      bytes (padApp n b).mem 0 (b.bytesRead + n) = bytes b.mem 0 b.bytesRead ++ List.replicate n 0x00 := by
  induction n generalizing b with
  | zero => exact ⟨rfl, rfl, by simp [padApp]⟩
  | succ n ih =>
      have hbound : b.bytesRead + 1 < size := by
        unfold maxAppSize at h
        unfold size
        omega
      have hinside : ¬ maxAppSize ≤ b.bytesRead := by omega
      have hstep : padApp (n + 1) b = padApp n
          { mem := put b.mem b.bytesRead [0x00], bytesRead := b.bytesRead + 1, overrun := b.overrun } := by
        rw [padApp, u32_of_lt hbound, decide_eq_false hinside, Bool.or_false]
      have hone : bytes (put b.mem b.bytesRead [0x00]) 0 (b.bytesRead + 1) =
          bytes b.mem 0 b.bytesRead ++ [0x00] := by
        have hend : bytes (put b.mem (0 + b.bytesRead) [0x00]) 0 (b.bytesRead + 1) = _ := bytes_put_end rfl
        rwa [Nat.zero_add] at hend
      obtain ⟨hread, hover, hbytes⟩ := ih
        { mem := put b.mem b.bytesRead [0x00], bytesRead := b.bytesRead + 1, overrun := b.overrun }
        (by dsimp only; omega)
      dsimp only at hread hover hbytes
      rw [hone, Nat.add_assoc, Nat.add_comm 1 n, List.append_assoc] at hbytes
      rw [hstep, hread]
      exact ⟨by omega, hover, hbytes⟩

/-- One file in the image: its padded content, behind the length of that. -/
theorem padApp_readApp (buff : Mem) {app : List UInt8} (h : app.length ≤ maxAppSize) :
    ∃ b, padApp (padding (readApp buff app).bytesRead) (readApp buff app) = b ∧
      b.bytesRead = (padded app).length ∧ b.overrun = false ∧
      bytes b.mem 0 b.bytesRead = padded app := by
  have hlt : app.length < size := h.trans_lt (by decide)
  have hread : (readApp buff app).bytesRead = app.length := by
    rw [readApp, List.take_of_length_le h, u32_of_lt hlt]
  have hmem : bytes (readApp buff app).mem 0 app.length = app := by
    rw [readApp, List.take_of_length_le h]
    change bytes (put buff 0 app) 0 app.length = app
    exact bytes_put_self
  have hfits : (readApp buff app).bytesRead + padding (readApp buff app).bytesRead ≤ maxAppSize := by
    rw [hread]
    unfold padding
    unfold maxAppSize at h ⊢
    split <;> omega
  obtain ⟨hlen, hover, hbytes⟩ := padApp_spec _ (readApp buff app) hfits
  rw [hread] at hlen hbytes hover ⊢
  rw [hmem] at hbytes
  refine ⟨_, rfl, ?_, hover, ?_⟩
  · rw [hlen, padded_length]
  · rw [hlen, hbytes, padded]

theorem writeApps_eq {apps : List (List UInt8)} (h : ∀ app ∈ apps, app.length ≤ maxAppSize) (buff : Mem)
    (os : List UInt8) : writeApps buff os false (apps.map some) =
      { ret := 0, ramdiskFile := some (os ++ body apps), overrun := false } := by
  induction apps generalizing buff os with
  | nil => rw [body, List.append_nil, List.map_nil, writeApps]
  | cons app apps ih =>
      obtain ⟨b, hb, hlen, hover, hbytes⟩ := padApp_readApp buff (h app List.mem_cons_self)
      rw [List.map_cons, writeApps, hb, hover, hbytes, hlen, Bool.or_false, ih fun app' happ => h app' (List.mem_cons_of_mem _ happ),
        body]
      simp only [List.append_assoc]

theorem mkfs_eq {apps : List (List UInt8)} (h : ∀ app ∈ apps, app.length ≤ maxAppSize) (hne : apps ≠ [])
    (buff : Mem) : mkfs buff (apps.map some) =
      { ret := 0, ramdiskFile := some (image apps), overrun := false } := by
  have hlen : (apps.map some).length ≠ 0 := by
    rw [List.length_map]
    exact fun h0 => hne (List.length_eq_zero_iff.mp h0)
  rw [mkfs, if_neg hlen, writeApps_eq h, List.length_map, image]

/-- The entries of an image body that starts at `offset`. -/
def appsAt : ℕ → List (List UInt8) → List App
  | _, [] => []
  | offset, app :: apps =>
      { addr := u32 (ramdiskPhyStart + (offset + 4)), len := (padded app).length } ::
        appsAt (offset + 4 + (padded app).length) apps

theorem word_of_bytes {m : Mem} {a v : ℕ} (h : bytes m a 4 = wordBytes v) : word m a = u32 v := by
  rw [← word_put_wordBytes (u32_lt v), wordBytes_u32, ← h, put_bytes_self]

theorem body_cons_length (app : List UInt8) (apps : List (List UInt8)) :
    (body (app :: apps)).length = 4 + (padded app).length + (body apps).length := by
  rw [body, List.length_append, List.length_append, wordBytes_length]

/-- The three parts of a body in memory: the first length, the first content and the rest. -/
theorem bytes_body_cons {m : Mem} {offset : ℕ} {app : List UInt8} {apps : List (List UInt8)}
    (h : bytes m offset (body (app :: apps)).length = body (app :: apps)) :
    bytes m offset 4 = wordBytes (padded app).length ∧
      bytes m (offset + 4) (padded app).length = padded app ∧
      bytes m (offset + 4 + (padded app).length) (body apps).length = body apps := by
  rw [body_cons_length, body, Nat.add_assoc, bytes_append, bytes_append, ← List.append_assoc] at h
  obtain ⟨hhead, hrest⟩ := List.append_inj h (by simp)
  obtain ⟨hlen, hcontent⟩ := List.append_inj hhead (by simp)
  exact ⟨hlen, hcontent, hrest⟩

/-- The loop walks the body from one length word to the next. -/
theorem createApps_eq {m : Mem} {store : ℕ → App → σ → ℤ × σ}
    (hstore : ∀ i app s, (store i app s).1 = noErr) {apps : List (List UInt8)} {offset : ℕ}
    (hbody : bytes (fromStart m) offset (body apps).length = body apps)
    (hlt : offset + (body apps).length < size) (i : ℕ) (s : σ) :
    createApps m store apps.length i offset s =
      (noErr, offset + (body apps).length, storeAll store i (appsAt offset apps) s) := by
  induction apps generalizing offset i s with
  | nil => rfl
  | cons app apps ih =>
      obtain ⟨hlen, hcontent, hrest⟩ := bytes_body_cons hbody
      rw [body_cons_length] at hlt ⊢
      have hword : word (fromStart m) offset = (padded app).length := by
        rw [word_of_bytes hlen, u32_of_lt (by omega)]
      have hnext : u32 (offset + 4) = offset + 4 := u32_of_lt (by omega)
      have hend : u32 (offset + 4 + (padded app).length) = offset + 4 + (padded app).length :=
        u32_of_lt (by omega)
      rw [List.length_cons, createApps]
      simp only [hword, hnext, hstore, ne_eq, not_true_eq_false, if_false, hend]
      rw [ih hrest (by omega), appsAt, storeAll]
      simp only [Nat.add_assoc]

theorem u32_start_add (offset k : ℕ) :
    u32 (u32 (ramdiskPhyStart + offset) + k) = u32 (ramdiskPhyStart + (offset + k)) := by
  rw [u32, u32, Nat.mod_add_mod, u32, Nat.add_assoc]

theorem fromStart_word (m : Mem) (offset : ℕ) : word (fromStart m) offset =
    wordOf (m (u32 (ramdiskPhyStart + offset))) (m (u32 (u32 (ramdiskPhyStart + offset) + 1)))
      (m (u32 (u32 (ramdiskPhyStart + offset) + 2))) (m (u32 (u32 (ramdiskPhyStart + offset) + 3))) := by
  rw [u32_start_add, u32_start_add, u32_start_add]
  rfl

theorem fromStart_bytes (m : Mem) (offset n : ℕ) : bytes (fromStart m) offset n =
    (List.range n).map fun j => m (u32 (u32 (ramdiskPhyStart + offset) + j)) := by
  simp only [u32_start_add]
  rfl

/-- Every entry is one of the files, and its length word is aligned. -/
theorem appsAt_recovers {m : Mem} {apps : List (List UInt8)} {offset : ℕ} (haligned : 4 ∣ offset)
    (hbody : bytes (fromStart m) offset (body apps).length = body apps)
    (hlt : offset + (body apps).length < size) : List.Forall₂ (Recovers m) apps (appsAt offset apps) := by
  induction apps generalizing offset with
  | nil => exact .nil
  | cons app apps ih =>
      obtain ⟨hlen, hcontent, hrest⟩ := bytes_body_cons hbody
      rw [body_cons_length] at hlt
      have hleast := padding_least app.length
      have hpadded : 4 ∣ (padded app).length := by
        rw [padded_length]
        exact hleast.1
      refine .cons ⟨⟨_, hleast, padded_length app, ?_⟩, u32 (ramdiskPhyStart + offset), ?_, ?_, ?_⟩
        (ih (by omega) hrest (by omega))
      · rw [fromStart_bytes] at hcontent
        exact hcontent
      · unfold u32 ramdiskPhyStart size
        omega
      · exact (u32_start_add offset 4).symm
      · rw [← fromStart_word, word_of_bytes hlen, u32_of_lt (by omega)]

/-- The size of the image of some files. -/
def imageLength (apps : List (List UInt8)) : ℕ :=
  4 + (apps.map fun app => 4 + (app.length + padding app.length)).sum

theorem body_length (apps : List (List UInt8)) :
    (body apps).length = (apps.map fun app => 4 + (app.length + padding app.length)).sum := by
  induction apps with
  | nil => rfl
  | cons app apps ih => rw [body_cons_length, padded_length, ih, List.map_cons, List.sum_cons]

theorem image_length (apps : List (List UInt8)) : (image apps).length = imageLength apps := by
  rw [image, List.length_append, wordBytes_length, body_length, imageLength]

theorem length_le_body (apps : List (List UInt8)) : apps.length ≤ (body apps).length := by
  induction apps with
  | nil => exact Nat.zero_le _
  | cons app apps ih =>
      rw [body_cons_length, List.length_cons]
      omega

/-- Over an image in memory, the loop of `create_ramdisk_fs` makes the calls for these entries, if they
succeed, and ends where the image ends. -/
def Walks (m : Mem) (file : List UInt8) (entries : List App) : Prop :=
  ∀ (σ : Type) (store : ℕ → App → σ → ℤ × σ) (s : σ), (∀ i app s, (store i app s).1 = noErr) →
    createRamdiskFs m store s = (noErr, file.length, storeAll store 0 entries s)

theorem image_walks {m : Mem} {apps : List (List UInt8)}
    (himage : bytes (fromStart m) 0 (image apps).length = image apps)
    (hlt : (image apps).length < size) :
    List.Forall₂ (Recovers m) apps (appsAt 4 apps) ∧ Walks m (image apps) (appsAt 4 apps) := by
  have hlen : (image apps).length = 4 + (body apps).length := by
    rw [image, List.length_append, wordBytes_length]
  rw [hlen] at hlt
  rw [hlen, image, bytes_append, Nat.zero_add] at himage
  obtain ⟨hcount, hbody⟩ := List.append_inj himage (by simp)
  have hword : word (fromStart m) 0 = apps.length := by
    rw [word_of_bytes hcount, u32_of_lt ((length_le_body apps).trans_lt (by omega))]
  refine ⟨appsAt_recovers (dvd_refl 4) hbody hlt, fun σ store s hstore => ?_⟩
  rw [createRamdiskFs, hword, hlen]
  exact createApps_eq hstore hbody hlt 0 s

/-- `mkfs` without files writes no image and stays inside its buffer. With files of at most 1 MiB it stays
inside its buffer too, and the loop over its image recovers each file and ends where the image ends. -/
theorem ramdisk_round_trip (apps : List (List UInt8)) (happs : ∀ app ∈ apps, app.length ≤ maxAppSize)
    (htotal : imageLength apps < size) (buff : Mem) :
    (mkfs buff (apps.map some)).overrun = false ∧
      (apps = [] → (mkfs buff (apps.map some)).ramdiskFile = none) ∧
      (apps ≠ [] → ∃ file, (mkfs buff (apps.map some)).ret = 0 ∧
        (mkfs buff (apps.map some)).ramdiskFile = some file ∧
        ∀ m, bytes (fromStart m) 0 file.length = file →
          ∃ entries, List.Forall₂ (Recovers m) apps entries ∧ Walks m file entries) := by
  rw [← image_length] at htotal
  rcases eq_or_ne apps [] with rfl | hne
  · exact ⟨rfl, fun _ => rfl, fun h => absurd rfl h⟩
  · rw [mkfs_eq happs hne]
    exact ⟨rfl, fun h => absurd h hne, fun _ => ⟨image apps, rfl, rfl, fun m hm =>
      ⟨appsAt 4 apps, image_walks hm htotal⟩⟩⟩

/-- Two files, of five bytes and of none. -/
theorem ramdisk_round_trip_two_files :
    (∃ file, (mkfs (fun _ => 0xCC) [some [1, 2, 3, 4, 5], some []]).ret = 0 ∧
      (mkfs (fun _ => 0xCC) [some [1, 2, 3, 4, 5], some []]).ramdiskFile = some file ∧
      ∀ m, bytes (fromStart m) 0 file.length = file →
        ∃ entries, List.Forall₂ (Recovers m) [[1, 2, 3, 4, 5], []] entries ∧ Walks m file entries) :=
  (ramdisk_round_trip [[1, 2, 3, 4, 5], []] (by decide) (by decide) fun _ => 0xCC).2.2 (by decide)

end Slos.RamdiskImage
