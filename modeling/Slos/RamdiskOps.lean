import Slos.Ramdisk

/-!
# The ramdisk as a bounded array

The five functions behind `io_ops`, byte by byte, with the addresses they touch. The device is to be an array of `RAMDISK_SIZE` bytes
that `write` and the erasing functions change and `read` reads.
-/

namespace Slos.RamdiskOps
open Word ByteMemory Ramdisk

/-- Memory counted from `RAMDISK_START` on, and the addresses read or written as device memory. -/
structure Dev where
  mem : Mem
  log : List ℕ

def Dev.store (d : Dev) (x : ℕ) (b : UInt8) : Dev := ⟨Function.update d.mem x b, d.log ++ [x]⟩

/-- `for (i = 0; i < n; i++) ((uint8_t *)base)[i] = f(i)`. -/
def storeLoop (base : ℕ) (f : ℕ → UInt8) (d : Dev) : ℕ → Dev
  | 0 => d
  | i + 1 => (storeLoop base f d i).store (u32 (base + i)) (f i)

/-- `for (i = 0; i < n; i++) buf[i] = ((uint8_t *)base)[i]`. -/
def readLoop (base : ℕ) (d : Dev) : ℕ → List UInt8 × Dev
  | 0 => ([], d)
  | i + 1 =>
      let (buf, d) := readLoop base d i
      let x := u32 (base + i)
      (buf ++ [d.mem x], { d with log := d.log ++ [x] })

inductive Op
  | eraseChip
  | erasePage (page : ℕ)
  | eraseAddrLen (addr len : ℕ)
  | write (addr len : ℕ) (buf : ℕ → UInt8)
  | read (addr len : ℕ)

/-- What a call returns, what it has put into the buffer of the caller, and the device. -/
structure Result where
  ret : ℤ
  buf : List UInt8
  dev : Dev

def noErr : ℤ := 0

def eraseRamdiskChip (d : Dev) : Result := ⟨noErr, [], storeLoop 0 (fun _ => 0xFF) d ramdiskSize⟩

def eraseRamdiskPage (d : Dev) (page : ℕ) : Result :=
  ⟨noErr, [], storeLoop (u32 (page * ramdiskPageSize)) (fun _ => 0xFF) d ramdiskPageSize⟩

def writeRamdisk (d : Dev) (addr len : ℕ) (buf : ℕ → UInt8) : Result :=
  if u32 (addr + len) > ramdiskSize then ⟨-1, [], d⟩ else ⟨noErr, [], storeLoop addr buf d len⟩

def readRamdisk (d : Dev) (addr len : ℕ) : Result :=
  if u32 (addr + len) > ramdiskSize then ⟨-1, [], d⟩
  else
    let (buf, d) := readLoop addr d len
    ⟨noErr, buf, d⟩

/-- The address of a page is its number, without the start of the ramdisk. -/
def erasePages (startPg : ℕ) (d : Dev) : ℕ → Dev
  | 0 => d
  | i + 1 => storeLoop (usub (startPg + i * ramdiskPageSize) ramdiskStart) (fun _ => 0xFF) (erasePages startPg d i)
      ramdiskPageSize

def eraseRamdisk (d : Dev) (addr len : ℕ) : Result :=
  let startPg := addr / ramdiskPageSize
  let pgCnt := len / ramdiskPageSize
  ⟨noErr, [], erasePages startPg d pgCnt⟩

def call (d : Dev) : Op → Result
  | .eraseChip => eraseRamdiskChip d
  | .erasePage page => eraseRamdiskPage d page
  | .eraseAddrLen addr len => eraseRamdisk d addr len
  | .write addr len buf => writeRamdisk d addr len buf
  | .read addr len => readRamdisk d addr len

/-- What a successful call makes of the array. -/
def effect (v : Mem) : Op → Mem
  | .eraseChip => fun x => if x < ramdiskSize then 0xFF else v x
  | .erasePage page => fun x => if x / ramdiskPageSize = page then 0xFF else v x
  | .eraseAddrLen addr len => fun x =>
      if addr / ramdiskPageSize ≤ x / ramdiskPageSize ∧
        x / ramdiskPageSize < addr / ramdiskPageSize + len / ramdiskPageSize then 0xFF else v x
  | .write addr len buf => fun x => if addr ≤ x ∧ x < addr + len then buf (x - addr) else v x
  | .read _ _ => v

/-- The array after a call; one that fails leaves it. -/
def arrayAfter (d : Dev) (v : Mem) (op : Op) : Mem := if (call d op).ret = noErr then effect v op else v

/-- The device addresses a call reads or writes. -/
def touched (d : Dev) (op : Op) : List ℕ := (call d op).dev.log.drop d.log.length

/-- What one call has to do, for the array `v`. -/
structure CallLaw (d : Dev) (v : Mem) (op : Op) : Prop where
  bounded : ∀ x ∈ touched d op, x < ramdiskSize
  outside : ∀ x, ramdiskSize ≤ x → (call d op).dev.mem x = d.mem x
  failed : (call d op).ret ≠ noErr → (call d op).dev.mem = d.mem
  array : ∀ x < ramdiskSize, (call d op).dev.mem x = arrayAfter d v op x
  read : ∀ addr len, op = .read addr len → (call d op).ret = noErr → (call d op).buf = bytes v addr len
  page : ∀ page, op = .erasePage page → (call d op).ret = noErr → ∀ x, x ∈ touched d op ↔ x / ramdiskPageSize = page
  range : ∀ addr len, op = .eraseAddrLen addr len → ramdiskPageSize ∣ addr → ramdiskPageSize ∣ len →
    (call d op).ret = noErr → ∀ x, x ∈ touched d op ↔ addr ≤ x ∧ x < addr + len

/-- Every call of the run, the array following the calls. -/
def RunLaw (d : Dev) (v : Mem) : List Op → Prop
  | [] => True
  | op :: ops => CallLaw d v op ∧ RunLaw (call d op).dev (arrayAfter d v op) ops

/-- The arguments are 32-bit words. -/
def Op.Words : Op → Prop
  | .eraseChip => True
  | .erasePage page => page < size
  | .eraseAddrLen addr len => addr < size ∧ len < size
  | .write addr len _ => addr < size ∧ len < size
  | .read addr len => addr < size ∧ len < size

/-- A sum of address and length that wraps is still above the size, the page is on the device, and no range of a page or more
is erased. -/
def InRange : Op → Prop
  | .eraseChip => True
  | .erasePage page => page < ramdiskPageNum
  | .eraseAddrLen _ len => len < ramdiskPageSize
  | .write addr len _ => size ≤ addr + len → ramdiskSize < u32 (addr + len)
  | .read addr len => size ≤ addr + len → ramdiskSize < u32 (addr + len)

theorem storeLoop_mem {base n : ℕ} (f : ℕ → UInt8) (d : Dev) (hn : n ≤ size) (x : ℕ) :
    (storeLoop base f d n).mem x = if x < size ∧ usub x base < n then f (usub x base) else d.mem x := by
  induction n with
  | zero => rw [if_neg (fun h => Nat.not_lt_zero _ h.2), storeLoop]
  | succ n ih =>
      change Function.update (storeLoop base f d n).mem (u32 (base + n)) (f n) x = _
      have hsub : usub (u32 (base + n)) base = n := by
        unfold usub u32 size at *
        omega
      rcases eq_or_ne x (u32 (base + n)) with rfl | hne
      · rw [Function.update_self, hsub, if_pos ⟨u32_lt _, Nat.lt_succ_self n⟩]
      · rw [Function.update_of_ne hne, ih (Nat.le_of_succ_le hn)]
        have hiff : (x < size ∧ usub x base < n) ↔ x < size ∧ usub x base < n + 1 := by
          constructor
          · rintro ⟨hx, hlt⟩
            exact ⟨hx, hlt.trans (Nat.lt_succ_self n)⟩
          · rintro ⟨hx, hlt⟩
            have hneq : usub x base ≠ n := by
              rintro rfl
              apply hne
              unfold usub u32 size at *
              omega
            exact ⟨hx, by omega⟩
        rw [if_congr hiff rfl rfl]

theorem storeLoop_log (base n : ℕ) (f : ℕ → UInt8) (d : Dev) :
    (storeLoop base f d n).log = d.log ++ (List.range n).map fun i => u32 (base + i) := by
  induction n with
  | zero => exact (List.append_nil _).symm
  | succ n ih =>
      change (storeLoop base f d n).log ++ [u32 (base + n)] = _
      rw [ih, List.range_succ, List.map_append, List.append_assoc]
      rfl

theorem readLoop_eq (base n : ℕ) (d : Dev) : readLoop base d n =
    ((List.range n).map fun i => d.mem (u32 (base + i)),
      { d with log := d.log ++ (List.range n).map fun i => u32 (base + i) }) := by
  induction n with
  | zero => exact congrArg (Prod.mk _) (congrArg (Dev.mk d.mem) (List.append_nil _).symm)
  | succ n ih =>
      rw [readLoop, ih, List.range_succ, List.map_append, List.map_append, ← List.append_assoc]
      rfl

theorem erasePages_log (startPg n : ℕ) (d : Dev) : (erasePages startPg d n).log = d.log ++ (List.range n).flatMap fun i =>
    (List.range ramdiskPageSize).map fun j => u32 (usub (startPg + i * ramdiskPageSize) ramdiskStart + j) := by
  induction n with
  | zero => exact (List.append_nil _).symm
  | succ n ih =>
      rw [erasePages, storeLoop_log, ih, List.range_succ, List.flatMap_append, List.append_assoc, List.flatMap_singleton]

theorem touched_of_log {d : Dev} {op : Op} {t : List ℕ} (h : (call d op).dev.log = d.log ++ t) : touched d op = t := by
  rw [touched, h, List.drop_left]

theorem touched_erasePage (d : Dev) (page : ℕ) : touched d (.erasePage page) =
    (List.range ramdiskPageSize).map fun i => u32 (u32 (page * ramdiskPageSize) + i) :=
  touched_of_log (storeLoop_log _ _ _ d)

theorem touched_eraseChip (d : Dev) : touched d .eraseChip = (List.range ramdiskSize).map fun i => u32 (0 + i) :=
  touched_of_log (storeLoop_log _ _ _ d)

/-- The byte loops are the functions on memory. -/
theorem eraseRamdiskChip_mem (d : Dev) : (eraseRamdiskChip d).dev.mem = Ramdisk.eraseRamdiskChip d.mem := by
  funext x
  rw [eraseRamdiskChip, storeLoop_mem _ d (by decide), Ramdisk.eraseRamdiskChip]
  apply if_congr _ rfl rfl
  unfold usub ramdiskSize size
  omega

theorem eraseRamdiskPage_mem (d : Dev) (page : ℕ) :
    (eraseRamdiskPage d page).dev.mem = Ramdisk.eraseRamdiskPage d.mem page := by
  funext x
  exact storeLoop_mem _ d (by decide) x

theorem writeRamdisk_mem (d : Dev) (addr : ℕ) (bs : List UInt8) (hlen : bs.length < size) :
    match Ramdisk.writeRamdisk d.mem addr bs with
    | none => writeRamdisk d addr bs.length (fun i => bs.getD i 0) = ⟨-1, [], d⟩
    | some m => (writeRamdisk d addr bs.length fun i => bs.getD i 0).ret = noErr ∧
        (writeRamdisk d addr bs.length fun i => bs.getD i 0).dev.mem = m := by
  unfold writeRamdisk Ramdisk.writeRamdisk
  by_cases hbound : ramdiskSize < u32 (addr + bs.length)
  · rw [if_pos hbound, if_pos hbound]
  · rw [if_neg hbound, if_neg hbound]
    refine ⟨rfl, ?_⟩
    funext x
    dsimp only
    rw [storeLoop_mem _ d hlen.le]
    by_cases hx : x < size
    · rw [if_pos hx]
      rcases lt_or_ge (usub x addr) bs.length with hlt | hge
      · rw [if_pos ⟨hx, hlt⟩, List.getD_eq_getElem _ _ hlt, List.getElem?_eq_getElem hlt, Option.getD_some]
      · rw [if_neg fun h => Nat.not_lt.mpr hge h.2, List.getElem?_eq_none hge, Option.getD_none]
    · rw [if_neg hx, if_neg fun h => hx h.1]

theorem readRamdisk_buf (d : Dev) (addr len : ℕ) : Ramdisk.readRamdisk d.mem addr len =
    if (readRamdisk d addr len).ret = noErr then some (readRamdisk d addr len).buf else none := by
  unfold readRamdisk Ramdisk.readRamdisk
  by_cases hbound : ramdiskSize < u32 (addr + len)
  · rw [if_pos hbound, if_pos hbound]
    rfl
  · rw [if_neg hbound, if_neg hbound, readLoop_eq]
    rfl

variable {d : Dev} {v : Mem}

theorem callLaw_eraseChip : CallLaw d v .eraseChip := by
  have hmem : (call d .eraseChip).dev.mem = Ramdisk.eraseRamdiskChip d.mem := eraseRamdiskChip_mem d
  constructor
  · intro x hx
    rw [touched_eraseChip] at hx
    obtain ⟨i, hi, rfl⟩ := List.mem_map.mp hx
    have hlt := List.mem_range.mp hi
    rw [Nat.zero_add, u32_of_lt (hlt.trans (by decide))]
    exact hlt
  · intro x hx
    rw [hmem]
    exact if_neg (Nat.not_lt.mpr hx)
  · exact fun h => absurd rfl h
  · intro x hx
    rw [hmem]
    change (if x < ramdiskSize then _ else _) = if x < ramdiskSize then _ else _
    rw [if_pos hx, if_pos hx]
  · intro addr len h
    cases h
  · intro page h
    cases h
  · intro addr len h
    cases h

theorem callLaw_erasePage_iff (hv : ∀ x < ramdiskSize, d.mem x = v x) (page : ℕ) :
    CallLaw d v (.erasePage page) ↔ page < ramdiskPageNum := by
  constructor
  · intro h
    have hfirst : u32 (page * ramdiskPageSize) ∈ touched d (.erasePage page) := by
      rw [touched_erasePage]
      refine List.mem_map.mpr ⟨0, List.mem_range.mpr (by decide), ?_⟩
      exact u32_of_lt (u32_lt _)
    have hin := h.bounded _ hfirst
    have hpage := (h.page page rfl rfl _).mp hfirst
    rw [← hpage]
    exact Nat.div_lt_of_lt_mul hin
  · intro hpage
    have hlt : page < 1024 := hpage
    have hmem : (call d (.erasePage page)).dev.mem =
        put d.mem (page * ramdiskPageSize) (List.replicate ramdiskPageSize 0xFF) :=
      (eraseRamdiskPage_mem d page).trans (eraseRamdiskPage_of_lt hpage)
    have htouched : ∀ x, x ∈ touched d (.erasePage page) ↔ x / ramdiskPageSize = page := by
      intro x
      rw [touched_erasePage, List.mem_map]
      unfold ramdiskPageSize u32 size
      constructor
      · rintro ⟨i, hi, rfl⟩
        have hi' := List.mem_range.mp hi
        omega
      · rintro rfl
        exact ⟨x % 4096, List.mem_range.mpr (Nat.mod_lt _ (by decide)), by omega⟩
    constructor
    · intro x hx
      have hdiv := (htouched x).mp hx
      unfold ramdiskPageSize at hdiv
      unfold ramdiskSize
      omega
    · intro x hx
      rw [hmem, put_of_ge]
      rw [List.length_replicate]
      unfold ramdiskPageSize ramdiskSize at *
      omega
    · exact fun h => absurd rfl h
    · intro x hx
      rw [hmem, put_replicate, hv x hx]
      change _ = if x / ramdiskPageSize = page then _ else _
      apply if_congr _ rfl rfl
      unfold ramdiskPageSize
      omega
    · intro addr len h
      cases h
    · intro p h
      cases h
      exact fun _ => htouched
    · intro addr len h
      cases h

/-- A range of a page or more is erased outside the device. -/
theorem callLaw_eraseAddrLen_iff (hv : ∀ x < ramdiskSize, d.mem x = v x) {addr len : ℕ} (haddr : addr < size) :
    CallLaw d v (.eraseAddrLen addr len) ↔ len < ramdiskPageSize := by
  have htouched : touched d (.eraseAddrLen addr len) = _ := touched_of_log (erasePages_log _ _ d)
  constructor
  · intro h
    by_contra hlen
    have hcnt : 0 < len / ramdiskPageSize := Nat.div_pos (Nat.not_lt.mp hlen) (by decide)
    have hfirst : usub (addr / ramdiskPageSize) ramdiskStart ∈ touched d (.eraseAddrLen addr len) := by
      rw [htouched]
      refine List.mem_flatMap.mpr ⟨0, List.mem_range.mpr hcnt, List.mem_map.mpr ⟨0, List.mem_range.mpr (by decide), ?_⟩⟩
      rw [Nat.zero_mul, Nat.add_zero, Nat.add_zero]
      exact u32_of_lt (usub_lt _ _)
    have hbound := h.bounded _ hfirst
    have hpg : addr / ramdiskPageSize < ramdiskStart := by
      unfold ramdiskPageSize ramdiskStart size at *
      omega
    rw [usub_of_lt (by decide) hpg] at hbound
    unfold ramdiskPageSize ramdiskStart ramdiskSize size at *
    omega
  · intro hlen
    have hcnt : len / ramdiskPageSize = 0 := Nat.div_eq_of_lt hlen
    rw [hcnt] at htouched
    have hdev : (call d (.eraseAddrLen addr len)).dev = d := by
      change erasePages (addr / ramdiskPageSize) d (len / ramdiskPageSize) = d
      rw [hcnt, erasePages]
    constructor
    · intro x hx
      rw [htouched] at hx
      cases hx
    · exact fun x _ => congrArg (fun e => e.mem x) hdev
    · exact fun h => absurd rfl h
    · intro x hx
      rw [hdev, hv x hx]
      change _ = if addr / ramdiskPageSize ≤ x / ramdiskPageSize ∧
        x / ramdiskPageSize < addr / ramdiskPageSize + len / ramdiskPageSize then _ else _
      rw [hcnt, if_neg (by omega)]
    · intro a n h
      cases h
    · intro page h
      cases h
    · intro a n h _ hdvd _ x
      cases h
      have hzero : len = 0 := Nat.eq_zero_of_dvd_of_lt hdvd hlen
      rw [htouched, hzero]
      simp

/-- An address from which more than the device is accessed leaves it. -/
theorem wrap_leaves {addr len : ℕ} (haddr : addr < size) (hwrap : size ≤ addr + len) :
    ∃ i < len, ramdiskSize ≤ u32 (addr + i) := by
  rcases lt_or_ge addr ramdiskSize with hlt | hge
  · refine ⟨ramdiskSize - addr, ?_, ?_⟩
    · unfold ramdiskSize size at *
      omega
    · rw [Nat.add_sub_cancel' hlt.le]
      decide
  · refine ⟨0, by omega, ?_⟩
    · rw [Nat.add_zero, u32_of_lt haddr]
      exact hge

theorem callLaw_rejected (hv : ∀ x < ramdiskSize, d.mem x = v x) {op : Op} (hcall : call d op = ⟨-1, [], d⟩) :
    CallLaw d v op := by
  have hret : (call d op).ret ≠ noErr := by
    rw [hcall]
    exact (by decide : (-1 : ℤ) ≠ noErr)
  have hdev : (call d op).dev = d := by rw [hcall]
  have htouched : touched d op = [] := by
    rw [touched, hdev, List.drop_length]
  constructor
  · intro x hx
    rw [htouched] at hx
    cases hx
  · intro x _
    rw [hdev]
  · intro _
    rw [hdev]
  · intro x hx
    rw [hdev, arrayAfter, if_neg hret, hv x hx]
  · exact fun _ _ _ h => absurd h hret
  · exact fun _ _ h => absurd h hret
  · exact fun _ _ _ _ _ h => absurd h hret

/-- An accepted range is on the device if the sum does not wrap, and leaves it if it does. -/
theorem accepted_iff {addr len : ℕ} (haddr : addr < size) (hbound : ¬ ramdiskSize < u32 (addr + len)) :
    (∀ i < len, u32 (addr + i) < ramdiskSize) ↔ addr + len < size := by
  constructor
  · intro h
    by_contra hwrap
    obtain ⟨i, hi, hge⟩ := wrap_leaves haddr (Nat.not_lt.mp hwrap)
    exact absurd (h i hi) (Nat.not_lt.mpr hge)
  · intro hlt i hi
    rw [u32_of_lt hlt] at hbound
    rw [u32_of_lt (by omega)]
    omega

/-- Of an accepted range the test says that the sum does not wrap. -/
theorem room_iff {addr len : ℕ} (hbound : ¬ ramdiskSize < u32 (addr + len)) :
    (size ≤ addr + len → ramdiskSize < u32 (addr + len)) ↔ addr + len < size := by
  constructor
  · intro hroom
    by_contra hwrap
    exact hbound (hroom (Nat.not_lt.mp hwrap))
  · exact fun hlt hwrap => absurd hlt (Nat.not_lt.mpr hwrap)

theorem CallLaw.lt_size {op : Op} {addr len : ℕ} (h : CallLaw d v op) (haddr : addr < size)
    (hbound : ¬ ramdiskSize < u32 (addr + len)) (htouched : touched d op = (List.range len).map fun i => u32 (addr + i)) :
    addr + len < size := by
  apply (accepted_iff haddr hbound).mp
  intro i hi
  apply h.bounded
  rw [htouched]
  exact List.mem_map.mpr ⟨i, List.mem_range.mpr hi, rfl⟩

/-- The addresses of an accepted range that does not wrap are on the device. -/
theorem touched_lt {op : Op} {addr len : ℕ} (haddr : addr < size) (hbound : ¬ ramdiskSize < u32 (addr + len))
    (htouched : touched d op = (List.range len).map fun i => u32 (addr + i)) (hlt : addr + len < size) :
    ∀ x ∈ touched d op, x < ramdiskSize := by
  intro x hx
  rw [htouched] at hx
  obtain ⟨i, hi, rfl⟩ := List.mem_map.mp hx
  exact (accepted_iff haddr hbound).mpr hlt i (List.mem_range.mp hi)

theorem callLaw_write_iff (hv : ∀ x < ramdiskSize, d.mem x = v x) {addr len : ℕ} (haddr : addr < size) (hlen : len < size)
    (buf : ℕ → UInt8) :
    CallLaw d v (.write addr len buf) ↔ (size ≤ addr + len → ramdiskSize < u32 (addr + len)) := by
  by_cases hbound : ramdiskSize < u32 (addr + len)
  · exact iff_of_true (callLaw_rejected hv (if_pos hbound)) fun _ => hbound
  · have hcall : call d (.write addr len buf) = ⟨noErr, [], storeLoop addr buf d len⟩ := if_neg hbound
    have htouched : touched d (.write addr len buf) = (List.range len).map fun i => u32 (addr + i) := by
      apply touched_of_log
      rw [hcall]
      exact storeLoop_log addr len buf d
    have hmem : ∀ {x}, x < size → addr + len ≤ ramdiskSize →
        ((call d (.write addr len buf)).dev.mem x = if addr ≤ x ∧ x < addr + len then buf (x - addr) else d.mem x) := by
      intro x hx hle
      rw [hcall]
      dsimp only
      rw [storeLoop_mem _ d hlen.le]
      rcases lt_or_ge x addr with hlt | hge
      · have hout : ¬ (x < size ∧ usub x addr < len) := by
          rw [usub_of_lt haddr hlt]
          unfold ramdiskSize size at *
          omega
        rw [if_neg hout, if_neg (fun h => Nat.not_le.mpr hlt h.1)]
      · rw [usub_of_le hx hge]
        apply if_congr _ rfl rfl
        omega
    rw [room_iff hbound]
    constructor
    · exact fun h => h.lt_size haddr hbound htouched
    · intro hin
      have hle : addr + len ≤ ramdiskSize := by
        rw [u32_of_lt hin] at hbound
        exact Nat.not_lt.mp hbound
      have hret : (call d (.write addr len buf)).ret = noErr := by rw [hcall]
      constructor
      · exact touched_lt haddr hbound htouched hin
      · intro x hx
        rcases lt_or_ge x size with hxs | hxs
        · rw [hmem hxs hle, if_neg (by omega)]
        · rw [hcall]
          dsimp only
          rw [storeLoop_mem _ d hlen.le, if_neg (fun h => Nat.not_lt.mpr hxs h.1)]
      · exact fun h => absurd hret h
      · intro x hx
        rw [hmem (hx.trans (by decide)) hle, arrayAfter, if_pos hret, hv x hx]
        rfl
      · intro a n h
        cases h
      · intro page h
        cases h
      · intro a n h
        cases h

theorem callLaw_read_iff (hv : ∀ x < ramdiskSize, d.mem x = v x) {addr len : ℕ} (haddr : addr < size) :
    CallLaw d v (.read addr len) ↔ (size ≤ addr + len → ramdiskSize < u32 (addr + len)) := by
  by_cases hbound : ramdiskSize < u32 (addr + len)
  · exact iff_of_true (callLaw_rejected hv (if_pos hbound)) fun _ => hbound
  · have hcall : call d (.read addr len) = ⟨noErr, (List.range len).map fun i => d.mem (u32 (addr + i)),
        { d with log := d.log ++ (List.range len).map fun i => u32 (addr + i) }⟩ := by
      rw [call, readRamdisk, if_neg hbound, readLoop_eq]
    have htouched : touched d (.read addr len) = (List.range len).map fun i => u32 (addr + i) := by
      apply touched_of_log
      rw [hcall]
    rw [room_iff hbound]
    constructor
    · exact fun h => h.lt_size haddr hbound htouched
    · intro hin
      have hinside := (accepted_iff haddr hbound).mpr hin
      have hret : (call d (.read addr len)).ret = noErr := by rw [hcall]
      have hmem : (call d (.read addr len)).dev.mem = d.mem := by rw [hcall]
      constructor
      · exact touched_lt haddr hbound htouched hin
      · exact fun x _ => congrFun hmem x
      · exact fun _ => hmem
      · intro x hx
        rw [hmem, arrayAfter, if_pos hret, hv x hx]
        rfl
      · intro a n h _
        cases h
        rw [hcall, bytes]
        apply List.map_congr_left
        intro i hi
        have hlt := hinside i (List.mem_range.mp hi)
        have hsum : addr + i < size := by
          have hi' := List.mem_range.mp hi
          omega
        rw [u32_of_lt hsum] at hlt ⊢
        exact hv _ hlt
      · intro page h
        cases h
      · intro a n h
        cases h

theorem callLaw_iff (hv : ∀ x < ramdiskSize, d.mem x = v x) {op : Op} (hop : op.Words) : CallLaw d v op ↔ InRange op := by
  cases op with
  | eraseChip => exact iff_of_true callLaw_eraseChip trivial
  | erasePage page => exact callLaw_erasePage_iff hv page
  | eraseAddrLen addr len => exact callLaw_eraseAddrLen_iff hv hop.1
  | write addr len buf => exact callLaw_write_iff hv hop.1 hop.2 buf
  | read addr len => exact callLaw_read_iff hv hop.1

/-- Every run of calls keeps to the array exactly if each of them is in range. -/
theorem runLaw_iff (hv : ∀ x < ramdiskSize, d.mem x = v x) {ops : List Op} (hops : ∀ op ∈ ops, op.Words) :
    RunLaw d v ops ↔ ∀ op ∈ ops, InRange op := by
  induction ops generalizing d v with
  | nil => exact iff_of_true trivial fun _ h => absurd h List.not_mem_nil
  | cons op ops ih =>
      have hop := callLaw_iff hv (hops op List.mem_cons_self)
      have hrest : CallLaw d v op → (RunLaw (call d op).dev (arrayAfter d v op) ops ↔ ∀ o ∈ ops, InRange o) :=
        fun h => ih h.array fun o ho => hops o (List.mem_cons_of_mem _ ho)
      rw [RunLaw, List.forall_mem_cons, ← hop]
      constructor
      · rintro ⟨hcall, hrun⟩
        exact ⟨hcall, (hrest hcall).mp hrun⟩
      · rintro ⟨hcall, hrun⟩
        exact ⟨hcall, (hrest hcall).mpr hrun⟩

def erased : Dev := ⟨fun _ => 0xFF, []⟩

theorem runLaw_write_read : RunLaw erased erased.mem [.write 0x3FFFFE 2 fun _ => 7, .read 0x3FFFFE 2] ↔
    ∀ op ∈ [.write 0x3FFFFE 2 fun _ => 7, .read 0x3FFFFE 2], InRange op := by
  apply runLaw_iff
  · exact fun _ _ => rfl
  · intro op hop
    rcases List.mem_cons.mp hop with rfl | hop
    · exact ⟨by decide, by decide⟩
    · cases List.mem_singleton.mp hop
      exact ⟨by decide, by decide⟩

/-- A write of two bytes at the top of the address space is accepted and writes two bytes that are not on the device. -/
theorem write_wraps : ¬ RunLaw erased erased.mem [.write 0xFFFFFFFE 2 fun _ => 7] := by
  intro h
  have hlast : 0xFFFFFFFE ∈ touched erased (.write 0xFFFFFFFE 2 fun _ => 7) := by decide
  exact absurd (h.1.bounded _ hlast) (by decide)

end Slos.RamdiskOps
