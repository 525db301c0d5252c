import Slos.ByteMemory

/-!
# The ramdisk

The functions behind `io_ops` of `ramdisk_io.c`. Memory is the whole 32-bit address space, counted
from `RAMDISK_START` on: the device is the first `RAMDISK_SIZE` bytes, the rest is other memory, which
`cpuWord` reads at a plain address.
-/

namespace Slos.Ramdisk
open Word ByteMemory

@[simp] def ramdiskStart : ℕ := 0x03000000

@[simp] def ramdiskSize : ℕ := 0x400000

@[simp] def ramdiskBlkSize : ℕ := 0x200

@[simp] def ramdiskPageSize : ℕ := 0x1000

@[simp] def ramdiskPageSizeShift : ℕ := 12

@[simp] def ramdiskPageNum : ℕ := ramdiskSize / ramdiskPageSize

def eraseRamdiskChip (m : Mem) : Mem := fun x => if x < ramdiskSize then 0xFF else m x

/-- The page number is not checked. -/
def eraseRamdiskPage (m : Mem) (page : ℕ) : Mem := fun x =>
  if x < size ∧ usub x (u32 (page * ramdiskPageSize)) < ramdiskPageSize then 0xFF else m x

def writeRamdisk (m : Mem) (addr : ℕ) (buf : List UInt8) : Option Mem :=
  if ramdiskSize < u32 (addr + buf.length) then none
  else some fun x => if x < size then (buf[usub x addr]?).getD (m x) else m x

def readRamdisk (m : Mem) (addr len : ℕ) : Option (List UInt8) :=
  if ramdiskSize < u32 (addr + len) then none
  else some ((List.range len).map fun i => m (u32 (addr + i)))

/-- `*((uint32_t *)addr)`, past the device window. -/
def cpuWord (m : Mem) (addr : ℕ) : ℕ :=
  wordOf (m (usub addr ramdiskStart)) (m (usub (addr + 1) ramdiskStart))
    (m (usub (addr + 2) ramdiskStart)) (m (usub (addr + 3) ramdiskStart))

variable {m : Mem} {addr len : ℕ} {buf : List UInt8}

theorem writeRamdisk_of_le (h : addr + buf.length ≤ ramdiskSize) :
    writeRamdisk m addr buf = some (put m addr buf) := by
  have hlt : addr + buf.length < size := h.trans_lt (by decide)
  rw [writeRamdisk, u32_of_lt hlt, if_neg (Nat.not_lt.mpr h)]
  congr 1
  funext x
  by_cases hx : x < size
  · rw [if_pos hx]
    rcases lt_or_ge x addr with hxa | hxa
    · have hw := usub_of_lt (by omega) hxa
      rw [put_of_lt hxa, List.getElem?_eq_none (by omega), Option.getD_none]
    · rw [usub_of_le hx hxa, put, if_pos hxa]
  · rw [if_neg hx, put_of_ge (by omega)]

theorem readRamdisk_of_le (h : addr + len ≤ ramdiskSize) :
    readRamdisk m addr len = some (bytes m addr len) := by
  have hlt : addr + len < size := h.trans_lt (by decide)
  rw [readRamdisk, u32_of_lt hlt, if_neg (Nat.not_lt.mpr h), bytes]
  congr 1
  refine List.map_congr_left fun i hi => ?_
  have hi' : i < len := List.mem_range.mp hi
  rw [u32_of_lt (by omega)]

theorem eraseRamdiskPage_of_lt {page : ℕ} (h : page < ramdiskPageNum) :
    eraseRamdiskPage m page = put m (page * ramdiskPageSize) (List.replicate ramdiskPageSize 0xFF) := by
  have hpage : page < 1024 := h
  have hlt : page * 4096 < size := by
    unfold size
    omega
  funext x
  rw [put_replicate]
  simp only [eraseRamdiskPage, ramdiskPageSize, u32_of_lt hlt]
  congr 1
  rw [eq_iff_iff]
  constructor
  · rintro ⟨hx, hd⟩
    rcases lt_or_ge x (page * 4096) with hlo | hlo
    · have hw := usub_of_lt hlt hlo
      unfold size at *
      omega
    · rw [usub_of_le hx hlo] at hd
      omega
  · rintro ⟨hlo, hhi⟩
    have hx : x < size := by
      unfold size
      omega
    rw [usub_of_le hx hlo]
    exact ⟨hx, by omega⟩

end Slos.Ramdisk
