import Mathlib.Data.Nat.Notation

/-!
# Kernel memory layout

Constants of `mem_layout.h` and of the linker script.
-/

namespace Slos

def kernelFrameBitmap : ℕ := 0xC000
def contextMem : ℕ := 0x4000
def secContextMem : ℕ := 0x5000
def kernPgdStartBase : ℕ := 0x400000
def kernPgtStartBase : ℕ := 0x404000
def taskStackGap : ℕ := 0x1000
def svcStackBase : ℕ := 0x314FFC
def sysStackBase : ℕ := 0x304FFC
def irqStackBase : ℕ := 0x303FFC
def fiqStackBase : ℕ := 0x302FFC
def abtStackBase : ℕ := 0x301FFC
def undefStackBase : ℕ := 0x300FFC
def secSvcStackBase : ℕ := 0x354FFC
def secSysStackBase : ℕ := 0x344FFC
def secIrqStackBase : ℕ := 0x343FFC
def secFiqStackBase : ℕ := 0x342FFC
def secAbtStackBase : ℕ := 0x341FFC
def secUndefStackBase : ℕ := 0x340FFC

def kernFrameStart : ℕ := 0
def kernFrameNum : ℕ := (128 * (1 <<< 20)) / (4 * (1 <<< 10))
def heapFrameStart : ℕ := (64 * (1 <<< 20)) / (4 * (1 <<< 10))
def heapFrameNum : ℕ := (64 * (1 <<< 20)) / (4 * (1 <<< 10))
def preallocFrameNum : ℕ := (64 * (1 <<< 20)) / (4 * (1 <<< 10))

def kernelHeapStart : ℕ := 0xC4000000
def kernelHeapSize : ℕ := 0x4000000
def kernelHeapEnd : ℕ := kernelHeapStart + kernelHeapSize

end Slos
