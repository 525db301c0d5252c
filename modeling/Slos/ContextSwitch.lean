import Slos.Arm
import Slos.Core

/-!
# Context save and restore

The assembly of `vector.S`, `smp-vector.S` and `ops.S` that saves and restores task contexts. Both
cores run the same instructions with their own context memory. The first member of a `task_struct`
is its context, so a task's address is the address of its context; contexts are laid out as
`struct task_context_struct` is, one word each for r0 to r11, sp, lr, pc, a reserved word, s0 to
s31, FPSCR and FPEXC.
-/

namespace Slos
open Word Arm

namespace Core

def contextMem : Core → ℕ
  | cpu0 => 0x4000
  | cpu1 => 0x5000

/-- The literal `irq_handler` loads to save sp, lr and pc at. -/
def contextMemSp : Core → ℕ
  | cpu0 => 0x4030
  | cpu1 => 0x5030

/-- The literal the exit path loads the floating point context from. -/
def contextMemFpu : Core → ℕ
  | cpu0 => 0x4040
  | cpu1 => 0x5040

end Core

def contextMemLen : ℕ := 0xF

def cpuContextSz : ℕ := 0x40

def modeSvc : ℕ := 0x13

def iBit : ℕ := 0x80

def fBit : ℕ := 0x40

def ifBit : ℕ := 0xC0

/-- `{r0-r11}`. -/
def r0r11 : List Reg := [.r0, .r1, .r2, .r3, .r4, .r5, .r6, .r7, .r8, .r9, .r10, .r11]

/-- The exception entry of the core: the return address goes to the link register of the exception
mode, and the control byte masks IRQs and selects the mode. -/
def takeException (mode offset : ℕ) (c : Cpu) : Cpu :=
  (c.set .lrExc (u32 (c.reg .pc + offset))).setCpsr
    (c.cpsr / 256 * 256 + (c.cpsr &&& fBit) + iBit + mode)

/-- An IRQ leaves the address of the next instruction plus 4. -/
def takeIrq : Cpu → Cpu := takeException 0x12 4

/-- `irq_handler` up to the call of `gic_irq_handler`; in IRQ mode `lr` is `lrExc`. -/
def irqSave (core : Core) : List Instr :=
  [ movImm .r12 core.contextMem,
    stmia .r12 r0r11,
    subImm .r0 .lrExc 4,
    msrImm (modeSvc ||| iBit ||| fBit),
    movImm .r12 core.contextMemSp,
    stmia .r12 [.sp, .lr],
    strPost .r0 .r12,
    addImm .r12 .r12 4,
    vstmia .r12,
    readFpscr .r0,
    strPost .r0 .r12,
    readFpexc .r0,
    str .r0 .r12 ]

/-- The instructions after `gic_irq_handler` that end with interrupts enabled. -/
def irqEnable : List Instr :=
  [ mrs .r0,
    bicImm .r1 .r0 (iBit ||| fBit),
    msrReg .r1 ]

/-- The exit path, which runs with interrupts enabled. -/
def irqRestore (core : Core) : List Instr :=
  [ movImm .r12 core.contextMemFpu,
    vldmia .r12,
    ldrPost .r0 .r12,
    writeFpscr .r0,
    ldr .r0 .r12,
    writeFpexc .r0,
    movImm .r12 core.contextMem,
    ldmia .r12 (r0r11 ++ [.sp, .lr, .pc]) ]

/-- `bl smp_processor_id`, with the return address the call leaves in `lr`. -/
def smpProcessorId (ret : ℕ) : Instr := fun c =>
  (c.set .lr ret).set .r0 (c.mpidr &&& (0xFFFFFFFF ^^^ 0xFFFFFFFC))

/-- The copy loops, which count down in r2. -/
def copyLoop (src dst : Reg) : Instr := loopNe (copyRound .r3 src dst .r2) Word.size

/-- Fifteen words, a reserved word that is skipped, thirty-two words and two more. -/
def copyContext (src dst first second : Reg) : List Instr :=
  [ copyLoop src dst,
    addImm first first 4,
    addImm second second 4,
    movImm .r2 32,
    copyLoop src dst,
    ldrPost .r3 src,
    strPost .r3 dst,
    ldrPost .r3 src,
    strPost .r3 dst ]

/-- The address of the context memory is chosen by the id of the core. -/
def selectContextMem (ret : ℕ) : Instr := fun c =>
  let c := exec [smpProcessorId ret, fun c => cmpImm .r0 1 c] c
  if c.reg .r0 = 1 then
    exec [movReg .r0 .r5, movImm .r2 contextMemLen, movImm .r4 Core.cpu1.contextMem,
      movReg .r12 .r4] c
  else
    exec [movImm .r2 contextMemLen, movImm .r4 Core.cpu0.contextMem, movReg .r0 .r5,
      movReg .r12 .r4] c

/-- `do_switch_context(curr, next)`: the context memory goes to `curr` and the context of `next` to
the context memory. -/
def doSwitchContext (ret : ℕ) : List Instr :=
  [push [.r0, .r1, .r2, .r3, .r4, .r5, .lr], movReg .r5 .r0, selectContextMem ret] ++
    copyContext .r4 .r0 .r0 .r4 ++
    [movImm .r2 contextMemLen, movReg .r4 .r12] ++
    copyContext .r1 .r4 .r4 .r1 ++
    [pop [.r0, .r1, .r2, .r3, .r4, .r5, .pc]]

/-- `switch_context_yieldyi(curr, next)`. -/
def switchContextYieldyi : List Instr :=
  [ movReg .r12 .r0,
    stmia .r12 r0r11,
    strPost .sp .r12,
    strPost .lr .r12,
    strPost .lr .r12,
    addImm .r12 .r12 4,
    vstmia .r12,
    readFpscr .r0,
    strPost .r0 .r12,
    readFpexc .r0,
    str .r0 .r12,
    addImm .r12 .r1 cpuContextSz,
    vldmia .r12,
    ldrPost .r0 .r12,
    writeFpscr .r0,
    ldr .r0 .r12,
    writeFpexc .r0,
    movReg .r12 .r1,
    ldmia .r12 r0r11,
    ldrPost .sp .r12,
    ldrPost .lr .r12,
    mrs .r1,
    bicImm .r1 .r1 ifBit,
    msrReg .r1,
    ldr .pc .r12 ]

/-- `struct task_context_struct`, without its reserved word. -/
@[ext] structure Context where
  r : Fin 12 → ℕ
  sp : ℕ
  lr : ℕ
  pc : ℕ
  s : Fin 32 → ℕ
  fpscr : ℕ
  fpexc : ℕ

def gpr (i : Fin 12) : Reg := r0r11.get i

/-- The context at a word of memory. -/
def loadContext (mem : ℕ → ℕ) (a : ℕ) : Context where
  r i := mem (a + i)
  sp := mem (a + 12)
  lr := mem (a + 13)
  pc := mem (a + 14)
  s i := mem (a + 16 + i)
  fpscr := mem (a + 48)
  fpexc := mem (a + 49)

/-- The context of running code. -/
def cpuContext (c : Cpu) : Context where
  r i := c.reg (gpr i)
  sp := c.reg .sp
  lr := c.reg .lr
  pc := c.reg .pc
  s := c.s
  fpscr := c.fpscr
  fpexc := c.fpexc

/-- The words of a context, the reserved one included. -/
def contextWords : ℕ := 50

def Core.contextWord : Core → ℕ
  | .cpu0 => 0x1000
  | .cpu1 => 0x1400

theorem Core.contextMem_eq (core : Core) : core.contextMem = 4 * core.contextWord := by
  cases core <;> rfl

theorem Core.contextMemSp_eq (core : Core) : core.contextMemSp = 4 * (core.contextWord + 12) := by
  cases core <;> rfl

theorem Core.contextMemFpu_eq (core : Core) :
    core.contextMemFpu = 4 * (core.contextWord + 16) := by
  cases core <;> rfl

theorem Core.contextWord_lt (core : Core) : core.contextWord + contextWords < 2 ^ 30 := by
  cases core <;> decide

/-- A context written in the order the code writes it. -/
def saveContext (mem : ℕ → ℕ) (a : ℕ) (x : Context) : ℕ → ℕ :=
  let m := storeBlock mem a (List.ofFn x.r)
  let m := storeBlock m (a + 12) [x.sp, x.lr]
  let m := Function.update m (a + 14) x.pc
  let m := storeBlock m (a + 16) (List.ofFn x.s)
  let m := Function.update m (a + 48) x.fpscr
  Function.update m (a + 49) x.fpexc

theorem storeBlock_ofFn {n : ℕ} (mem : ℕ → ℕ) (a : ℕ) (f : Fin n → ℕ) (i : Fin n) :
    storeBlock mem a (List.ofFn f) (a + i) = f i := by
  rw [storeBlock_of_mem mem (Nat.le_add_right a i) (by rw [List.length_ofFn]; omega),
    Nat.add_sub_cancel_left, List.getD_eq_getElem _ _ (by rw [List.length_ofFn]; omega),
    List.getElem_ofFn]

theorem saveContext_other (mem : ℕ → ℕ) {a w : ℕ} (x : Context)
    (h : w < a ∨ a + contextWords ≤ w) : saveContext mem a x w = mem w := by
  unfold contextWords at h
  unfold saveContext
  rw [Function.update_of_ne (by omega), Function.update_of_ne (by omega),
    storeBlock_of_notMem _ (by rw [List.length_ofFn]; omega), Function.update_of_ne (by omega),
    storeBlock_of_notMem _ (by simp only [List.length_cons, List.length_nil]; omega),
    storeBlock_of_notMem _ (by rw [List.length_ofFn]; omega)]

/-- What is written as a context reads back as that context. -/
theorem loadContext_saveContext (mem : ℕ → ℕ) (a : ℕ) (x : Context) :
    loadContext (saveContext mem a x) a = x := by
  have hlen : [x.sp, x.lr].length = 2 := rfl
  have hlow : ∀ w, w < a + 16 → saveContext mem a x w =
      Function.update (storeBlock (storeBlock mem a (List.ofFn x.r)) (a + 12) [x.sp, x.lr])
        (a + 14) x.pc w := by
    intro w hw
    unfold saveContext
    rw [Function.update_of_ne (by omega), Function.update_of_ne (by omega),
      storeBlock_of_notMem _ (by omega)]
  ext i
  · change saveContext mem a x (a + i) = x.r i
    rw [hlow _ (by omega), Function.update_of_ne (by omega), storeBlock_of_notMem _ (by omega)]
    exact storeBlock_ofFn mem a x.r i
  · change saveContext mem a x (a + 12) = x.sp
    rw [hlow _ (by omega), Function.update_of_ne (by omega), storeBlock_of_mem _ le_rfl (by omega),
      Nat.sub_self]
    rfl
  · change saveContext mem a x (a + 13) = x.lr
    rw [hlow _ (by omega), Function.update_of_ne (by omega),
      storeBlock_of_mem _ (by omega) (by omega), Nat.add_sub_add_left]
    rfl
  · change saveContext mem a x (a + 14) = x.pc
    rw [hlow _ (by omega), Function.update_self]
  · change saveContext mem a x (a + 16 + i) = x.s i
    unfold saveContext
    rw [Function.update_of_ne (by omega), Function.update_of_ne (by omega)]
    exact storeBlock_ofFn _ (a + 16) x.s i
  · change saveContext mem a x (a + 48) = x.fpscr
    unfold saveContext
    rw [Function.update_of_ne (by omega), Function.update_self]
  · exact Function.update_self ..

end Slos
