import Slos.ContextOps
import Slos.DemandPaging

/-!
# The data abort handler

`data_abort_handler` of both cores around `platform_data_abort_handler`, which maps a page and otherwise does what a C
function may do: it keeps r4 to r11 and sp and writes to the stack below sp. The memory of the processor is the
physical memory without the page tables and the frame bitmap, which are in the `PageState`; the stack is mapped to
itself.
-/

namespace Slos.DataAbort
open Word Arm

/-- What a C function leaves in the registers it need not keep, in the flags and in its stack. -/
structure Clobber where
  r0 : ℕ
  r1 : ℕ
  r2 : ℕ
  r3 : ℕ
  r12 : ℕ
  lr : ℕ
  flags : ℕ
  stack : ℕ → ℕ

/-- The stack of a task has 1024 words. -/
def StackBelow (sp w : ℕ) : Prop := sp / 4 ≤ w + 1024 ∧ w < sp / 4

instance (sp w : ℕ) : Decidable (StackBelow sp w) := inferInstanceAs (Decidable (_ ∧ _))

/-- `bl platform_data_abort_handler`, the page tables apart. -/
def callHandler (k : Clobber) : Instr := fun c =>
  { c with
    reg := fun q => match q with
      | .r0 => k.r0
      | .r1 => k.r1
      | .r2 => k.r2
      | .r3 => k.r3
      | .r12 => k.r12
      | .lr => k.lr
      | q => c.reg q
    cpsr := k.flags % 16 * 2 ^ 28 + c.cpsr % 2 ^ 28
    mem := fun w => if StackBelow (c.reg .sp) w then k.stack w else c.mem w }

def translationFltSec : ℕ := 0x5

def translationFltPg : ℕ := 0x7

/-- The data fault status of an access to an absent page. -/
def dfsr (s : PageState) (pfa : ℕ) : ℕ :=
  if s.pageDir (pgdIdx pfa) &&& 0x3 = 0 then translationFltSec else translationFltPg

/-- The handler does not come back from `kernel_abort`. -/
def platformDataAbortHandler (s : PageState) (dfsr pfa : ℕ) : Option PageState :=
  if dfsr &&& translationFltPg = translationFltPg then some (handleFault s pfa)
  else if dfsr &&& translationFltSec = translationFltSec then some (handleFault s pfa)
  else none

/-- A data abort leaves the address of the instruction plus 8. -/
def takeDataAbort : Cpu → Cpu := takeException 0x17 8

def dataAbortHandler (dfsr : ℕ) (k : Clobber) : List Instr :=
  [ subImm .r12 .lrExc 8,
    msrImm (modeSvc ||| iBit ||| fBit),
    push (r0r11 ++ [.r12]),
    push [.lr],
    movImm .r0 dfsr,
    callHandler k,
    pop [.lr],
    mrs .r0,
    bicImm .r1 .r0 (iBit ||| fBit),
    msrReg .r1,
    pop (r0r11 ++ [.pc]) ]

def secDataAbortHandler (dfsr : ℕ) (k : Clobber) : List Instr := dataAbortHandler dfsr k

/-- How much of a word is loaded or stored. -/
inductive Width where
  | word
  | half
  | byte

/-- The part of the word `x` at an aligned address. -/
def Width.get (wd : Width) (va x : ℕ) : ℕ :=
  match wd with
  | .word => x
  | .half => x / 2 ^ (16 * (va / 2 % 2)) % 2 ^ 16
  | .byte => x / 2 ^ (8 * (va % 4)) % 2 ^ 8

/-- The word `x` with that part replaced. -/
def Width.put (wd : Width) (va x v : ℕ) : ℕ :=
  match wd with
  | .word => v
  | .half => x - wd.get va x * 2 ^ (16 * (va / 2 % 2)) + v % 2 ^ 16 * 2 ^ (16 * (va / 2 % 2))
  | .byte => x - wd.get va x * 2 ^ (8 * (va % 4)) + v % 2 ^ 8 * 2 ^ (8 * (va % 4))

inductive Offset where
  | imm (off : ℕ)
  | reg (m : Reg) (lsl : ℕ)

def Offset.value (off : Offset) (c : Cpu) : ℕ :=
  match off with
  | .imm off => off
  | .reg m lsl => u32 (c.reg m * 2 ^ lsl)

/-- A load or store of a word, a halfword or a byte. -/
inductive Access where
  | ldr (wd : Width) (d n : Reg) (off : Offset)
  | str (wd : Width) (d n : Reg) (off : Offset)

/-- The registers the instruction names. -/
def Access.regs : Access → List Reg
  | .ldr _ d n (.imm _) | .str _ d n (.imm _) => [d, n]
  | .ldr _ d n (.reg m _) | .str _ d n (.reg m _) => [d, n, m]

def Access.width : Access → Width
  | .ldr wd _ _ _ | .str wd _ _ _ => wd

def Access.address (a : Access) (c : Cpu) : ℕ :=
  match a with
  | .ldr _ _ n off | .str _ _ n off => u32 (c.reg n + off.value c)

/-- Neither level of the walk may be empty. -/
def Unmapped (s : PageState) (va : ℕ) : Prop := s.pageDir (pgdIdx va) &&& 0x3 = 0 ∨ Absent (s.pageTbl (pteIdx va))

instance (s : PageState) (va : ℕ) : Decidable (Unmapped s va) := inferInstanceAs (Decidable (_ ∨ _))

def translate (s : PageState) (va : ℕ) : ℕ := s.pageTbl (pteIdx va) >>> 12 * 4096 + va % 4096

/-- What is read at the address, if its page is present. -/
def Access.value (s : PageState) (a : Access) (c : Cpu) : Option ℕ :=
  let va := a.address c
  if Unmapped s va then none else some (a.width.get va (c.mem (translate s va / 4)))

/-- An access to an absent page has no result. -/
def Access.run (s : PageState) (a : Access) (c : Cpu) : Option Cpu :=
  let va := a.address c
  let p := translate s va / 4
  if Unmapped s va then none
  else match a with
    | .ldr wd d _ _ => some (c.set d (wd.get va (c.mem p)))
    | .str wd d _ _ => some (c.setMem (Function.update c.mem p (wd.put va (c.mem p) (c.reg d))))

/-- The registers that code in SVC mode has. -/
def visible : List Reg := r0r11 ++ [.r12, .sp, .lr]

/-- A load or store of SVC-mode code that touches an absent page of the kernel heap. -/
structure Fault where
  cpu : Cpu
  pages : PageState
  access : Access
  accounted : DemandPaging.Accounted pages
  heap : DemandPaging.HeapAddr (access.address cpu)
  absent : Absent (pages.pageTbl (pteIdx (access.address cpu)))
  mode : cpu.cpsr % 32 = modeSvc
  pc_lt : cpu.reg .pc + 8 < size
  aligned : cpu.reg .sp % 4 = 0
  room : 4 * 1024 + 56 ≤ cpu.reg .sp
  stack : cpu.reg .sp ≤ secSvcStackBase
  regs : ∀ q ∈ access.regs, q ∈ visible ++ [.pc]

/-- The processor and the tables when the handler has returned. -/
def Fault.handled (f : Fault) (k : Clobber) : Option (Cpu × PageState) :=
  let pfa := f.access.address f.cpu
  (platformDataAbortHandler f.pages (dfsr f.pages pfa) pfa).map fun s =>
    (exec (dataAbortHandler (dfsr f.pages pfa) k) (takeDataAbort f.cpu), s)

/-- The memory when the handler has returned. -/
def leftMem (k : Clobber) (c : Cpu) : ℕ → ℕ :=
  let a := c.reg .sp / 4
  fun w => if StackBelow (4 * (a - 14)) w then k.stack w
    else storeBlock (storeBlock c.mem (a - 13) (r0r11.map c.reg ++ [c.reg .pc])) (a - 14) [c.reg .lr] w

/-- The processor when the handler has returned, the status word apart. -/
def Fault.left (f : Fault) (k : Clobber) : Cpu :=
  { f.cpu with reg := Function.update f.cpu.reg .r12 k.r12, mem := leftMem k f.cpu }

/-- The tables with the page present. -/
def Fault.mapped (f : Fault) : PageState := handleFault f.pages (f.access.address f.cpu)

/-- The words below sp that the handler may use. -/
def Fault.Below (f : Fault) (w : ℕ) : Prop := f.cpu.reg .sp / 4 ≤ w + 1024 + 14 ∧ w < f.cpu.reg .sp / 4

/-- What the code can see. -/
structure Agree (f : Fault) (c c' : Cpu) : Prop where
  reg : ∀ q ∈ visible, c'.reg q = c.reg q
  flags : nzcv c'.cpsr = nzcv c.cpsr
  irq : irqMasked c'.cpsr = irqMasked c.cpsr
  fiq : fiqMasked c'.cpsr = fiqMasked c.cpsr
  mem : ∀ w, ¬ f.Below w → c'.mem w = c.mem w

/-- Executed again after the handler, the instruction does what it would have done with the page present. -/
def Fault.Transparent (f : Fault) (k : Clobber) : Prop :=
  ∃ c s, f.handled k = some (c, s) ∧ ∃ d d', f.access.run s f.cpu = some d ∧ f.access.run s c = some d' ∧ Agree f d d'

/-- r12 is loaded by the instruction itself, and with what it would have read. -/
def Fault.Reloads (f : Fault) (k : Clobber) : Prop :=
  ∃ wd n off, f.access = .ldr wd .r12 n off ∧
    f.access.value f.mapped (f.left k) = f.access.value f.mapped f.cpu

structure Fault.Undisturbed (f : Fault) (k : Clobber) : Prop where
  flags : k.flags % 16 = nzcv f.cpu.cpsr
  irq : irqMasked f.cpu.cpsr = false
  fiq : fiqMasked f.cpu.cpsr = false
  r12 : k.r12 = f.cpu.reg .r12 ∨ f.Reloads k

section Handler

variable {c c' : Cpu} {a : ℕ}

theorem push_spec (regs : List Reg) (hsp : c.reg .sp = 4 * a) (hlen : regs.length ≤ a) (ha : a < 2 ^ 30) :
    (push regs c).mem = storeBlock c.mem (a - regs.length) (regs.map c.reg) ∧
      (push regs c).reg .sp = 4 * (a - regs.length) ∧ ∀ q, q ≠ .sp → (push regs c).reg q = c.reg q := by
  have hsub : usub (4 * a) (4 * regs.length) = 4 * (a - regs.length) := by
    rw [usub_of_le (by unfold size; omega) (by omega)]
    omega
  refine ⟨?_, ?_, fun q hq => ?_⟩
  · rw [push_mem, hsp, hsub, Nat.mul_div_cancel_left _ (by decide)]
  · rw [push_reg, Function.update_self, hsp, hsub]
  · rw [push_reg, Function.update_of_ne hq]

theorem pop_spec (regs : List Reg) (hsp : c.reg .sp = 4 * a) (hnot : Reg.sp ∉ regs) (ha : a + regs.length < 2 ^ 30) :
    (∀ q ∈ regs, (pop regs c).reg q = c.mem (a + regs.idxOf q)) ∧
      (pop regs c).reg .sp = 4 * (a + regs.length) ∧
      ∀ q, q ∉ regs → q ≠ .sp → (pop regs c).reg q = c.reg q := by
  have hword : c.wordAt .sp = a := by rw [Cpu.wordAt, hsp, Nat.mul_div_cancel_left _ (by decide)]
  refine ⟨fun q hq => ?_, ?_, fun q hq hne => ?_⟩
  · simp [pop, hq, hword]
  · simpa [pop, hnot, hsp] using u32_words ha
  · simp [pop, hq, hne]

/-- The control byte of a status word. -/
theorem testBit_control (x y : ℕ) {i : ℕ} (hi : i < 8) : (x / 256 * 256 + y % 256).testBit i = y.testBit i := by
  have hlow : (x / 256 * 256 + y % 256) % 2 ^ 8 = y % 2 ^ 8 := by omega
  have hbit := congrArg (Nat.testBit · i) hlow
  simpa only [Nat.testBit_mod_two_pow, hi, decide_true, Bool.true_and] using hbit

/-- The handler gives back everything but r12, the flags and the interrupt masks. -/
structure Handled (k : Clobber) (c c' : Cpu) : Prop where
  reg : ∀ q ∈ visible ++ [.pc], q ≠ .r12 → c'.reg q = c.reg q
  r12 : c'.reg .r12 = k.r12
  flags : nzcv c'.cpsr = k.flags % 16
  irq : irqMasked c'.cpsr = false
  fiq : fiqMasked c'.cpsr = false
  mem : c'.mem = leftMem k c

theorem leftMem_of_out (k : Clobber) {w : ℕ} (hw : ¬ (c.reg .sp / 4 ≤ w + 1024 + 14 ∧ w < c.reg .sp / 4))
    (hsp : 1024 + 14 ≤ c.reg .sp / 4) : leftMem k c w = c.mem w := by
  have hout : ¬ StackBelow (4 * (c.reg .sp / 4 - 14)) w := by
    unfold StackBelow
    omega
  have hlen : (r0r11.map c.reg ++ [c.reg .pc]).length = 13 := rfl
  rw [leftMem]
  simp only
  rw [if_neg hout, storeBlock_of_notMem _ (by rw [List.length_singleton]; omega), storeBlock_of_notMem _ (by rw [hlen]; omega)]

/-- The handler up to the call: where it returns to and r0 to r11 are on the stack, and r14 below them. -/
theorem handler_entered (hpc : c.reg .pc + 8 < size) (hsp : c.reg .sp = 4 * a) (ha : 14 ≤ a) (ha' : a < 2 ^ 29) :
    let d := exec [subImm .r12 .lrExc 8, msrImm (modeSvc ||| iBit ||| fBit), push (r0r11 ++ [.r12]), push [.lr]]
      (takeDataAbort c)
    d.reg .sp = 4 * (a - 14) ∧
      d.mem = storeBlock (storeBlock c.mem (a - 13) (r0r11.map c.reg ++ [c.reg .pc])) (a - 14) [c.reg .lr] := by
  obtain ⟨c₁, hc₁⟩ : ∃ d, d = msrImm (modeSvc ||| iBit ||| fBit) (subImm .r12 .lrExc 8 (takeDataAbort c)) := ⟨_, rfl⟩
  have hreg₁ : ∀ q, q ≠ .r12 → q ≠ .lrExc → c₁.reg q = c.reg q := by
    intro q h1 h2
    simp [hc₁, takeDataAbort, takeException, h1, h2]
  have hr12₁ : c₁.reg .r12 = c.reg .pc := by
    have hret : usub (u32 (c.reg .pc + 8)) 8 = c.reg .pc := by
      rw [u32_of_lt hpc, usub_of_le hpc (Nat.le_add_left _ _), Nat.add_sub_cancel]
    simp [hc₁, takeDataAbort, takeException, hret]
  have hmem₁ : c₁.mem = c.mem := by simp [hc₁, takeDataAbort, takeException]
  have hlen : (r0r11 ++ [Reg.r12]).length = 13 := rfl
  obtain ⟨c₂, hc₂⟩ : ∃ d, d = push (r0r11 ++ [.r12]) c₁ := ⟨_, rfl⟩
  obtain ⟨hmem₂, hsp₂, hreg₂⟩ := push_spec (r0r11 ++ [.r12]) ((hreg₁ .sp (by decide) (by decide)).trans hsp)
    (le_trans (by decide) ha) (by omega)
  rw [← hc₂] at hmem₂ hsp₂ hreg₂
  rw [hlen] at hmem₂ hsp₂
  obtain ⟨hmem₃, hsp₃, -⟩ := push_spec [.lr] hsp₂ (by rw [List.length_singleton]; omega) (by omega)
  rw [List.length_singleton, Nat.sub_sub] at hmem₃ hsp₃
  have hpushed : (r0r11 ++ [Reg.r12]).map c₁.reg = r0r11.map c.reg ++ [c.reg .pc] := by
    rw [List.map_append, List.map_singleton, hr12₁, List.append_left_inj]
    apply List.map_congr_left
    intro q hq
    have hq' : q ≠ .r12 ∧ q ≠ .lrExc := by
      revert q
      decide
    exact hreg₁ q hq'.1 hq'.2
  have hlr₂ : [Reg.lr].map c₂.reg = [c.reg .lr] := by
    simp [hreg₂ .lr (by decide), hreg₁ .lr (by decide) (by decide)]
  rw [hmem₂, hmem₁, hpushed, hlr₂] at hmem₃
  rw [hc₂, hc₁] at hmem₃ hsp₃
  exact ⟨hsp₃, hmem₃⟩

/-- The handler behind the call: it loads `ws` from the stack, and r14 from below it. -/
theorem handler_left {d : Cpu} {ws : List ℕ} (hsp : d.reg .sp = 4 * (a - 14)) (ha : 14 ≤ a) (ha' : a < 2 ^ 29)
    (hws : ∀ j < 13, d.mem (a - 14 + 1 + j) = ws.getD j 0) :
    let d' := exec [pop [.lr], mrs .r0, bicImm .r1 .r0 (iBit ||| fBit), msrReg .r1, pop (r0r11 ++ [.pc])] d
    d'.mem = d.mem ∧ d'.reg .sp = 4 * a ∧ d'.reg .lr = d.mem (a - 14) ∧ d'.reg .r12 = d.reg .r12 ∧
      (∀ q ∈ r0r11 ++ [.pc], d'.reg q = ws.getD ((r0r11 ++ [Reg.pc]).idxOf q) 0) ∧
      d'.cpsr = d.cpsr / 256 * 256 + (d.cpsr &&& (0xFFFFFFFF ^^^ (iBit ||| fBit))) % 256 := by
  obtain ⟨d₁, hd₁⟩ : ∃ e, e = pop [.lr] d := ⟨_, rfl⟩
  obtain ⟨hload₁, hsp₁, hreg₁⟩ := pop_spec [.lr] hsp (by decide) (by rw [List.length_singleton]; omega)
  rw [← hd₁] at hload₁ hsp₁ hreg₁
  obtain ⟨d₂, hd₂⟩ : ∃ e, e = exec [mrs .r0, bicImm .r1 .r0 (iBit ||| fBit), msrReg .r1] d₁ := ⟨_, rfl⟩
  have hreg₂ : ∀ q, q ≠ .r0 → q ≠ .r1 → d₂.reg q = d₁.reg q := by
    intro q h0 h1
    simp [hd₂, h0, h1]
  have hmem₂ : d₂.mem = d.mem := by
    rw [hd₂, hd₁]
    rfl
  have hlen : (r0r11 ++ [Reg.pc]).length = 13 := rfl
  obtain ⟨hload, hsp₃, hreg₃⟩ := pop_spec (a := a - 14 + 1) (r0r11 ++ [.pc])
    ((hreg₂ .sp (by decide) (by decide)).trans hsp₁) (by decide) (by rw [hlen]; omega)
  have hend : exec [pop [.lr], mrs .r0, bicImm .r1 .r0 (iBit ||| fBit), msrReg .r1, pop (r0r11 ++ [.pc])] d =
      pop (r0r11 ++ [.pc]) d₂ := by
    rw [hd₂, hd₁]
    rfl
  rw [hend]
  refine ⟨hmem₂, ?_, ?_, ?_, fun q hq => ?_, ?_⟩
  · rw [hsp₃, hlen]
    omega
  · rw [hreg₃ .lr (by decide) (by decide), hreg₂ .lr (by decide) (by decide), hload₁ .lr List.mem_cons_self,
      List.idxOf_cons_self, Nat.add_zero]
  · rw [hreg₃ .r12 (by decide) (by decide), hreg₂ .r12 (by decide) (by decide), hreg₁ .r12 (by decide) (by decide)]
  · have hidx : (r0r11 ++ [Reg.pc]).idxOf q < 13 := List.idxOf_lt_length_iff.mpr hq
    rw [hload q hq, hmem₂, hws _ hidx]
  · rw [pop, ldmia_cpsr, hd₂, hd₁]
    simp [pop]

theorem dataAbortHandler_handled (dfsr : ℕ) (k : Clobber) (hpc : c.reg .pc + 8 < size) (hsp : c.reg .sp = 4 * a)
    (ha : 14 ≤ a) (ha' : a < 2 ^ 29) : Handled k c (exec (dataAbortHandler dfsr k) (takeDataAbort c)) := by
  obtain ⟨c₁, hc₁⟩ : ∃ d, d = exec [subImm .r12 .lrExc 8, msrImm (modeSvc ||| iBit ||| fBit), push (r0r11 ++ [.r12]),
      push [.lr]] (takeDataAbort c) := ⟨_, rfl⟩
  obtain ⟨hsp₁, hmem₁⟩ := handler_entered hpc hsp ha ha'
  rw [← hc₁] at hsp₁ hmem₁
  obtain ⟨c₂, hc₂⟩ : ∃ d, d = callHandler k (movImm .r0 dfsr c₁) := ⟨_, rfl⟩
  have hsp₂ : c₂.reg .sp = 4 * (a - 14) := by
    rw [hc₂]
    simpa [callHandler] using hsp₁
  have hmem₂ : ∀ w, c₂.mem w = if StackBelow (4 * (a - 14)) w then k.stack w else c₁.mem w := by
    intro w
    have hsp : (movImm .r0 dfsr c₁).reg .sp = 4 * (a - 14) := by simpa using hsp₁
    rw [hc₂, callHandler, hsp, movImm_mem]
  have hkept : ∀ w, a - 14 ≤ w → c₂.mem w = c₁.mem w := by
    intro w hw
    have hout : ¬ StackBelow (4 * (a - 14)) w := by
      unfold StackBelow
      omega
    rw [hmem₂, if_neg hout]
  have hlen : (r0r11.map c.reg ++ [c.reg .pc]).length = 13 := rfl
  have hws : ∀ j < 13, c₂.mem (a - 14 + 1 + j) = (r0r11.map c.reg ++ [c.reg .pc]).getD j 0 := by
    intro j hj
    have hidx : a - 14 + 1 + j - (a - 13) = j := by omega
    rw [hkept _ (by omega), hmem₁, storeBlock_of_notMem _ (by rw [List.length_singleton]; omega),
      storeBlock_of_mem _ (by omega) (by rw [hlen]; omega), hidx]
  have hlr : c₂.mem (a - 14) = c.reg .lr := by
    rw [hkept _ le_rfl, hmem₁, storeBlock_of_mem _ le_rfl (by rw [List.length_singleton]; omega), Nat.sub_self]
    rfl
  obtain ⟨hmem, hsp', hlr', hr12, hload, hcpsr⟩ := handler_left hsp₂ ha ha' hws
  have hend : exec (dataAbortHandler dfsr k) (takeDataAbort c) = exec [pop [.lr], mrs .r0,
      bicImm .r1 .r0 (iBit ||| fBit), msrReg .r1, pop (r0r11 ++ [.pc])] c₂ := by
    rw [hc₂, hc₁]
    rfl
  rw [← hend] at hmem hsp' hlr' hr12 hload hcpsr
  have hflags : c₂.cpsr = k.flags % 16 * 2 ^ 28 + c₁.cpsr % 2 ^ 28 := by rw [hc₂]; rfl
  have hget : ∀ q ∈ r0r11 ++ [.pc], (r0r11.map c.reg ++ [c.reg .pc]).getD ((r0r11 ++ [Reg.pc]).idxOf q) 0 = c.reg q := by
    intro q hq
    have hsome : (r0r11 ++ [Reg.pc])[(r0r11 ++ [Reg.pc]).idxOf q]? = some q := by
      revert q
      decide
    have hmap : r0r11.map c.reg ++ [c.reg .pc] = (r0r11 ++ [Reg.pc]).map c.reg := by
      rw [List.map_append, List.map_singleton]
    rw [hmap, List.getD_eq_getElem?_getD, List.getElem?_map, hsome]
    rfl
  constructor
  · intro q hq hne
    have hcases : q ∈ r0r11 ++ [.pc] ∨ q = .sp ∨ q = .lr := by
      revert q
      decide
    rcases hcases with hq' | rfl | rfl
    · exact (hload q hq').trans (hget q hq')
    · exact hsp'.trans hsp.symm
    · exact hlr'.trans hlr
  · rw [hr12, hc₂]
    rfl
  · rw [hcpsr, hflags, nzcv]
    omega
  · rw [hcpsr, irqMasked, testBit_control _ _ (by decide), Nat.testBit_and]
    exact Bool.and_false _
  · rw [hcpsr, fiqMasked, testBit_control _ _ (by decide), Nat.testBit_and]
    exact Bool.and_false _
  · funext w
    rw [hmem, hmem₂, hmem₁, leftMem, hsp, Nat.mul_div_cancel_left _ (by decide)]

end Handler

section Fault

variable (f : Fault) (k : Clobber)

theorem platform_fault : platformDataAbortHandler f.pages (dfsr f.pages (f.access.address f.cpu))
    (f.access.address f.cpu) = some f.mapped := by
  unfold dfsr
  split_ifs <;> rfl

theorem Fault.handled_eq :
    ∃ c, f.handled k = some (c, f.mapped) ∧ Handled k f.cpu c := by
  obtain ⟨a, ha⟩ : ∃ a, f.cpu.reg .sp = 4 * a := ⟨f.cpu.reg .sp / 4, by have := f.aligned; omega⟩
  have hroom := f.room
  have hstack := f.stack
  unfold secSvcStackBase at hstack
  refine ⟨_, ?_, dataAbortHandler_handled (dfsr f.pages (f.access.address f.cpu)) k f.pc_lt ha (by omega) (by omega)⟩
  rw [Fault.handled, platform_fault]
  rfl

theorem pageDir_mapped (x : ℕ) : (x ||| 0x1E1) &&& 0x3 ≠ 0 := by
  intro h
  have hbit := congrArg (Nat.testBit · 0) h
  simp at hbit

/-- The page is mapped to a frame above the kernel. -/
theorem Fault.mapped_page : ¬ Unmapped f.mapped (f.access.address f.cpu) ∧
    16384 * 4096 ≤ translate f.mapped (f.access.address f.cpu) := by
  obtain ⟨p, hp, -, hres, -⟩ :=
    DemandPaging.getFrame_heap f.accounted (DemandPaging.pteIdx_mem_heapPages f.heap) f.absent
  have hlt := DemandPaging.mem_heapFrames.mp hp
  have hpte : f.mapped.pageTbl (pteIdx (f.access.address f.cpu)) = p * 4096 ||| 0x472 := by
    rw [Fault.mapped, handleFault]
    simp only [Function.update_self]
    rw [hres, frameToPhyAddr_natCast (by unfold size; omega)]
  constructor
  · unfold Unmapped
    rw [hpte, not_or]
    refine ⟨?_, not_absent_mapped p⟩
    simp only [Fault.mapped, handleFault]
    split_ifs with hpde
    · rw [Function.update_self]
      exact pageDir_mapped _
    · exact hpde
  · rw [translate, hpte, frame_of_pte]
    omega

theorem Access.address_congr {a : Access} {c c' : Cpu} (h : ∀ q ∈ a.regs, c'.reg q = c.reg q) :
    a.address c' = a.address c := by
  cases a with
  | ldr wd d n off => cases off <;> simp_all [Access.address, Access.regs, Offset.value]
  | str wd d n off => cases off <;> simp_all [Access.address, Access.regs, Offset.value]

theorem Access.dest_mem_regs {wd : Width} {d n : Reg} {off : Offset} : d ∈ (Access.str wd d n off).regs := by
  cases off <;> exact List.mem_cons_self

theorem Access.run_ldr {s : PageState} {wd : Width} {d n : Reg} {off : Offset} {c : Cpu} :
    (Access.ldr wd d n off).run s c = ((Access.ldr wd d n off).value s c).map (c.set d) := by
  simp only [Access.run, Access.value]
  split_ifs <;> rfl

variable {f k}

theorem Access.run_keeps {s : PageState} {a : Access} {c d : Cpu} (h : a.run s c = some d) : d.cpsr = c.cpsr ∧
    ∀ q, (∀ wd n off, a ≠ .ldr wd q n off) → d.reg q = c.reg q := by
  cases a with
  | ldr wd r n off =>
    simp only [Access.run] at h
    split_ifs at h
    cases h
    refine ⟨rfl, fun q hq => ?_⟩
    rw [Cpu.set_reg, if_neg]
    rintro rfl
    exact hq wd n off rfl
  | str wd r n off =>
    simp only [Access.run] at h
    split_ifs at h
    cases h
    exact ⟨rfl, fun q _ => rfl⟩

theorem Fault.mem_of_out (f : Fault) {c : Cpu} (h : Handled k f.cpu c) {w : ℕ} (hw : ¬ f.Below w) :
    c.mem w = f.cpu.mem w := by
  have hroom := f.room
  rw [h.mem]
  exact leftMem_of_out k hw (by omega)

theorem Fault.not_below (f : Fault) {w : ℕ} (hw : 16384 * 1024 ≤ w) : ¬ f.Below w := by
  have hstack := f.stack
  unfold secSvcStackBase at hstack
  unfold Fault.Below
  omega

theorem Fault.value_mapped (f : Fault) : f.access.value f.mapped f.cpu =
    some (f.access.width.get (f.access.address f.cpu)
      (f.cpu.mem (translate f.mapped (f.access.address f.cpu) / 4))) := if_neg f.mapped_page.1

/-- The instruction names no register in which the handler's processor and `left` differ. -/
theorem Fault.value_left (f : Fault) {c : Cpu} (h : Handled k f.cpu c) (s : PageState) :
    f.access.value s c = f.access.value s (f.left k) := by
  have haddr : f.access.address c = f.access.address (f.left k) := by
    apply Access.address_congr
    intro q hq
    by_cases h12 : q = .r12
    · rw [h12, h.r12]
      exact (Function.update_self Reg.r12 k.r12 f.cpu.reg).symm
    · rw [h.reg q (f.regs q hq) h12]
      exact (Function.update_of_ne h12 k.r12 f.cpu.reg).symm
  have hmem : (f.left k).mem = c.mem := h.mem.symm
  unfold Access.value
  rw [haddr, hmem]

theorem Fault.agree_set (f : Fault) {c : Cpu} (h : Handled k f.cpu c) (hk : k.flags % 16 = nzcv f.cpu.cpsr)
    (hirq : irqMasked f.cpu.cpsr = false) (hfiq : fiqMasked f.cpu.cpsr = false) {d : Reg}
    (h12 : k.r12 = f.cpu.reg .r12 ∨ d = .r12) (w : ℕ) : Agree f (f.cpu.set d w) (c.set d w) := by
  constructor
  · intro q hq
    rw [Cpu.set_reg, Cpu.set_reg]
    by_cases hqd : q = d
    · rw [if_pos hqd, if_pos hqd]
    · rw [if_neg hqd, if_neg hqd]
      by_cases hq12 : q = .r12
      · rw [hq12, h.r12]
        exact h12.resolve_right fun hd => hqd (hq12.trans hd.symm)
      · exact h.reg q (List.mem_append_left _ hq) hq12
  · exact h.flags.trans hk
  · exact h.irq.trans hirq.symm
  · exact h.fiq.trans hfiq.symm
  · exact fun w hw => f.mem_of_out h hw

theorem Fault.agree_setMem (f : Fault) {c : Cpu} (h : Handled k f.cpu c) (hk : k.flags % 16 = nzcv f.cpu.cpsr)
    (hirq : irqMasked f.cpu.cpsr = false) (hfiq : fiqMasked f.cpu.cpsr = false)
    (h12 : k.r12 = f.cpu.reg .r12) (p v : ℕ) :
    Agree f (f.cpu.setMem (Function.update f.cpu.mem p v)) (c.setMem (Function.update c.mem p v)) := by
  constructor
  · intro q hq
    by_cases hq12 : q = .r12
    · rw [hq12]
      exact h.r12.trans h12
    · exact h.reg q (List.mem_append_left _ hq) hq12
  · exact h.flags.trans hk
  · exact h.irq.trans hirq.symm
  · exact h.fiq.trans hfiq.symm
  · intro w hw
    simp only [Cpu.setMem_mem, Function.update_apply]
    split_ifs
    · rfl
    · exact f.mem_of_out h hw

theorem Fault.undisturbed_of_transparent (h : f.Transparent k) : f.Undisturbed k := by
  obtain ⟨c, hc, hh⟩ := f.handled_eq k
  obtain ⟨c', s, hrun, d, d', hd, hd', hag⟩ := h
  rw [hc] at hrun
  cases hrun
  obtain ⟨hcpsr, hreg⟩ := Access.run_keeps hd
  obtain ⟨hcpsr', hreg'⟩ := Access.run_keeps hd'
  constructor
  · rw [← hh.flags, ← hcpsr', hag.flags, hcpsr]
  · rw [← hcpsr, ← hag.irq, hcpsr', hh.irq]
  · rw [← hcpsr, ← hag.fiq, hcpsr', hh.fiq]
  · by_cases hload : ∃ wd n off, f.access = .ldr wd .r12 n off
    · obtain ⟨wd, n, off, ha⟩ := hload
      refine Or.inr ⟨wd, n, off, ha, ?_⟩
      have h12 := hag.reg .r12 (by decide)
      rw [← f.value_left hh]
      rw [ha, Access.run_ldr, Option.map_eq_some_iff] at hd hd'
      obtain ⟨w, hw, rfl⟩ := hd
      obtain ⟨w', hw', rfl⟩ := hd'
      rw [Cpu.set_reg, Cpu.set_reg, if_pos rfl, if_pos rfl] at h12
      rw [ha, hw, hw', h12]
    · have hne : ∀ wd n off, f.access ≠ .ldr wd .r12 n off := fun wd n off ha => hload ⟨wd, n, off, ha⟩
      have h12 := hag.reg .r12 (by decide)
      rw [hreg _ hne, hreg' _ hne, hh.r12] at h12
      exact Or.inl h12

theorem Fault.transparent_of_undisturbed (h : f.Undisturbed k) : f.Transparent k := by
  obtain ⟨c, hc, hh⟩ := f.handled_eq k
  refine ⟨c, f.mapped, hc, ?_⟩
  have hvalue := f.value_mapped
  have hpage := f.mapped_page
  have hsame : ∀ (q : Reg), q ∈ f.access.regs → k.r12 = f.cpu.reg .r12 → c.reg q = f.cpu.reg q := by
    intro q hq h12
    by_cases hq12 : q = .r12
    · rw [hq12, hh.r12, h12]
    · exact hh.reg q (f.regs q hq) hq12
  have hmem : c.mem (translate f.mapped (f.access.address f.cpu) / 4) =
      f.cpu.mem (translate f.mapped (f.access.address f.cpu) / 4) := f.mem_of_out hh (f.not_below (by omega))
  have hvaluec : f.access.value f.mapped c = f.access.value f.mapped f.cpu := by
    rcases h.r12 with h12 | ⟨wd, n, off, -, hload⟩
    · have haddr := Access.address_congr fun q hq => hsame q hq h12
      rw [hvalue, Access.value, haddr, if_neg hpage.1, hmem]
    · rw [f.value_left hh, hload]
  rcases ha : f.access with ⟨wd, d, n, off⟩ | ⟨wd, d, n, off⟩
  · rw [Access.run_ldr, Access.run_ldr, ← ha, hvaluec, hvalue]
    refine ⟨_, _, rfl, rfl, f.agree_set hh h.flags h.irq h.fiq ?_ _⟩
    rcases h.r12 with h12 | ⟨wd', n', off', hload, -⟩
    · exact Or.inl h12
    · rw [ha] at hload
      exact Or.inr (by cases hload; rfl)
  · have h12 : k.r12 = f.cpu.reg .r12 := by
      rcases h.r12 with h12 | ⟨wd', n', off', hload, -⟩
      · exact h12
      · rw [ha] at hload
        cases hload
    have haddr := Access.address_congr fun q hq => hsame q hq h12
    have hd : c.reg d = f.cpu.reg d := hsame d (by rw [ha]; exact Access.dest_mem_regs) h12
    rw [ha] at haddr hpage hmem
    refine ⟨_, _, if_neg hpage.1, ?_, f.agree_setMem hh h.flags h.irq h.fiq h12 _ _⟩
    simp only [Access.run]
    rw [haddr, if_neg hpage.1, hd, hmem]

/-- The faulting code sees nothing of the handler exactly if it has interrupts on, keeps nothing in r12 and the flags
that the C code does not leave there, or loads r12 itself. -/
theorem fault_transparent_iff (f : Fault) (k : Clobber) : f.Transparent k ↔ f.Undisturbed k := by
  constructor
  · exact Fault.undisturbed_of_transparent
  · exact Fault.transparent_of_undisturbed

end Fault

def firstRegs (q : Reg) : ℕ :=
  match q with
  | .r1 => kernelHeapStart
  | .sp => sysStackBase - 0xFC
  | _ => 0x8000

theorem bootPages_heap {va : ℕ} (h : DemandPaging.HeapAddr va) : Absent (bootPages.pageTbl (pteIdx va)) := by
  unfold DemandPaging.HeapAddr kernelHeapEnd kernelHeapStart kernelHeapSize at h
  have hpte : bootPages.pageTbl (pteIdx va) = 0 := by
    rw [pteIdx_eq (by unfold size; omega)]
    exact initPageTbl_heap _ (by omega) (by omega)
  rw [hpte]
  exact absent_zero

/-- `ldr r0, [r1]` of the first heap word after boot. -/
def firstLoad (psr : ℕ) (h : psr % 32 = modeSvc) : Fault where
  cpu := { reg := firstRegs, s := fun _ => 0, fpscr := 0, fpexc := 0, cpsr := psr, mpidr := 0, mem := fun _ => 0 }
  pages := bootPages
  access := .ldr .word .r0 .r1 (.imm 0)
  accounted := DemandPaging.start_accounted ⟨⟨_, rfl, rfl, by decide⟩, _, rfl⟩
  heap := (by decide : DemandPaging.HeapAddr (u32 (firstRegs .r1 + 0)))
  absent := bootPages_heap (by decide : DemandPaging.HeapAddr (u32 (firstRegs .r1 + 0)))
  mode := h
  pc_lt := (by decide : firstRegs .pc + 8 < size)
  aligned := (by decide : firstRegs .sp % 4 = 0)
  room := (by decide : 4 * 1024 + 56 ≤ firstRegs .sp)
  stack := (by decide : firstRegs .sp ≤ secSvcStackBase)
  regs := by decide

/-- With interrupts off the handler turns them on; with interrupts on the C function may have used r12 or left other
flags. -/
theorem masked_or_clobbered :
    ¬ (firstLoad 0x93 rfl).Transparent ⟨0, 0, 0, 0, 0x8000, 0, 0, fun _ => 0⟩ ∧
      ¬ (firstLoad 0x13 rfl).Transparent ⟨0, 0, 0, 0, 0, 0, 0, fun _ => 0⟩ ∧
      ¬ (firstLoad 0x60000013 rfl).Transparent ⟨0, 0, 0, 0, 0x8000, 0, 0, fun _ => 0⟩ := by
  refine ⟨fun h => ?_, fun h => ?_, fun h => ?_⟩
  · have hirq : irqMasked 0x93 = false := (Fault.undisturbed_of_transparent h).irq
    exact absurd hirq (by decide)
  · rcases (Fault.undisturbed_of_transparent h).r12 with h12 | ⟨wd, n, off, hload, -⟩
    · exact absurd (h12 : 0 = 0x8000) (by decide)
    · cases (hload : Access.ldr .word .r0 .r1 (.imm 0) = .ldr wd .r12 n off)
  · have hflags : 0 % 16 = nzcv 0x60000013 := (Fault.undisturbed_of_transparent h).flags
    exact absurd hflags (by decide)

end Slos.DataAbort
