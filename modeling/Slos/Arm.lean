import Slos.Word
import Mathlib.Logic.Function.Basic
import Mathlib.Data.List.Basic
import Mathlib.Tactic.Simps.Basic

/-!
# A small ARM processor

One core with its general, floating point and status registers, and a memory of words indexed by
address divided by four. An instruction is a function on the core and a straight piece of assembly a
list of instructions. `lr` is the link register of the mode the code runs in and `lrExc` that of the
exception mode, where an exception leaves its return address.
-/

namespace Arm
open Word

inductive Reg
  | r0 | r1 | r2 | r3 | r4 | r5 | r6 | r7 | r8 | r9 | r10 | r11 | r12
  | sp | lr | pc | lrExc
  deriving DecidableEq

structure Cpu where
  reg : Reg → ℕ
  s : Fin 32 → ℕ
  fpscr : ℕ
  fpexc : ℕ
  cpsr : ℕ
  mpidr : ℕ
  mem : ℕ → ℕ

abbrev Instr := Cpu → Cpu

def exec (is : List Instr) (c : Cpu) : Cpu := is.foldl (fun c i => i c) c

/-- The N, Z, C and V bits of a status word. -/
def nzcv (psr : ℕ) : ℕ := psr / 2 ^ 28

def irqMasked (psr : ℕ) : Bool := psr.testBit 7

def fiqMasked (psr : ℕ) : Bool := psr.testBit 6

namespace Cpu

@[simps -fullyApplied s fpscr fpexc cpsr mpidr mem] def set (c : Cpu) (d : Reg) (v : ℕ) : Cpu :=
  { c with reg := Function.update c.reg d v }

@[simps -fullyApplied] def setRegs (c : Cpu) (f : Reg → ℕ) : Cpu := { c with reg := f }

@[simps -fullyApplied] def setS (c : Cpu) (f : Fin 32 → ℕ) : Cpu := { c with s := f }

@[simps -fullyApplied] def setFpscr (c : Cpu) (v : ℕ) : Cpu := { c with fpscr := v }

@[simps -fullyApplied] def setFpexc (c : Cpu) (v : ℕ) : Cpu := { c with fpexc := v }

@[simps -fullyApplied] def setCpsr (c : Cpu) (v : ℕ) : Cpu := { c with cpsr := v }

@[simps -fullyApplied] def setMem (c : Cpu) (m : ℕ → ℕ) : Cpu := { c with mem := m }

/-- The word index a register points at. -/
def wordAt (c : Cpu) (n : Reg) : ℕ := c.reg n / 4

end Cpu

def storeBlock (mem : ℕ → ℕ) (a : ℕ) (ws : List ℕ) : ℕ → ℕ :=
  fun w => if a ≤ w ∧ w - a < ws.length then ws.getD (w - a) 0 else mem w

section instructions
variable (d n : Reg)

@[simps! -fullyApplied] def movImm (v : ℕ) : Instr := fun c => c.set d v

@[simps! -fullyApplied] def movReg : Instr := fun c => c.set d (c.reg n)

@[simps! -fullyApplied] def addImm (v : ℕ) : Instr := fun c => c.set d (u32 (c.reg n + v))

@[simps! -fullyApplied] def subImm (v : ℕ) : Instr := fun c => c.set d (usub (c.reg n) v)

@[simps! -fullyApplied] def bicImm (v : ℕ) : Instr := fun c => c.set d (c.reg n &&& (0xFFFFFFFF ^^^ v))

@[simps! -fullyApplied] def stmia (regs : List Reg) : Instr := fun c =>
  (c.setMem (storeBlock c.mem (c.wordAt n) (regs.map c.reg))).set n
    (u32 (c.reg n + 4 * regs.length))

/-- The registers of a list are loaded from consecutive words; `n` is none of them. -/
@[simps! -fullyApplied] def ldmia (regs : List Reg) : Instr := fun c =>
  c.setRegs fun q =>
    if q ∈ regs then c.mem (c.wordAt n + regs.idxOf q)
    else if q = n then u32 (c.reg n + 4 * regs.length)
    else c.reg q

/-- `str d, [n], #4`. -/
@[simps! -fullyApplied] def strPost : Instr := fun c =>
  (c.setMem (Function.update c.mem (c.wordAt n) (c.reg d))).set n (u32 (c.reg n + 4))

/-- `str d, [n]`. -/
@[simps! -fullyApplied] def str : Instr := fun c => c.setMem (Function.update c.mem (c.wordAt n) (c.reg d))

/-- `ldr d, [n], #4`. -/
@[simps! -fullyApplied] def ldrPost : Instr := fun c => (c.set n (u32 (c.reg n + 4))).set d (c.mem (c.wordAt n))

/-- `ldr d, [n]`. -/
@[simps! -fullyApplied] def ldr : Instr := fun c => c.set d (c.mem (c.wordAt n))

/-- `vstmia n!, {s0-s31}`. -/
@[simps! -fullyApplied] def vstmia : Instr := fun c =>
  (c.setMem (storeBlock c.mem (c.wordAt n) (List.ofFn c.s))).set n (u32 (c.reg n + 4 * 32))

/-- `vldmia n!, {s0-s31}`. -/
@[simps! -fullyApplied] def vldmia : Instr := fun c =>
  (c.setS fun i => c.mem (c.wordAt n + i)).set n (u32 (c.reg n + 4 * 32))

@[simps! -fullyApplied] def readFpscr : Instr := fun c => c.set d c.fpscr

@[simps! -fullyApplied] def writeFpscr : Instr := fun c => c.setFpscr (c.reg d)

@[simps! -fullyApplied] def readFpexc : Instr := fun c => c.set d c.fpexc

@[simps! -fullyApplied] def writeFpexc : Instr := fun c => c.setFpexc (c.reg d)

@[simps! -fullyApplied] def mrs : Instr := fun c => c.set d c.cpsr

/-- `msr cpsr_c`, which writes the control byte only. -/
@[simps! -fullyApplied] def msrImm (v : ℕ) : Instr := fun c => c.setCpsr (c.cpsr / 256 * 256 + v % 256)

@[simps! -fullyApplied] def msrReg : Instr := fun c => msrImm (c.reg d) c

/-- `stmdb sp!`. -/
@[simps! -fullyApplied] def push (regs : List Reg) : Instr := fun c =>
  let a := usub (c.reg .sp) (4 * regs.length)
  (c.setMem (storeBlock c.mem (a / 4) (regs.map c.reg))).set .sp a

/-- `ldmia sp!`. -/
def pop (regs : List Reg) : Instr := ldmia .sp regs

/-- The flags of a subtraction. -/
def subFlags (a b : ℕ) : ℕ :=
  let res := usub a b
  let v := if a / 2 ^ 31 ≠ b / 2 ^ 31 ∧ res / 2 ^ 31 ≠ a / 2 ^ 31 then 1 else 0
  8 * (res / 2 ^ 31) + (if res = 0 then 4 else 0) + (if b ≤ a then 2 else 0) + v

def setFlags (c : Cpu) (f : ℕ) : Cpu := c.setCpsr (f * 2 ^ 28 + c.cpsr % 2 ^ 28)

def zFlag (c : Cpu) : Bool := c.cpsr.testBit 30

def subsImm (v : ℕ) : Instr := fun c =>
  setFlags (c.set d (usub (c.reg n) v)) (subFlags (c.reg n) v)

def cmpImm (v : ℕ) : Instr := fun c => setFlags c (subFlags (c.reg n) v)

end instructions

/-- A body that is repeated as long as it leaves Z clear. -/
def loopNe (body : List Instr) : ℕ → Cpu → Cpu
  | 0, c => c
  | k + 1, c => if zFlag (exec body c) then exec body c else loopNe body k (exec body c)

@[simp] theorem exec_nil (c : Cpu) : exec [] c = c := rfl

@[simp] theorem exec_cons (i : Instr) (is : List Instr) (c : Cpu) :
    exec (i :: is) c = exec is (i c) := rfl

theorem exec_append (is js : List Instr) (c : Cpu) :
    exec (is ++ js) c = exec js (exec is c) := List.foldl_append ..

@[simp] theorem Cpu.set_reg (c : Cpu) (d q : Reg) (v : ℕ) :
    (c.set d v).reg q = if q = d then v else c.reg q := Function.update_apply ..

theorem storeBlock_of_mem (mem : ℕ → ℕ) {a w : ℕ} {ws : List ℕ} (h : a ≤ w)
    (h' : w < a + ws.length) : storeBlock mem a ws w = ws.getD (w - a) 0 :=
  if_pos ⟨h, by omega⟩

theorem storeBlock_of_notMem (mem : ℕ → ℕ) {a w : ℕ} {ws : List ℕ}
    (h : w < a ∨ a + ws.length ≤ w) : storeBlock mem a ws w = mem w :=
  if_neg (by omega)

theorem zFlag_setFlags (c : Cpu) (f : ℕ) : zFlag (setFlags c f) = f.testBit 2 := by
  change (f * 2 ^ 28 + c.cpsr % 2 ^ 28).testBit 30 = f.testBit 2
  rw [Nat.testBit_eq_decide_div_mod_eq, Nat.testBit_eq_decide_div_mod_eq]
  congr 2
  omega

theorem testBit_subFlags (a b : ℕ) : (subFlags a b).testBit 2 = decide (usub a b = 0) := by
  rw [Nat.testBit_eq_decide_div_mod_eq, decide_eq_decide]
  unfold subFlags
  dsimp only
  split_ifs <;> omega

theorem zFlag_subsImm (d n : Reg) (v : ℕ) (c : Cpu) :
    zFlag (subsImm d n v c) = decide (usub (c.reg n) v = 0) := by
  rw [subsImm, zFlag_setFlags, testBit_subFlags]

/-- One round of a loop that copies words. -/
def copyRound (t src dst n : Reg) : List Instr := [ldrPost t src, strPost t dst, subsImm n n 1]

/-- `c'` is `c` after `k` words were copied from word `a` to word `b`. -/
structure Copied (t src dst n : Reg) (a b k : ℕ) (c c' : Cpu) : Prop where
  mem : ∀ w, c'.mem w = if b ≤ w ∧ w < b + k then c.mem (a + (w - b)) else c.mem w
  srcEnd : c'.reg src = 4 * (a + k)
  dstEnd : c'.reg dst = 4 * (b + k)
  other : ∀ q, q ≠ t → q ≠ src → q ≠ dst → q ≠ n → c'.reg q = c.reg q
  s : c'.s = c.s
  fpscr : c'.fpscr = c.fpscr
  fpexc : c'.fpexc = c.fpexc
  mpidr : c'.mpidr = c.mpidr

theorem exec_copyRound {t src dst n : Reg} (hnd : [t, src, dst, n].Nodup) {c : Cpu} {a b : ℕ}
    (ha : c.reg src = 4 * a) (hb : c.reg dst = 4 * b) (ha' : a + 1 < 2 ^ 30)
    (hb' : b + 1 < 2 ^ 30) :
    Copied t src dst n a b 1 c (exec (copyRound t src dst n) c) ∧
      (exec (copyRound t src dst n) c).reg n = usub (c.reg n) 1 ∧
      zFlag (exec (copyRound t src dst n) c) = decide (usub (c.reg n) 1 = 0) := by
  obtain ⟨⟨hts, htd, htn⟩, ⟨hsd, hsn⟩, hdn⟩ :
      (t ≠ src ∧ t ≠ dst ∧ t ≠ n) ∧ (src ≠ dst ∧ src ≠ n) ∧ dst ≠ n := by
    simpa using hnd
  have hu : ∀ x, x + 1 < 2 ^ 30 → u32 (4 * x + 4) = 4 * (x + 1) := by
    intro x hx
    rw [u32_of_lt (by unfold size; omega)]
    omega
  have hword : ∀ x, 4 * x / 4 = x := fun x => Nat.mul_div_cancel_left x (by decide)
  simp only [copyRound, exec_cons, exec_nil, zFlag_subsImm]
  refine ⟨⟨fun w => ?_, ?_, ?_, fun q h1 h2 h3 h4 => ?_, rfl, rfl, rfl, rfl⟩, ?_, ?_⟩
  · simp only [subsImm, setFlags, strPost, ldrPost, Cpu.setCpsr_mem, Cpu.set_mem, Cpu.setMem_mem,
      Cpu.wordAt, Cpu.set_reg, if_true, if_neg htd.symm, if_neg hsd.symm, hb, ha, hword,
      Function.update_apply]
    by_cases hw : w = b
    · subst hw
      simp
    · rw [if_neg hw, if_neg (by omega)]
  · simp [subsImm, setFlags, strPost, ldrPost, hsn, hsd, hts.symm, ha, hu a ha']
  · simp [subsImm, setFlags, strPost, ldrPost, hdn, hsd.symm, htd.symm, hb, hu b hb']
  · simp [subsImm, setFlags, strPost, ldrPost, h1, h2, h3, h4]
  · simp [subsImm, setFlags, strPost, ldrPost, hdn.symm, hsn.symm, htn.symm]
  · simp [strPost, ldrPost, hdn.symm, hsn.symm, htn.symm]

/-- Words copied to a block apart from the one they come from. -/
theorem loopNe_copyRound {t src dst n : Reg} (hnd : [t, src, dst, n].Nodup) {k fuel a b : ℕ}
    {c : Cpu} (hfuel : k < fuel) (ha : c.reg src = 4 * a) (hb : c.reg dst = 4 * b)
    (hn : c.reg n = k + 1) (hk : k + 1 < size) (ha' : a + (k + 1) < 2 ^ 30)
    (hb' : b + (k + 1) < 2 ^ 30) (hapart : a + (k + 1) ≤ b ∨ b + (k + 1) ≤ a) :
    Copied t src dst n a b (k + 1) c (loopNe (copyRound t src dst n) fuel c) := by
  induction k generalizing fuel a b c with
  | zero =>
      obtain ⟨fuel, rfl⟩ := Nat.exists_eq_succ_of_ne_zero hfuel.ne'
      obtain ⟨hround, -, hz⟩ := exec_copyRound hnd ha hb ha' hb'
      rw [loopNe, hz, hn]
      exact hround
  | succ k ih =>
      obtain ⟨fuel, rfl⟩ := Nat.exists_eq_succ_of_ne_zero (Nat.ne_zero_of_lt hfuel)
      obtain ⟨hround, hn', hz⟩ := exec_copyRound hnd ha hb (by omega) (by omega)
      have hsub : usub (c.reg n) 1 = k + 1 := by
        rw [hn, usub_of_le hk (by omega)]
        omega
      rw [hsub] at hn' hz
      rw [loopNe, hz, decide_eq_false (Nat.succ_ne_zero k), if_neg Bool.false_ne_true]
      have hrest := ih (Nat.lt_of_succ_lt_succ hfuel) hround.srcEnd hround.dstEnd hn' (by omega)
        (by omega) (by omega) (by omega)
      refine ⟨fun w => ?_, ?_, ?_, fun q h1 h2 h3 h4 => ?_, hrest.s.trans hround.s,
        hrest.fpscr.trans hround.fpscr, hrest.fpexc.trans hround.fpexc,
        hrest.mpidr.trans hround.mpidr⟩
      · rw [hrest.mem, hround.mem, hround.mem]
        by_cases hwb : w = b
        · have h1 : ¬ (b + 1 ≤ w ∧ w < b + 1 + (k + 1)) := by omega
          have h2 : b ≤ w ∧ w < b + 1 := by omega
          have h3 : b ≤ w ∧ w < b + (k + 1 + 1) := by omega
          rw [if_neg h1, if_pos h2, if_pos h3]
        · have h2 : ¬ (b ≤ w ∧ w < b + 1) := by omega
          rw [if_neg h2]
          by_cases hw : b + 1 ≤ w ∧ w < b + 1 + (k + 1)
          · have h3 : b ≤ w ∧ w < b + (k + 1 + 1) := by omega
            have h4 : ¬ (b ≤ a + 1 + (w - (b + 1)) ∧ a + 1 + (w - (b + 1)) < b + 1) := by omega
            have h5 : a + 1 + (w - (b + 1)) = a + (w - b) := by omega
            rw [if_pos hw, if_pos h3, if_neg h4, h5]
          · have h3 : ¬ (b ≤ w ∧ w < b + (k + 1 + 1)) := by omega
            rw [if_neg hw, if_neg h3]
      · rw [hrest.srcEnd]
        omega
      · rw [hrest.dstEnd]
        omega
      · rw [hrest.other q h1 h2 h3 h4, hround.other q h1 h2 h3 h4]

/-- A word that a copy does not write. -/
theorem Copied.mem_of_out {t src dst n : Reg} {a b k w : ℕ} {c c' : Cpu} (h : Copied t src dst n a b k c c')
    (hw : ¬ (b ≤ w ∧ w < b + k)) : c'.mem w = c.mem w := by
  rw [h.mem, if_neg hw]

theorem Copied.mem_of_in {t src dst n : Reg} {a b k w : ℕ} {c c' : Cpu} (h : Copied t src dst n a b k c c')
    (hw : b ≤ w ∧ w < b + k) : c'.mem w = c.mem (a + (w - b)) := by
  rw [h.mem, if_pos hw]

end Arm
