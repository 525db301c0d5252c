import Mathlib.Logic.Function.Basic
import Mathlib.Data.List.Basic

/-!
# Exclusive accesses to a shared word

Processors that run one program text over a single shared word. Each has two registers, the Z flag
and an exclusive monitor: a load-exclusive sets the monitor, a write by another processor clears it,
and a store-exclusive writes only while the monitor is set, reporting 0 or 1 in a register. A
processor whose `pc` is `none` runs other code.
-/

namespace Exclusive

inductive Reg
  | r1
  | r2
  deriving DecidableEq

inductive Cond
  | al
  | eq
  | ne
  deriving DecidableEq

inductive Op
  | ldr (d : Reg) (v : ℕ)
  | ldrex (d : Reg)
  | strex (d n : Reg)
  | str (n : Reg)
  | cmp (n m : Reg)
  | cmpImm (n : Reg) (v : ℕ)
  | branch (target : ℕ)
  | dmb
  | ret
  deriving DecidableEq

structure Instr where
  cond : Cond
  op : Op
  deriving DecidableEq

structure Cpu where
  pc : Option ℕ
  reg : Reg → ℕ
  z : Bool
  monitor : Bool

structure Memory (ι : Type) where
  word : ℕ
  cpu : ι → Cpu

def Cond.passes : Cond → Bool → Bool
  | al, _ => true
  | eq, z => z
  | ne, z => !z

namespace Cpu

def advance (c : Cpu) : Cpu := { c with pc := c.pc.map (· + 1) }

def setReg (c : Cpu) (d : Reg) (v : ℕ) : Cpu := { c with reg := Function.update c.reg d v }

end Cpu

namespace Memory

variable {ι : Type} [DecidableEq ι]

def setCpu (m : Memory ι) (i : ι) (c : Cpu) : Memory ι :=
  { m with cpu := Function.update m.cpu i c }

/-- Processor `i` writes the word, which clears the monitors of all others. -/
def store (m : Memory ι) (i : ι) (v : ℕ) : Memory ι where
  word := v
  cpu j := if j = i then m.cpu j else { m.cpu j with monitor := false }

/-- `fails` lets a store-exclusive fail although the monitor is set. -/
def execOp (m : Memory ι) (i : ι) (fails : Bool) (op : Op) : Memory ι :=
  let c := (m.cpu i).advance
  match op with
  | .ldr d v => m.setCpu i (c.setReg d v)
  | .ldrex d => m.setCpu i { c.setReg d m.word with monitor := true }
  | .strex d n =>
      if c.monitor && !fails then
        (m.store i (c.reg n)).setCpu i { c.setReg d 0 with monitor := false }
      else m.setCpu i { c.setReg d 1 with monitor := false }
  | .str n => (m.store i (c.reg n)).setCpu i c
  | .cmp n k => m.setCpu i { c with z := c.reg n == c.reg k }
  | .cmpImm n v => m.setCpu i { c with z := c.reg n == v }
  | .branch target => m.setCpu i { c with pc := some target }
  | .dmb => m.setCpu i c
  | .ret => m.setCpu i { c with pc := none }

def fetch (text : List Instr) (m : Memory ι) (i : ι) : Option Instr :=
  (m.cpu i).pc.bind fun pc => text[pc]?

def exec (text : List Instr) (m : Memory ι) (i : ι) (fails : Bool) : Option (Memory ι) :=
  (fetch text m i).map fun instr =>
    if instr.cond.passes (m.cpu i).z then m.execOp i fails instr.op
    else m.setCpu i (m.cpu i).advance

/-- The next instruction of `i` is a store-exclusive that writes. -/
def storesExclusive (text : List Instr) (m : Memory ι) (i : ι) (fails : Bool) : Bool :=
  match fetch text m i with
  | some ⟨cond, .strex _ _⟩ => cond.passes (m.cpu i).z && (m.cpu i).monitor && !fails
  | _ => false

@[simp] theorem setCpu_word (m : Memory ι) (i : ι) (c : Cpu) : (m.setCpu i c).word = m.word := rfl

@[simp] theorem setCpu_self (m : Memory ι) (i : ι) (c : Cpu) : (m.setCpu i c).cpu i = c :=
  Function.update_self ..

theorem setCpu_of_ne (m : Memory ι) {i j : ι} (c : Cpu) (h : j ≠ i) :
    (m.setCpu i c).cpu j = m.cpu j := Function.update_of_ne h ..

@[simp] theorem store_word (m : Memory ι) (i : ι) (v : ℕ) : (m.store i v).word = v := rfl

theorem store_of_ne (m : Memory ι) {i j : ι} (v : ℕ) (h : j ≠ i) :
    (m.store i v).cpu j = { m.cpu j with monitor := false } := if_neg h

end Memory

end Exclusive
