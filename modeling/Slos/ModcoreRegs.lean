import Slos.ModcoreEngine

/-!
# The modcore register file

`Regs` is the process of the slave port that serves the CPU and the engine from one register file, `Control` the one
that derives the start bit, the interrupt acknowledgement and the reset pulse from register 0. The CPU goes first
whenever both ask. Responses are always OKAY and left out.
-/

namespace Slos.Modcore

structure Control where
  dmaStart : Bool
  intrDone : Bool
  gReset2 : Bool
  gReset3 : Bool

def Control.gReset (s : Control) : Bool := s.gReset2 && !s.gReset3

/-- The reset branch comes first in the process, so what follows it always wins. -/
def Control.edge (s : Control) (reg0 : BitVec 32) : Control where
  dmaStart := reg0.getLsbD 0
  intrDone := reg0.getLsbD 1
  gReset2 := reg0.getLsbD 2
  gReset3 := reg0.getLsbD 2 && s.gReset2

namespace Regs

inductive Phase
  | idle | axiWrite1 | axiWrite2 | axiWrite3 | axiRead1 | regIn1 | regOut1
  deriving DecidableEq, Repr

structure State where
  curState : Phase
  regfile : ℕ → BitVec 32
  waddr : ℕ
  raddr : ℕ
  awready : Bool
  wready : Bool
  writeStrobeValid : Bool
  bvalid : Bool
  arready : Bool
  rdata : BitVec 32
  rvalid : Bool
  regOutData : BitVec 32
  regOutDataValid : Bool
  regCap : BitVec 32

structure Ports where
  awaddr : BitVec 7
  awvalid : Bool
  wdata : BitVec 32
  wstrb : BitVec 4
  wvalid : Bool
  bready : Bool
  araddr : BitVec 7
  arvalid : Bool

/-- The CPU offers nothing that an idle register file would take. -/
def Ports.Silent (i : Ports) : Prop := ¬ (i.awvalid = true ∧ i.wvalid = true) ∧ i.arvalid = false

instance (i : Ports) : Decidable i.Silent := inferInstanceAs (Decidable (_ ∧ _))

def index (addr : BitVec 7) : ℕ := (addr.extractLsb' 2 5).toNat

def reset (s : State) : State :=
  { s with curState := .idle, bvalid := false, rdata := 0, rvalid := false, arready := false, awready := false,
           wready := false, regOutData := 0, regOutDataValid := false, writeStrobeValid := false, waddr := 0,
           raddr := 0 }

def idle (s : State) (i : Ports) (e : Engine.State) : State :=
  if i.awvalid = true ∧ i.wvalid = true then { s with waddr := index i.awaddr, curState := .axiWrite1 }
  else if i.arvalid = true then
    { s with arready := true, raddr := index i.araddr, rvalid := false, curState := .axiRead1 }
  else if e.regInAddrValid = true then
    { s with waddr := e.regInAddr.toNat, regCap := e.regInData, curState := .regIn1 }
  else if e.regOutAddrValid = true then { s with raddr := e.regOutAddr.toNat, curState := .regOut1 }
  else { reset s with regfile := Function.update s.regfile 0 (s.regfile 0 &&& ~~~ 0b11#32) }

def axiWrite2 (s : State) (i : Ports) : State :=
  if s.writeStrobeValid = true then
    { s with regfile := Function.update s.regfile s.waddr i.wdata, bvalid := true, curState := .axiWrite3 }
  else { s with bvalid := false, curState := .axiWrite1 }

def edge (s : State) (resetn gReset : Bool) (i : Ports) (e : Engine.State) : State :=
  if gReset = true ∨ resetn = false then reset s
  else match s.curState with
  | .idle => idle s i e
  | .axiWrite1 =>
      { s with writeStrobeValid := i.wstrb.getLsbD 0 && i.wstrb.getLsbD 1 && i.wstrb.getLsbD 2 && i.wstrb.getLsbD 3,
               awready := true, wready := true, curState := .axiWrite2 }
  | .axiWrite2 => axiWrite2 s i
  | .axiWrite3 => if i.bready = true then { s with bvalid := false, curState := .idle } else s
  | .axiRead1 => { s with rdata := s.regfile s.raddr, rvalid := true, curState := .idle }
  | .regIn1 =>
      if e.regInDataValid = true then
        { s with regfile := Function.update s.regfile s.waddr s.regCap, curState := .idle }
      else s
  | .regOut1 => { s with regOutDataValid := true, regOutData := s.regfile s.raddr, curState := .idle }

end Regs

/-- Both ports of modcore on one clock and one reset. Beside the registers, `started` keeps the register file as it
was when the start bit was last written. -/
structure State where
  regs : Regs.State
  control : Control
  pulse : Pulse
  engine : Engine.State
  started : ℕ → BitVec 32

/-- What modcore sees at an edge: the CPU, and the memory and `mdproc` behind the engine. -/
structure Ports where
  resetn : Bool
  cpu : Regs.Ports
  mdprocDataOut : BitVec 32
  mdprocDataOutValid : Bool
  arready : Bool
  rdata : BitVec 32
  rlast : Bool
  rvalid : Bool
  awready : Bool
  wready : Bool
  bvalid : Bool

def State.enginePorts (s : State) (i : Ports) : Engine.Ports where
  resetn := i.resetn
  gReset := s.control.gReset
  dmaPulse := s.pulse.dmaPulse
  regOutData := s.regs.regOutData
  regOutDataValid := s.regs.regOutDataValid
  mdprocDataOut := i.mdprocDataOut
  mdprocDataOutValid := i.mdprocDataOutValid
  arready := i.arready
  rdata := i.rdata
  rlast := i.rlast
  rvalid := i.rvalid
  awready := i.awready
  wready := i.wready
  bvalid := i.bvalid

/-- One of the edges at which the CPU's word goes into the register file. -/
def State.Lands (s : State) (i : Ports) : Prop :=
  s.control.gReset = false ∧ i.resetn = true ∧ s.regs.curState = .axiWrite2 ∧ s.regs.writeStrobeValid = true

instance (s : State) (i : Ports) : Decidable (s.Lands i) := inferInstanceAs (Decidable (_ ∧ _))

def edge (s : State) (i : Ports) : State where
  regs := Regs.edge s.regs i.resetn s.control.gReset i.cpu s.engine
  control := s.control.edge (s.regs.regfile 0)
  pulse := s.pulse.edge s.control.gReset s.control.dmaStart
  engine := Engine.edge s.engine (s.enginePorts i)
  started := if s.Lands i ∧ s.regs.waddr = 0 ∧ i.cpu.wdata.getLsbD 0 = true then s.regs.regfile else s.started

def step (s : State) (i : Ports) : Option State := some (edge s i)

end Slos.Modcore
