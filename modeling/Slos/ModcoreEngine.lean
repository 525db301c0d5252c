import Mathlib.Logic.Function.Basic
import Mathlib.Tactic.Common

/-!
# The modcore engine

The three clocked processes of modcore's memory side. `Pulse` turns the start bit into a pulse of one clock, `Engine`
asks for its registers and moves bursts of sixteen beats, and `Mdproc` keeps the beats of a burst and gives them back
inverted. All signals are read before the edge.
-/

namespace Slos.Modcore

structure Pulse where
  dmaStart : Bool
  dmaStart2 : Bool

def Pulse.dmaPulse (s : Pulse) : Bool := s.dmaStart && !s.dmaStart2

def Pulse.edge (s : Pulse) (gReset dmaStart : Bool) : Pulse :=
  if gReset = true then ⟨false, false⟩ else ⟨dmaStart, s.dmaStart⟩

namespace Engine

inductive Phase
  | idle | prep1 | prep2 | prep3 | write1 | write2 | bresp1 | read1 | read2 | read3 | mdproc1 | mdproc2 | intr1
  deriving DecidableEq, Repr

structure State where
  curState : Phase
  regInAddr : BitVec 5
  regInAddrValid : Bool
  regInData : BitVec 32
  regInDataValid : Bool
  regOutAddr : BitVec 5
  regOutAddrValid : Bool
  srcLen : BitVec 32
  awaddr : BitVec 32
  awvalid : Bool
  wdata : BitVec 32
  wstrb : BitVec 4
  wlast : Bool
  wvalid : Bool
  bready : Bool
  araddr : BitVec 32
  arvalid : Bool
  rready : Bool
  mdprocDataIn : BitVec 32
  mdprocDataInValid : Bool
  mdprocDataOutReq : Bool
  dmaIntr : Bool
  tgtbuff : ℕ → BitVec 32
  srcbuffidx : ℕ
  tgtbuffidx : ℕ
  remainlen : BitVec 32

structure Ports where
  resetn : Bool
  gReset : Bool
  dmaPulse : Bool
  regOutData : BitVec 32
  regOutDataValid : Bool
  mdprocDataOut : BitVec 32
  mdprocDataOutValid : Bool
  arready : Bool
  rdata : BitVec 32
  rlast : Bool
  rvalid : Bool
  awready : Bool
  wready : Bool
  bvalid : Bool

/-- All registers as the configuration leaves them. -/
def powerUp : State where
  curState := .idle
  regInAddr := 0
  regInAddrValid := false
  regInData := 0
  regInDataValid := false
  regOutAddr := 0
  regOutAddrValid := false
  srcLen := 0
  awaddr := 0
  awvalid := false
  wdata := 0
  wstrb := 0
  wlast := false
  wvalid := false
  bready := false
  araddr := 0
  arvalid := false
  rready := false
  mdprocDataIn := 0
  mdprocDataInValid := false
  mdprocDataOutReq := false
  dmaIntr := false
  tgtbuff := fun _ => 0
  srcbuffidx := 0
  tgtbuffidx := 0
  remainlen := 0

/-- `C_M_AXI_BURST_LEN * C_M_AXI_BEAT_SIZE`. -/
def burstsize : BitVec 32 := 64

def idle (s : State) (i : Ports) : State :=
  if i.dmaPulse = true then
    { s with regOutAddr := 2, regOutAddrValid := true, arvalid := false, rready := false, curState := .prep1 }
  else
    { s with regOutAddrValid := false, regInAddr := 0, regInAddrValid := false, regInData := 0, regInDataValid := false,
             regOutAddr := 0, srcbuffidx := 0, tgtbuffidx := 0, remainlen := 0, tgtbuff := fun _ => 0, dmaIntr := false }

def prep1 (s : State) (i : Ports) : State :=
  if i.regOutDataValid = true then
    { s with araddr := i.regOutData, regOutAddr := 3, regOutAddrValid := true, curState := .prep2 }
  else { s with regOutAddrValid := false }

def prep2 (s : State) (i : Ports) : State :=
  if i.regOutDataValid = true then
    { s with srcLen := i.regOutData, remainlen := i.regOutData, regOutAddr := 4, regOutAddrValid := true,
             curState := .prep3 }
  else { s with regOutAddrValid := false }

def prep3 (s : State) (i : Ports) : State :=
  if i.regOutDataValid = true then
    { s with awaddr := i.regOutData, regOutAddrValid := false, curState := .read1 }
  else { s with regOutAddrValid := false }

def read1 (s : State) : State :=
  { s with arvalid := true, rready := true, srcbuffidx := 0, curState := .read2 }

def read2 (s : State) (i : Ports) : State :=
  let s := { s with arvalid := if i.arready = true ∧ s.arvalid = true then false else s.arvalid }
  if i.rvalid = true then
    let s := { s with mdprocDataIn := i.rdata, srcbuffidx := s.srcbuffidx + 1 }
    if i.rlast = true then { s with rready := false, curState := .read3 }
    else { s with mdprocDataInValid := true, rready := true }
  else s

def read3 (s : State) : State :=
  { s with tgtbuffidx := 0, mdprocDataOutReq := true, mdprocDataInValid := false, curState := .mdproc1 }

def mdproc1 (s : State) (i : Ports) : State :=
  if i.mdprocDataOutValid = true then
    { s with wvalid := false, awvalid := false, wlast := false, wstrb := 0, bready := false,
             tgtbuff := Function.update s.tgtbuff s.tgtbuffidx i.mdprocDataOut, tgtbuffidx := s.tgtbuffidx + 1,
             curState := .mdproc2 }
  else s

def mdproc2 (s : State) (i : Ports) : State :=
  if i.mdprocDataOutValid = true then
    let s' := { s with tgtbuff := Function.update s.tgtbuff s.tgtbuffidx i.mdprocDataOut }
    if s.tgtbuffidx = 15 then { s' with mdprocDataOutReq := false, tgtbuffidx := 0 }
    else { s' with tgtbuffidx := s.tgtbuffidx + 1 }
  else { s with tgtbuffidx := 0, curState := .write1 }

def write1 (s : State) : State :=
  { s with awvalid := true, wvalid := true, wstrb := 0b1111, wdata := s.tgtbuff s.tgtbuffidx,
           tgtbuffidx := s.tgtbuffidx + 1, curState := .write2 }

def write2 (s : State) (i : Ports) : State :=
  let s := { s with awvalid := if i.awready = true then false else s.awvalid }
  if i.wready = true then
    let s' := { s with wvalid := true, wstrb := 0b1111, wdata := s.tgtbuff s.tgtbuffidx, tgtbuffidx := s.tgtbuffidx + 1 }
    if s.tgtbuffidx = 15 then { s' with wlast := true, remainlen := s.remainlen - burstsize, curState := .bresp1 }
    else s'
  else s

def bresp1 (s : State) (i : Ports) : State :=
  let s := { s with wvalid := false }
  if i.bvalid = true then
    let s := { s with bready := true }
    if 0 < s.remainlen.toInt then
      { s with araddr := s.araddr + burstsize, awaddr := s.awaddr + burstsize, curState := .read1 }
    else { s with dmaIntr := true, curState := .idle }
  else s

def edge (s : State) (i : Ports) : State :=
  if i.gReset = true ∨ i.resetn = false then { s with curState := .idle }
  else match s.curState with
  | .idle => idle s i
  | .prep1 => prep1 s i
  | .prep2 => prep2 s i
  | .prep3 => prep3 s i
  | .read1 => read1 s
  | .read2 => read2 s i
  | .read3 => read3 s
  | .mdproc1 => mdproc1 s i
  | .mdproc2 => mdproc2 s i
  | .write1 => write1 s
  | .write2 => write2 s i
  | .bresp1 => bresp1 s i
  | .intr1 => s

end Engine

namespace Mdproc

inductive Phase
  | idle | dataIn1 | dataOut1
  deriving DecidableEq, Repr

structure State where
  curState : Phase
  srcbuff : ℕ → BitVec 32
  srcbuffidx : ℕ
  mdprocDataOut : BitVec 32
  mdprocDataOutValid : Bool

def powerUp : State := ⟨.idle, fun _ => 0, 0, 0, false⟩

/-- 255 minus each of the four bytes. -/
def inverted (w : BitVec 32) : BitVec 32 :=
  (255 - w.extractLsb' 24 8 : BitVec 8) ++ (255 - w.extractLsb' 16 8 : BitVec 8) ++
    (255 - w.extractLsb' 8 8 : BitVec 8) ++ (255 - w.extractLsb' 0 8 : BitVec 8)

def edge (s : State) (gReset : Bool) (dataIn : BitVec 32) (dataInValid dataOutReq : Bool) : State :=
  if gReset = true then { s with mdprocDataOutValid := false, srcbuffidx := 0, curState := .idle }
  else match s.curState with
  | .idle =>
      if dataInValid = true then
        { s with srcbuff := Function.update s.srcbuff s.srcbuffidx dataIn, srcbuffidx := s.srcbuffidx + 1,
                 curState := .dataIn1 }
      else if dataOutReq = true then { s with srcbuffidx := 0, curState := .dataOut1 }
      else { s with mdprocDataOutValid := false, srcbuffidx := 0 }
  | .dataIn1 =>
      let s' := { s with srcbuff := Function.update s.srcbuff s.srcbuffidx dataIn }
      if s.srcbuffidx = 15 then { s' with srcbuffidx := 0, curState := .idle }
      else { s' with srcbuffidx := s.srcbuffidx + 1 }
  | .dataOut1 =>
      let s' := { s with mdprocDataOut :=
        if s.srcbuffidx < 16 then inverted (s.srcbuff s.srcbuffidx) else s.mdprocDataOut }
      if s.srcbuffidx = 16 then { s' with mdprocDataOutValid := false, srcbuffidx := 0, curState := .idle }
      else { s' with mdprocDataOutValid := true, srcbuffidx := s.srcbuffidx + 1 }

variable {s : State} {d : BitVec 32} {v r : Bool}

theorem edge_rest (hcur : s.curState = .idle) :
    edge s false d false false = { s with mdprocDataOutValid := false, srcbuffidx := 0 } := by
  simp [edge, hcur]

theorem edge_take (hcur : s.curState = .dataIn1 ∨ s.curState = .idle ∧ v = true) (hidx : s.srcbuffidx ≠ 15) :
    edge s false d v r = { s with srcbuff := Function.update s.srcbuff s.srcbuffidx d, srcbuffidx := s.srcbuffidx + 1,
                                  curState := .dataIn1 } := by
  rcases hcur with hcur | ⟨hcur, hvalid⟩
  · simp [edge, hcur, hidx]
  · simp [edge, hcur, hvalid]

theorem edge_take_last (hcur : s.curState = .dataIn1) (hidx : s.srcbuffidx = 15) :
    edge s false d v r = { s with srcbuff := Function.update s.srcbuff 15 d, srcbuffidx := 0, curState := .idle } := by
  simp [edge, hcur, hidx]

theorem edge_turn (hcur : s.curState = .idle) :
    edge s false d false true = { s with srcbuffidx := 0, curState := .dataOut1 } := by
  simp [edge, hcur]

theorem edge_give (hcur : s.curState = .dataOut1) (hidx : s.srcbuffidx < 16) :
    edge s false d v r = { s with mdprocDataOut := inverted (s.srcbuff s.srcbuffidx), mdprocDataOutValid := true,
                                  srcbuffidx := s.srcbuffidx + 1 } := by
  have hne : s.srcbuffidx ≠ 16 := Nat.ne_of_lt hidx
  simp [edge, hcur, hidx, hne]

theorem edge_give_last (hcur : s.curState = .dataOut1) (hidx : s.srcbuffidx = 16) :
    edge s false d v r = { s with mdprocDataOutValid := false, srcbuffidx := 0, curState := .idle } := by
  simp [edge, hcur, hidx]

end Mdproc

end Slos.Modcore
