import Mathlib.Tactic.Common
import Slos.Itab

/-!
# The outstream device

The register block and the slave state machine of `odev_v1_0_S00_AXI`, clock by clock, and its connection with
the instruction table. A register access is given by the clock at which the slave performs it.
-/

namespace Slos.Odev

inductive SlaveState where
  | idle | warmingup | receiving | writing | doneWriting | fullChk1 | closing | full | empty
deriving DecidableEq, Repr

/-- The registers that can be written. -/
inductive Reg where
  | ctrl | addr | len
deriving DecidableEq, Repr

abbrev Write := Reg × BitVec 32

def bmGblStart : BitVec 32 := 1#32 <<< 0
def bmIntrDone : BitVec 32 := 1#32 <<< 1
def bmInTrans : BitVec 32 := 1#32 <<< 2
def bmOstreamStart : BitVec 32 := 1#32 <<< 3
def bmConsumerStart : BitVec 32 := 1#32 <<< 4
def bmItabFull : BitVec 32 := 1#32 <<< 2
def bmTransferDone : BitVec 32 := 1#32 <<< 3

section Bits

variable {j : ℕ} (v : BitVec 32)

theorem getLsbD_bit (hj : j < 32) (k : ℕ) : (1#32 <<< j).getLsbD k = decide (k = j) := by
  rw [BitVec.getLsbD_shiftLeft, BitVec.getLsbD_one, decide_eq_true (by decide : 0 < 32), Bool.true_and]
  rcases Nat.lt_trichotomy k j with hlt | rfl | hgt
  · simp [hlt, hlt.ne]
  · simp [hj]
  · have hne : k - j ≠ 0 := by omega
    simp [hne, hgt.ne']

theorem getLsbD_set (hj : j < 32) (k : ℕ) : (v ||| 1#32 <<< j).getLsbD k = (v.getLsbD k || decide (k = j)) := by
  rw [BitVec.getLsbD_or, getLsbD_bit hj]

theorem getLsbD_clear (hj : j < 32) (k : ℕ) :
    (v &&& ~~~(1#32 <<< j)).getLsbD k = (v.getLsbD k && !decide (k = j)) := by
  rw [BitVec.getLsbD_and, BitVec.getLsbD_not, getLsbD_bit hj]
  cases hbit : v.getLsbD k with
  | false => rfl
  | true => rw [decide_eq_true (BitVec.lt_of_getLsbD hbit), Bool.true_and]

theorem and_bit_eq_zero_iff (hj : j < 32) : v &&& 1#32 <<< j = 0#32 ↔ v.getLsbD j = false := by
  constructor
  · intro h
    have hbit : (v &&& 1#32 <<< j).getLsbD j = (0#32).getLsbD j := by rw [h]
    simpa [getLsbD_bit hj] using hbit
  · intro h
    apply BitVec.eq_of_getLsbD_eq
    intro k _
    rw [BitVec.getLsbD_and, getLsbD_bit hj, BitVec.getLsbD_zero]
    rcases eq_or_ne k j with rfl | hne
    · rw [h, Bool.false_and]
    · rw [decide_eq_false hne, Bool.and_false]

end Bits

structure Status where
  itabEmpty : Bool
  rdbufEmpty : Bool
  itabFull : Bool
  transDone : Bool
  rdbuffFull : Bool
  seqErr : Bool
deriving DecidableEq

def Status.zero : Status := ⟨false, false, false, false, false, false⟩

/-- The status register as it is read. -/
def Status.word (s : Status) : BitVec 32 :=
  (BitVec.ofBool s.seqErr ++ BitVec.ofBool s.rdbuffFull ++ BitVec.ofBool s.transDone ++
    BitVec.ofBool s.itabFull ++ BitVec.ofBool s.rdbufEmpty ++ BitVec.ofBool s.itabEmpty).setWidth 32

theorem Status.done_iff (s : Status) : s.word &&& bmTransferDone ≠ 0#32 ↔ s.transDone = true := by
  obtain ⟨a, b, c, d, e, f⟩ := s
  cases a <;> cases b <;> cases c <;> cases d <;> cases e <;> cases f <;> decide

structure Regs where
  ctrl : BitVec 32
  addr : BitVec 32
  len : BitVec 32

/-- The signals of the slave state machine. -/
structure Signals where
  status : Status
  state : SlaveState
  trigGStart : Bool
  srcAddr : BitVec 32
  srcLen : BitVec 32
  inTransValid : Bool
  seqAddr : ℕ
  seqErrChkOut : Bool

structure Slave extends Regs, Signals

structure SlavePorts where
  write : Option Write
  itabFull : Bool
  itabEmpty : Bool
  inTransDone : Bool
  rdbuffFull : Bool
  rdbuffEmpty : Bool
  seqErr : Bool

def Regs.gblStart (r : Regs) : Bool := r.ctrl.getLsbD 0

def Regs.inTrans (r : Regs) : Bool := r.ctrl.getLsbD 2

def Regs.write (r : Regs) : Option Write → Regs
  | none => r
  | some (.ctrl, v) => { r with ctrl := v }
  | some (.addr, v) => { r with addr := v }
  | some (.len, v) => { r with len := v }

/-- A write, and the clearing of the interrupt bit one clock after it was set. -/
def regProcess (s : Slave) (i : SlavePorts) : Regs :=
  let r := s.toRegs.write i.write
  if s.ctrl.getLsbD 1 then { r with ctrl := r.ctrl &&& ~~~bmIntrDone } else r

/-- The status bits that follow the ports. -/
def statusUpdate (s : Status) (i : SlavePorts) : Status :=
  let s := { s with itabEmpty := i.itabEmpty, seqErr := i.seqErr }
  if i.rdbuffFull then { s with rdbuffFull := true }
  else if i.rdbuffEmpty then { s with rdbufEmpty := true }
  else { s with rdbuffFull := false, rdbufEmpty := false }

/-- The address check: the expected address and the error. -/
def seqCheck (s : Signals) (addr : BitVec 32) : Signals :=
  if s.seqAddr ≠ addr.toNat then
    if addr ≠ 0x18000000#32 then { s with seqErrChkOut := true } else { s with seqAddr := 0x18000100 }
  else { s with seqAddr := s.seqAddr + 256 }

/-- The state that is taken when the global start bit is cleared. -/
def Signals.close (s : Signals) : Signals :=
  { s with trigGStart := false, inTransValid := false, state := .closing }

def slaveProcess (s : Slave) (i : SlavePorts) : Signals :=
  let t := { s.toSignals with status := statusUpdate s.status i }
  match s.state with
  | .idle =>
      if s.gblStart then
        { t with trigGStart := true, state := .warmingup, seqAddr := 0x18000000, seqErrChkOut := false }
      else
        { t with trigGStart := false, srcAddr := 0, srcLen := 0, inTransValid := false, state := .idle,
                 status := Status.zero }
  | .warmingup => { t with status.transDone := false, state := .receiving }
  | .receiving =>
      if s.gblStart then
        if s.inTrans then
          seqCheck { t with srcAddr := s.addr, srcLen := s.len, inTransValid := true, status.transDone := false,
                            state := .writing } s.addr
        else t
      else t.close
  | .writing =>
      if s.gblStart then
        if i.inTransDone then { t with status.transDone := true, state := .doneWriting }
        else { t with inTransValid := false, status.transDone := false }
      else t.close
  | .doneWriting =>
      if s.gblStart then
        if s.inTrans then { t with inTransValid := false, status.transDone := true }
        else { t with status.itabFull := true, state := .fullChk1 }
      else t.close
  | .fullChk1 =>
      if i.itabFull then
        { t with inTransValid := false, status := { t.status with transDone := false, itabFull := true },
                 state := .full }
      else
        { t with inTransValid := false, status := { t.status with transDone := false, itabFull := false },
                 state := .receiving }
  | .closing => { t with state := .idle }
  | .full =>
      if s.gblStart then
        if i.itabFull then { t with status.itabFull := true }
        else
          { t with inTransValid := false, status := { t.status with transDone := false, itabFull := false },
                   state := .receiving }
      else t.close
  | .empty => { t with trigGStart := false, inTransValid := false, state := .idle }

def Slave.edge (s : Slave) (i : SlavePorts) : Slave :=
  { toRegs := regProcess s i, toSignals := slaveProcess s i }

/-- The slave and the table as `odev_v1_0` connects them. -/
structure Dev where
  slave : Slave
  itab : Itab.State

/-- The ports of the device: a register write, the read master's request and what the read buffer reports. -/
structure Ports where
  outTransReq : Bool
  rdbuffFull : Bool
  rdbuffEmpty : Bool
  seqErr : Bool

def Dev.itabPorts (d : Dev) (i : Ports) : Itab.Ports :=
  ⟨⟨d.slave.srcAddr, d.slave.srcLen.setWidth 16⟩, d.slave.inTransValid, i.outTransReq⟩

def Dev.slavePorts (d : Dev) (w : Option Write) (i : Ports) : SlavePorts :=
  ⟨w, d.itab.full, d.itab.empty, d.itab.inTransDone, i.rdbuffFull, i.rdbuffEmpty, i.seqErr⟩

def Dev.edge (d : Dev) (w : Option Write) (i : Ports) : Dev :=
  ⟨d.slave.edge (d.slavePorts w i), Itab.edge d.slave.trigGStart d.itab (d.itabPorts i)⟩

/-- The entry that the table accepts at an edge. -/
def Dev.acceptedAt (d : Dev) (i : Ports) : List Itab.Entry :=
  if d.slave.trigGStart then Itab.acceptedAt d.itab (d.itabPorts i) else []

/-- What the slave is about while the global start bit is set. -/
inductive Phase where
  | idle | warmingup | ready | offered (e : Itab.Entry) | stored | done | settling | full
deriving DecidableEq

/-- The clocks of a phase; `e` is the entry in the registers. -/
inductive Next (inTrans : Bool) (e : Itab.Entry) : Phase → Phase → Prop
  | start : Next inTrans e .idle .warmingup
  | warm : Next inTrans e .warmingup .ready
  | wait (h : inTrans = false) : Next inTrans e .ready .ready
  | offer (h : inTrans = true) : Next inTrans e .ready (.offered e)
  | store (e' : Itab.Entry) : Next inTrans e (.offered e') .stored
  | finish : Next inTrans e .stored .done
  | hold (h : inTrans = true) : Next inTrans e .done .done
  | release (h : inTrans = false) : Next inTrans e .done .settling
  | settle : Next inTrans e .settling .ready
  | fill : Next inTrans e .settling .full
  | stay : Next inTrans e .full .full
  | drain : Next inTrans e .full .ready

/-- The entry that is stored in a phase. -/
def Phase.stores : Phase → List Itab.Entry
  | .offered e => [e]
  | _ => []

def Regs.entry (r : Regs) : Itab.Entry := ⟨r.addr, r.len.setWidth 16⟩

def Dev.room (d : Dev) : Prop := d.itab.inCount < d.itab.outCount + Itab.itabEntries

def Dev.At (d : Dev) : Phase → Prop
  | .idle => d.slave.state = .idle ∧ d.slave.trigGStart = false ∧ d.slave.inTransValid = false
  | .warmingup =>
      d.slave.state = .warmingup ∧ d.slave.trigGStart = true ∧ d.slave.inTransValid = false ∧ d.room
  | .ready =>
      d.slave.state = .receiving ∧ d.slave.trigGStart = true ∧ d.slave.inTransValid = false ∧ d.room ∧
        d.slave.status.transDone = false
  | .offered e =>
      d.slave.state = .writing ∧ d.slave.trigGStart = true ∧ d.slave.inTransValid = true ∧ d.room ∧
        d.slave.status.transDone = false ∧ d.itab.inTransDone = false ∧
        e = ⟨d.slave.srcAddr, d.slave.srcLen.setWidth 16⟩
  | .stored =>
      d.slave.state = .writing ∧ d.slave.trigGStart = true ∧ d.slave.inTransValid = false ∧
        d.slave.status.transDone = false ∧ d.itab.inTransDone = true
  | .done =>
      d.slave.state = .doneWriting ∧ d.slave.trigGStart = true ∧ d.slave.inTransValid = false ∧
        d.slave.status.transDone = true
  | .settling => d.slave.state = .fullChk1 ∧ d.slave.trigGStart = true ∧ d.slave.inTransValid = false
  | .full =>
      d.slave.state = .full ∧ d.slave.trigGStart = true ∧ d.slave.inTransValid = false ∧
        d.slave.status.transDone = false

section Edge

variable {d : Dev} {p : Phase} {i : Ports}

@[simp] theorem statusUpdate_transDone (s : Status) (i : SlavePorts) : (statusUpdate s i).transDone = s.transDone := by
  unfold statusUpdate
  split
  · rfl
  · split <;> rfl

@[simp] theorem seqCheck_toSignals (s : Signals) (a : BitVec 32) :
    (seqCheck s a).status = s.status ∧ (seqCheck s a).state = s.state ∧ (seqCheck s a).trigGStart = s.trigGStart ∧
      (seqCheck s a).srcAddr = s.srcAddr ∧ (seqCheck s a).srcLen = s.srcLen ∧
      (seqCheck s a).inTransValid = s.inTransValid := by
  unfold seqCheck
  split
  · split <;> exact ⟨rfl, rfl, rfl, rfl, rfl, rfl⟩
  · exact ⟨rfl, rfl, rfl, rfl, rfl, rfl⟩

/-- Without an offer the table does not fill up. -/
theorem room_of_idle (htrig : d.slave.trigGStart = true) (hvalid : d.slave.inTransValid = false)
    (hroom : d.room) (w : Option Write) : (d.edge w i).room := by
  have hin := Itab.edge_inCount d.itab (d.itabPorts i)
  have hout := Itab.edge_outCount d.itab (d.itabPorts i)
  have hno : (d.itabPorts i).inTransValid = false := hvalid
  unfold Dev.room at *
  change (Itab.edge d.slave.trigGStart d.itab (d.itabPorts i)).inCount < _
  rw [hno] at hin
  rw [Dev.edge, htrig, hin]
  dsimp only
  rw [hout]
  simp only [Bool.false_eq_true, false_and, if_false]
  omega

/-- The flag that the slave looks at is up whenever there is no place. -/
theorem room_of_not_full (hinv : Itab.Inv d.itab) (hfull : d.itab.full = false) : d.room := by
  have hle := hinv.in_le
  have hne : d.itab.inCount ≠ d.itab.outCount + Itab.itabEntries := by
    intro heq
    rw [hinv.full heq] at hfull
    cases hfull
  exact lt_of_le_of_ne hle hne

theorem acceptedAt_of_idle (h : d.slave.inTransValid = false) (i : Ports) : d.acceptedAt i = [] := by
  unfold Dev.acceptedAt Itab.acceptedAt
  have hno : (d.itabPorts i).inTransValid = false := h
  simp [hno]

theorem edge_state (d : Dev) (w : Option Write) (i : Ports) :
    (d.edge w i).slave.toSignals = slaveProcess d.slave (d.slavePorts w i) := rfl

/-- While the global start bit is set, a clock is one of the phase. -/
theorem Dev.At.edge (h : d.At p) (hinv : Itab.Inv d.itab) (hgbl : d.slave.gblStart = true) (w : Option Write)
    (i : Ports) : ∃ q, (d.edge w i).At q ∧ Next d.slave.inTrans d.slave.entry p q ∧ d.acceptedAt i = p.stores := by
  cases p with
  | idle =>
      obtain ⟨hstate, htrig, hvalid⟩ := h
      refine ⟨.warmingup, ?_, .start, acceptedAt_of_idle hvalid i⟩
      have hroom : (d.edge w i).room := by
        simp [Dev.room, Dev.edge, htrig, Itab.edge, Itab.inProcess, Itab.outProcess, Itab.itabEntries]
      simp [Dev.At, edge_state, slaveProcess, hstate, hgbl, hvalid, hroom]
  | warmingup =>
      obtain ⟨hstate, htrig, hvalid, hroom⟩ := h
      refine ⟨.ready, ?_, .warm, acceptedAt_of_idle hvalid i⟩
      simp [Dev.At, edge_state, slaveProcess, hstate, htrig, hvalid, room_of_idle htrig hvalid hroom w]
  | ready =>
      obtain ⟨hstate, htrig, hvalid, hroom, hdone⟩ := h
      have hroom' := room_of_idle (i := i) htrig hvalid hroom w
      cases htrans : d.slave.inTrans with
      | false =>
          refine ⟨.ready, ?_, .wait rfl, acceptedAt_of_idle hvalid i⟩
          simp [Dev.At, edge_state, slaveProcess, hstate, htrig, hvalid, hgbl, htrans, hdone, hroom']
      | true =>
          refine ⟨.offered d.slave.entry, ?_, .offer rfl, acceptedAt_of_idle hvalid i⟩
          have hidle : (d.edge w i).itab.inTransDone = false := by
            simp [Dev.edge, htrig, Itab.edge, Itab.inProcess, Dev.itabPorts, hvalid]
          simp [Dev.At, edge_state, slaveProcess, hstate, htrig, hgbl, htrans, hroom', hidle, Regs.entry]
  | offered e =>
      obtain ⟨hstate, htrig, hvalid, hroom, hdone, hwait, rfl⟩ := h
      have haccept : (d.itabPorts i).inTransValid = true ∧ Itab.held d.itab < Itab.itabEntries := by
        refine ⟨hvalid, ?_⟩
        unfold Dev.room at hroom
        unfold Itab.held
        omega
      have hstored : (d.edge w i).itab.inTransDone = true := by
        change (Itab.edge d.slave.trigGStart d.itab (d.itabPorts i)).inTransDone = true
        rw [htrig]
        exact (Itab.edge_inTransDone d.itab (d.itabPorts i)).mpr haccept
      refine ⟨.stored, ?_, .store _, ?_⟩
      · simp [Dev.At, edge_state, slaveProcess, Dev.slavePorts, hstate, htrig, hgbl, hwait, hstored]
      · rw [Dev.acceptedAt, htrig, if_pos rfl, Itab.acceptedAt, if_pos haccept]
        rfl
  | stored =>
      obtain ⟨hstate, htrig, hvalid, hdone, hstored⟩ := h
      refine ⟨.done, ?_, .finish, acceptedAt_of_idle hvalid i⟩
      simp [Dev.At, edge_state, slaveProcess, Dev.slavePorts, hstate, htrig, hvalid, hgbl, hstored]
  | done =>
      obtain ⟨hstate, htrig, hvalid, hdone⟩ := h
      cases htrans : d.slave.inTrans with
      | false =>
          refine ⟨.settling, ?_, .release rfl, acceptedAt_of_idle hvalid i⟩
          simp [Dev.At, edge_state, slaveProcess, hstate, htrig, hvalid, hgbl, htrans]
      | true =>
          refine ⟨.done, ?_, .hold rfl, acceptedAt_of_idle hvalid i⟩
          simp [Dev.At, edge_state, slaveProcess, hstate, htrig, hgbl, htrans]
  | settling =>
      obtain ⟨hstate, htrig, hvalid⟩ := h
      cases hfull : d.itab.full with
      | false =>
          refine ⟨.ready, ?_, .settle, acceptedAt_of_idle hvalid i⟩
          have hroom := room_of_idle (i := i) htrig hvalid (room_of_not_full hinv hfull) w
          simp [Dev.At, edge_state, slaveProcess, Dev.slavePorts, hstate, htrig, hfull, hroom]
      | true =>
          refine ⟨.full, ?_, .fill, acceptedAt_of_idle hvalid i⟩
          simp [Dev.At, edge_state, slaveProcess, Dev.slavePorts, hstate, htrig, hfull]
  | full =>
      obtain ⟨hstate, htrig, hvalid, hdone⟩ := h
      cases hfull : d.itab.full with
      | false =>
          refine ⟨.ready, ?_, .drain, acceptedAt_of_idle hvalid i⟩
          have hroom := room_of_idle (i := i) htrig hvalid (room_of_not_full hinv hfull) w
          simp [Dev.At, edge_state, slaveProcess, Dev.slavePorts, hstate, htrig, hgbl, hfull, hroom]
      | true =>
          refine ⟨.full, ?_, .stay, acceptedAt_of_idle hvalid i⟩
          simp [Dev.At, edge_state, slaveProcess, Dev.slavePorts, hstate, htrig, hvalid, hgbl, hfull, hdone]

theorem edge_itab_inv (hinv : Itab.Inv d.itab) (w : Option Write) (i : Ports) : Itab.Inv (d.edge w i).itab := by
  cases htrig : d.slave.trigGStart with
  | false =>
      rw [Dev.edge, htrig]
      exact Itab.inv_reset _ _
  | true =>
      rw [Dev.edge, htrig]
      exact hinv.edge _

theorem edge_addr (d : Dev) (w : Option Write) (i : Ports) :
    (d.edge w i).slave.addr = (d.slave.toRegs.write w).addr := by
  simp only [Dev.edge, Slave.edge, regProcess, Dev.slavePorts]
  split <;> rfl

theorem edge_len (d : Dev) (w : Option Write) (i : Ports) :
    (d.edge w i).slave.len = (d.slave.toRegs.write w).len := by
  simp only [Dev.edge, Slave.edge, regProcess, Dev.slavePorts]
  split <;> rfl

/-- The device clears no control bit but the interrupt bit. -/
theorem edge_ctrl (d : Dev) (w : Option Write) (i : Ports) {k : ℕ} (hk : k ≠ 1) :
    (d.edge w i).slave.ctrl.getLsbD k = (d.slave.toRegs.write w).ctrl.getLsbD k := by
  simp only [Dev.edge, Slave.edge, regProcess, Dev.slavePorts]
  split
  · rw [bmIntrDone, getLsbD_clear _ (by decide), decide_eq_false hk, Bool.not_false, Bool.and_true]
  · rfl

end Edge

end Slos.Odev
