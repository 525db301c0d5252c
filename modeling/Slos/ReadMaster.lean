import Mathlib.Tactic.Common
import Slos.Itab

/-!
# The read master

The processes of `odev_v1_0_M00_AXI` that read, clock by clock, between the instruction table and a read slave on the
bus. `reg_src_addr` is never driven and taken as 0.
-/

namespace Slos.ReadMaster
open Clocked Itab

inductive DmaState where
  | idle | itabRead | itabReadChk | memRead
  | rdbuffFullChk1 | rdbuffFullChk2 | rdbuffFullChk3 | rdbuffFullChk4 | rdbuffFull
deriving DecidableEq, Repr

/-- The signals of the state machine. -/
structure Dma where
  state : DmaState
  startSingleBurstRead : Bool
  itabOutTransReq : Bool
  src : Entry
  rdataDoneLen : ℕ

/-- The signals of the other processes: read address, read data, ready, and the flag of a burst on its way. -/
structure Channel where
  arvalid : Bool
  araddr : BitVec 32
  rdata : BitVec 32
  rdataValid : Bool
  rready : Bool
  burstReadActive : Bool

structure Master extends Dma, Channel

structure MasterPorts where
  src : Entry
  itabOutValid : Bool
  itabEmpty : Bool
  rdbuffFull : Bool
  arready : Bool
  rvalid : Bool
  rlast : Bool
  rdata : BitVec 32

/-- What is checked after the last beat of a burst: the read buffer, then whether the entry is done. -/
def rdbuffCheck (m : Dma) (i : MasterPorts) : Dma :=
  if i.rdbuffFull then { m with state := .rdbuffFull }
  else if m.src.srcLen.toNat ≤ m.rdataDoneLen + 64 then { m with state := .itabRead }
  else { m with rdataDoneLen := m.rdataDoneLen + 64, state := .memRead }

def dmaProcess (streamStart : Bool) (m : Master) (i : MasterPorts) : Dma :=
  if streamStart = false then { m.toDma with state := .idle, startSingleBurstRead := false, itabOutTransReq := false }
  else
    match m.state with
    | .idle => { m.toDma with state := .itabRead }
    | .itabRead => { m.toDma with itabOutTransReq := true, state := .itabReadChk }
    | .itabReadChk =>
        if i.itabOutValid then
          { m.toDma with src := i.src, itabOutTransReq := false, rdataDoneLen := 0, state := .memRead }
        else { m.toDma with itabOutTransReq := i.itabEmpty }
    | .memRead =>
        if i.rvalid ∧ m.rready ∧ i.rlast then { m.toDma with state := .rdbuffFullChk1 }
        else
          { m.toDma with
            startSingleBurstRead := !m.arvalid && !m.burstReadActive && !m.startSingleBurstRead }
    | .rdbuffFullChk1 => { m.toDma with state := .rdbuffFullChk2 }
    | .rdbuffFullChk2 => { m.toDma with state := .rdbuffFullChk3 }
    | .rdbuffFullChk3 => { m.toDma with state := .rdbuffFullChk4 }
    | .rdbuffFullChk4 => rdbuffCheck m.toDma i
    | .rdbuffFull => rdbuffCheck m.toDma i

def arvalidProcess (streamStart : Bool) (m : Master) (i : MasterPorts) : Bool × BitVec 32 :=
  if streamStart = false then (false, 0)
  else if m.arvalid = false ∧ m.startSingleBurstRead = true then
    (true, m.src.srcAddr + BitVec.ofNat 32 m.rdataDoneLen)
  else if i.arready ∧ m.arvalid then (false, m.araddr)
  else (m.arvalid, m.araddr)

def rdataProcess (streamStart : Bool) (m : Master) (i : MasterPorts) : BitVec 32 × Bool :=
  if streamStart = false ∨ m.startSingleBurstRead = true then (0, false)
  else if i.rvalid ∧ m.rready then (i.rdata, true)
  else (0, false)

def rreadyProcess (streamStart : Bool) (m : Master) (i : MasterPorts) : Bool :=
  if streamStart = false then false
  else if i.rvalid then !(i.rlast && m.rready)
  else m.rready

def burstProcess (streamStart : Bool) (m : Master) (i : MasterPorts) : Bool :=
  if streamStart = false then false
  else if m.startSingleBurstRead then true
  else if i.rvalid ∧ m.rready ∧ i.rlast then false
  else m.burstReadActive

def Master.edge (streamStart : Bool) (m : Master) (i : MasterPorts) : Master :=
  { toDma := dmaProcess streamStart m i
    arvalid := (arvalidProcess streamStart m i).1
    araddr := (arvalidProcess streamStart m i).2
    rdata := (rdataProcess streamStart m i).1
    rdataValid := (rdataProcess streamStart m i).2
    rready := rreadyProcess streamStart m i
    burstReadActive := burstProcess streamStart m i }

/-- The master, the table, the beats that the slave still owes, and whether an entry was offered to the table at the
last clock. -/
structure Reader where
  master : Master
  itab : Itab.State
  owed : ℕ
  offered : Bool

/-- What the slave, the read buffer and the writer of the table do at a clock, as far as they may. -/
structure Ports where
  src : Entry
  offer : Bool
  arready : Bool
  rvalid : Bool
  rdata : BitVec 32
  rdbuffFull : Bool

/-- No entry is offered at two clocks in a row. -/
def Reader.offers (s : Reader) (i : Ports) : Bool := i.offer && !s.offered

def Reader.itabPorts (s : Reader) (i : Ports) : Itab.Ports := ⟨i.src, s.offers i, s.master.itabOutTransReq⟩

/-- A burst of 16 beats is accepted. -/
def Reader.accepts (s : Reader) (i : Ports) : Bool := s.master.arvalid && i.arready

/-- The beats of the accepted bursts that were not handed over. -/
def Reader.beats (s : Reader) (i : Ports) : ℕ := s.owed + if s.accepts i then 16 else 0

/-- The slave has data only for accepted bursts. -/
def Reader.rvalid (s : Reader) (i : Ports) : Bool := i.rvalid && decide (0 < s.beats i)

def Reader.rlast (s : Reader) (i : Ports) : Bool := decide (s.beats i % 16 = 1)

/-- A beat is handed over. -/
def Reader.rnext (s : Reader) (i : Ports) : Bool := s.rvalid i && s.master.rready

def Reader.masterPorts (s : Reader) (i : Ports) : MasterPorts :=
  ⟨s.itab.srcOut, s.itab.outValid, s.itab.empty, i.rdbuffFull, i.arready, s.rvalid i, s.rlast i, i.rdata⟩

def Reader.edge (streamStart : Bool) (s : Reader) (i : Ports) : Reader :=
  ⟨s.master.edge streamStart (s.masterPorts i), Itab.edge true s.itab (s.itabPorts i),
    s.beats i - if s.rnext i then 1 else 0, s.offers i⟩

/-- Where the master is: between entries, or in burst `k` of the entry in `src`. -/
inductive Phase where
  | idle | request | waiting | fetched
  | begins (k : ℕ) | pulse (k : ℕ) | address (k : ℕ) | data (k : ℕ) | check (k : ℕ)

def Reader.phase (s : Reader) : Phase :=
  match s.master.state with
  | .idle => .idle
  | .itabRead => .request
  | .itabReadChk => if s.itab.outValid then .fetched else .waiting
  | .memRead =>
      if s.master.startSingleBurstRead then .pulse (s.master.rdataDoneLen / 64)
      else if s.master.arvalid then .address (s.master.rdataDoneLen / 64)
      else if s.master.burstReadActive then .data (s.master.rdataDoneLen / 64)
      else .begins (s.master.rdataDoneLen / 64)
  | _ => .check (s.master.rdataDoneLen / 64)

/-- The bursts of an entry that were not accepted by the slave. -/
def Phase.remaining (e : Entry) : Phase → List (BitVec 32)
  | .begins k | .pulse k | .address k => e.bursts.drop k
  | .data k | .check k => e.bursts.drop (k + 1)
  | _ => []

def Reader.remaining (s : Reader) : List (BitVec 32) := s.phase.remaining s.master.src

/-- The entry that was read out of the table and is taken at the next edge. -/
def Reader.fetched (s : Reader) : List Entry :=
  if s.master.state = .itabReadChk ∧ s.itab.outValid = true then [s.itab.srcOut] else []

/-- The address of the burst that the slave accepts at an edge. -/
def issuedAt (s : Reader) (i : Ports) : List (BitVec 32) := if s.accepts i then [s.master.araddr] else []

/-- The beat that is handed over at an edge. -/
def handedAt (s : Reader) (i : Ports) : List (BitVec 32) := if s.rnext i then [i.rdata] else []

/-- What `M_RDATA` shows with `M_RDATA_VALID`. -/
def Reader.shown (s : Reader) : List (BitVec 32) := if s.master.rdataValid then [s.master.rdata] else []

/-- No burst is on its way. -/
structure Rest (s : Reader) : Prop where
  start : s.master.startSingleBurstRead = false
  arvalid : s.master.arvalid = false
  active : s.master.burstReadActive = false
  rready : s.master.rready = false
  owed : s.owed = 0

/-- Burst `k` is one of the entry's. -/
structure Burst (s : Reader) (k : ℕ) : Prop where
  req : s.master.itabOutTransReq = false
  done : s.master.rdataDoneLen = 64 * k
  lt : k < s.master.src.bursts.length

def Reader.At (s : Reader) : Phase → Prop
  | .idle => Rest s ∧ s.master.state = .idle ∧ s.master.itabOutTransReq = false
  | .request => Rest s ∧ s.master.state = .itabRead ∧ s.master.itabOutTransReq = false
  | .waiting =>
      Rest s ∧ s.master.state = .itabReadChk ∧ s.master.itabOutTransReq = true ∧ s.itab.outValid = false
  | .fetched =>
      Rest s ∧ s.master.state = .itabReadChk ∧ s.itab.outValid = true ∧
        (s.master.itabOutTransReq = true → s.itab.inCount = s.itab.outCount)
  | .begins k => Rest s ∧ s.master.state = .memRead ∧ Burst s k
  | .pulse k =>
      s.master.state = .memRead ∧ Burst s k ∧ s.master.startSingleBurstRead = true ∧ s.master.arvalid = false ∧
        s.master.burstReadActive = false ∧ s.master.rready = false ∧ s.owed = 0
  | .address k =>
      s.master.state = .memRead ∧ Burst s k ∧ s.master.startSingleBurstRead = false ∧ s.master.arvalid = true ∧
        s.master.araddr = s.master.src.srcAddr + BitVec.ofNat 32 (64 * k) ∧ s.master.burstReadActive = true ∧
        s.master.rready = false ∧ s.owed = 0
  | .data k =>
      s.master.state = .memRead ∧ Burst s k ∧ s.master.startSingleBurstRead = false ∧ s.master.arvalid = false ∧
        s.master.burstReadActive = true ∧ 0 < s.owed ∧ s.owed ≤ 16
  | .check k =>
      Rest s ∧ Burst s k ∧ (s.master.state = .rdbuffFullChk1 ∨ s.master.state = .rdbuffFullChk2 ∨
        s.master.state = .rdbuffFullChk3 ∨ s.master.state = .rdbuffFullChk4 ∨ s.master.state = .rdbuffFull)

/-- An entry that is held while the table is reported empty was offered at the last clock. -/
structure Fed (s : Reader) : Prop where
  itab : Itab.Inv s.itab
  empty : s.itab.empty = true → s.itab.inCount ≤ s.itab.outCount + if s.offered then 1 else 0

section Edge

variable {s : Reader} {p : Phase} {k : ℕ} {i : Ports}

theorem Reader.At.phase_eq (h : s.At p) : s.phase = p := by
  cases p with
  | check k =>
      obtain ⟨-, hburst, hstate⟩ := h
      have hdone := hburst.done
      rcases hstate with hs | hs | hs | hs | hs <;> simp [Reader.phase, hs, hdone]
  | begins k =>
      obtain ⟨hrest, hstate, hburst⟩ := h
      simp [Reader.phase, hstate, hrest.start, hrest.arvalid, hrest.active, hburst.done]
  | pulse k =>
      obtain ⟨hstate, hburst, hstart, -⟩ := h
      simp [Reader.phase, hstate, hstart, hburst.done]
  | address k =>
      obtain ⟨hstate, hburst, hstart, harvalid, -⟩ := h
      simp [Reader.phase, hstate, hstart, harvalid, hburst.done]
  | data k =>
      obtain ⟨hstate, hburst, hstart, harvalid, hactive, -⟩ := h
      simp [Reader.phase, hstate, hstart, harvalid, hactive, hburst.done]
  | idle => simp [Reader.phase, h.2.1]
  | request => simp [Reader.phase, h.2.1]
  | waiting => simp [Reader.phase, h.2.1, h.2.2.2]
  | fetched => simp [Reader.phase, h.2.1, h.2.2.1]

theorem Rest.rvalid (h : Rest s) (i : Ports) : s.rvalid i = false := by
  simp [Reader.rvalid, Reader.beats, Reader.accepts, h.arvalid, h.owed]

/-- Nothing happens on the bus before a burst is started. -/
theorem Rest.edge (h : Rest s) (i : Ports)
    (hstart : (s.edge true i).master.startSingleBurstRead = false) : Rest (s.edge true i) := by
  have hvalid := h.rvalid i
  constructor
  · exact hstart
  · simp [Reader.edge, Master.edge, arvalidProcess, h.arvalid, h.start]
  · simp [Reader.edge, Master.edge, burstProcess, h.active, h.start, Reader.masterPorts, hvalid]
  · simp [Reader.edge, Master.edge, rreadyProcess, h.rready, Reader.masterPorts, hvalid]
  · simp [Reader.edge, Reader.beats, Reader.accepts, h.arvalid, h.owed]

theorem bursts_length (e : Entry) : e.bursts.length = max 1 ((e.srcLen.toNat + 63) / 64) := by
  rw [Entry.bursts, List.length_map, List.length_range]

theorem bursts_getElem? (e : Entry) (hk : k < e.bursts.length) :
    e.bursts.drop k = (e.srcAddr + BitVec.ofNat 32 (64 * k)) :: e.bursts.drop (k + 1) := by
  have hget : e.bursts[k] = e.srcAddr + BitVec.ofNat 32 (64 * k) := by simp [Entry.bursts]
  rw [List.drop_eq_getElem_cons hk, hget]

theorem Reader.At.idle_edge (h : s.At .idle) (i : Ports) : (s.edge true i).At .request := by
  obtain ⟨hrest, hstate, hreq⟩ := h
  refine ⟨hrest.edge i ?_, ?_, ?_⟩
  · simp [Reader.edge, Master.edge, dmaProcess, hstate, hrest.start]
  · simp [Reader.edge, Master.edge, dmaProcess, hstate]
  · simp [Reader.edge, Master.edge, dmaProcess, hstate, hreq]

theorem Reader.At.request_edge (h : s.At .request) (i : Ports) : (s.edge true i).At .waiting := by
  obtain ⟨hrest, hstate, hreq⟩ := h
  refine ⟨hrest.edge i ?_, ?_, ?_, ?_⟩
  · simp [Reader.edge, Master.edge, dmaProcess, hstate, hrest.start]
  · simp [Reader.edge, Master.edge, dmaProcess, hstate]
  · simp [Reader.edge, Master.edge, dmaProcess, hstate]
  · simp [Reader.edge, Itab.edge, outProcess, Reader.itabPorts, hreq]

/-- The request stays up as long as the table is reported empty; when an entry comes out with the request still up,
the table holds no other that it could take along. -/
theorem Reader.At.waiting_edge (h : s.At .waiting) (hfed : Fed s) (i : Ports) :
    if s.itab.outCount < s.itab.inCount then (s.edge true i).At .fetched else (s.edge true i).At .waiting := by
  obtain ⟨hrest, hstate, hreq, hout⟩ := h
  have hrest' : Rest (s.edge true i) := by
    apply hrest.edge
    simp [Reader.edge, Master.edge, dmaProcess, hstate, hrest.start, Reader.masterPorts, hout]
  have hstate' : (s.edge true i).master.state = .itabReadChk := by
    simp [Reader.edge, Master.edge, dmaProcess, hstate, Reader.masterPorts, hout]
  have hreq' : (s.edge true i).master.itabOutTransReq = s.itab.empty := by
    simp [Reader.edge, Master.edge, dmaProcess, hstate, Reader.masterPorts, hout]
  split
  next hheld =>
    refine ⟨hrest', hstate', ?_, ?_⟩
    · simp [Reader.edge, Itab.edge, outProcess, Reader.itabPorts, hreq, hheld]
    · intro hagain
      have hle := hfed.empty (hreq'.symm.trans hagain)
      have hoffered : s.offered = true := by
        by_contra hno
        rw [if_neg hno] at hle
        omega
      have hquiet : (s.itabPorts i).inTransValid = false := by simp [Reader.itabPorts, Reader.offers, hoffered]
      have hin := Itab.edge_inCount s.itab (s.itabPorts i)
      have hout' := Itab.edge_outCount s.itab (s.itabPorts i)
      rw [if_neg (by simp [hquiet])] at hin
      rw [if_pos ⟨hreq, hheld⟩] at hout'
      rw [if_pos hoffered] at hle
      change (Itab.edge true s.itab (s.itabPorts i)).inCount = (Itab.edge true s.itab (s.itabPorts i)).outCount
      omega
  next hheld =>
    have hnone : s.itab.inCount = s.itab.outCount := le_antisymm (not_lt.mp hheld) hfed.itab.out_le
    refine ⟨hrest', hstate', hreq'.trans (hfed.itab.empty hnone), ?_⟩
    simp [Reader.edge, Itab.edge, outProcess, Reader.itabPorts, hreq, hheld, hout]

theorem Reader.At.fetched_edge (h : s.At .fetched) (i : Ports) :
    (s.edge true i).At (.begins 0) ∧ (s.edge true i).master.src = s.itab.srcOut := by
  obtain ⟨hrest, hstate, hout, -⟩ := h
  have hsrc : (s.edge true i).master.src = s.itab.srcOut := by
    simp [Reader.edge, Master.edge, dmaProcess, hstate, Reader.masterPorts, hout]
  refine ⟨⟨hrest.edge i ?_, ?_, ?_, ?_, ?_⟩, hsrc⟩
  · simp [Reader.edge, Master.edge, dmaProcess, hstate, Reader.masterPorts, hout, hrest.start]
  · simp [Reader.edge, Master.edge, dmaProcess, hstate, Reader.masterPorts, hout]
  · simp [Reader.edge, Master.edge, dmaProcess, hstate, Reader.masterPorts, hout]
  · simp [Reader.edge, Master.edge, dmaProcess, hstate, Reader.masterPorts, hout]
  · rw [bursts_length]
    omega

/-- In a burst the state machine changes its state and the start pulse only. -/
theorem Burst.edge {t : Reader} {d : DmaState} {b : Bool} (h : Burst s k)
    (hdma : t.master.toDma = { s.master.toDma with state := d, startSingleBurstRead := b }) :
    Burst t k ∧ t.master.state = d ∧ t.master.startSingleBurstRead = b ∧ t.master.src = s.master.src := by
  refine ⟨⟨?_, ?_, ?_⟩, ?_, ?_, ?_⟩
  · rw [hdma]
    exact h.req
  · rw [hdma]
    exact h.done
  · rw [hdma]
    exact h.lt
  · rw [hdma]
  · rw [hdma]
  · rw [hdma]

theorem Reader.At.begins_edge (h : s.At (.begins k)) (i : Ports) :
    (s.edge true i).At (.pulse k) ∧ (s.edge true i).master.src = s.master.src := by
  obtain ⟨hrest, hstate, hburst⟩ := h
  have hvalid := hrest.rvalid i
  have hdma : (s.edge true i).master.toDma =
      { s.master.toDma with state := .memRead, startSingleBurstRead := true } := by
    simp [Reader.edge, Master.edge, dmaProcess, hstate, Reader.masterPorts, hvalid, hrest.arvalid, hrest.active,
      hrest.start]
  obtain ⟨hburst', hstate', hstart', hsrc⟩ := hburst.edge hdma
  refine ⟨⟨hstate', hburst', hstart', ?_, ?_, ?_, ?_⟩, hsrc⟩
  · simp [Reader.edge, Master.edge, arvalidProcess, hrest.arvalid, hrest.start]
  · simp [Reader.edge, Master.edge, burstProcess, hrest.active, hrest.start, Reader.masterPorts, hvalid]
  · simp [Reader.edge, Master.edge, rreadyProcess, hrest.rready, Reader.masterPorts, hvalid]
  · simp [Reader.edge, Reader.beats, Reader.accepts, hrest.arvalid, hrest.owed]

theorem Reader.At.pulse_edge (h : s.At (.pulse k)) (i : Ports) :
    (s.edge true i).At (.address k) ∧ (s.edge true i).master.src = s.master.src := by
  obtain ⟨hstate, hburst, hstart, harvalid, hactive, hrready, howed⟩ := h
  have hvalid : s.rvalid i = false := by simp [Reader.rvalid, Reader.beats, Reader.accepts, harvalid, howed]
  have hdma : (s.edge true i).master.toDma =
      { s.master.toDma with state := .memRead, startSingleBurstRead := false } := by
    simp [Reader.edge, Master.edge, dmaProcess, hstate, Reader.masterPorts, hvalid, harvalid, hactive, hstart]
  obtain ⟨hburst', hstate', hstart', hsrc⟩ := hburst.edge hdma
  refine ⟨⟨hstate', hburst', hstart', ?_, ?_, ?_, ?_, ?_⟩, hsrc⟩
  · simp [Reader.edge, Master.edge, arvalidProcess, harvalid, hstart]
  · rw [hsrc]
    simp [Reader.edge, Master.edge, arvalidProcess, harvalid, hstart, hburst.done]
  · simp [Reader.edge, Master.edge, burstProcess, hstart]
  · simp [Reader.edge, Master.edge, rreadyProcess, hrready, Reader.masterPorts, hvalid]
  · simp [Reader.edge, Reader.beats, Reader.accepts, harvalid, howed]

theorem Reader.At.address_edge (h : s.At (.address k)) (i : Ports) :
    (s.edge true i).At (if i.arready then .data k else .address k) ∧
      (s.edge true i).master.src = s.master.src := by
  obtain ⟨hstate, hburst, hstart, harvalid, haraddr, hactive, hrready, howed⟩ := h
  have hdma : (s.edge true i).master.toDma =
      { s.master.toDma with state := .memRead, startSingleBurstRead := false } := by
    simp [Reader.edge, Master.edge, dmaProcess, hstate, Reader.masterPorts, harvalid, hrready]
  obtain ⟨hburst', hstate', hstart', hsrc⟩ := hburst.edge hdma
  have hactive' : (s.edge true i).master.burstReadActive = true := by
    simp [Reader.edge, Master.edge, burstProcess, hstart, hactive, hrready]
  cases hready : i.arready with
  | true =>
      refine ⟨⟨hstate', hburst', hstart', ?_, hactive', ?_⟩, hsrc⟩
      · simp [Reader.edge, Master.edge, arvalidProcess, harvalid, Reader.masterPorts, hready]
      · simp [Reader.edge, Reader.beats, Reader.accepts, Reader.rnext, harvalid, howed, hready, hrready]
  | false =>
      have hvalid : s.rvalid i = false := by simp [Reader.rvalid, Reader.beats, Reader.accepts, hready, howed]
      refine ⟨⟨hstate', hburst', hstart', ?_, ?_, hactive', ?_, ?_⟩, hsrc⟩
      · simp [Reader.edge, Master.edge, arvalidProcess, harvalid, Reader.masterPorts, hready]
      · rw [hsrc]
        simp [Reader.edge, Master.edge, arvalidProcess, harvalid, Reader.masterPorts, hready, haraddr]
      · simp [Reader.edge, Master.edge, rreadyProcess, hrready, Reader.masterPorts, hvalid]
      · simp [Reader.edge, Reader.beats, Reader.accepts, hready, howed]

/-- The last beat ends the burst. -/
theorem Reader.At.data_edge (h : s.At (.data k)) (i : Ports) :
    ((s.edge true i).At (.data k) ∨ (s.edge true i).At (.check k)) ∧
      (s.edge true i).master.src = s.master.src := by
  obtain ⟨hstate, hburst, hstart, harvalid, hactive, hpos, hle⟩ := h
  have hbeats : s.beats i = s.owed := by simp [Reader.beats, Reader.accepts, harvalid]
  have harvalid' : (s.edge true i).master.arvalid = false := by
    simp [Reader.edge, Master.edge, arvalidProcess, harvalid, hstart]
  have hlast : ((s.masterPorts i).rvalid = true ∧ s.master.rready = true ∧ (s.masterPorts i).rlast = true) ↔
      s.rnext i = true ∧ s.owed = 1 := by
    have hmod : s.owed % 16 = 1 ↔ s.owed = 1 := by omega
    simp [Reader.masterPorts, Reader.rnext, Reader.rlast, hbeats, hmod, and_assoc]
  by_cases hend : s.rnext i = true ∧ s.owed = 1
  · have hbeat := hlast.mpr hend
    have hdma : (s.edge true i).master.toDma =
        { s.master.toDma with state := .rdbuffFullChk1, startSingleBurstRead := false } := by
      simp [Reader.edge, Master.edge, dmaProcess, hstate, hbeat, hstart]
    obtain ⟨hburst', hstate', hstart', hsrc⟩ := hburst.edge hdma
    refine ⟨Or.inr ⟨⟨hstart', harvalid', ?_, ?_, ?_⟩, hburst', Or.inl hstate'⟩, hsrc⟩
    · simp [Reader.edge, Master.edge, burstProcess, hbeat, hstart]
    · simp [Reader.edge, Master.edge, rreadyProcess, hbeat]
    · simp [Reader.edge, hbeats, hend]
  · have hbeat : ¬ ((s.masterPorts i).rvalid = true ∧ s.master.rready = true ∧ (s.masterPorts i).rlast = true) :=
      fun h => hend (hlast.mp h)
    have hdma : (s.edge true i).master.toDma =
        { s.master.toDma with state := .memRead, startSingleBurstRead := false } := by
      simp [Reader.edge, Master.edge, dmaProcess, hstate, hbeat, hactive]
    obtain ⟨hburst', hstate', hstart', hsrc⟩ := hburst.edge hdma
    refine ⟨Or.inl ⟨hstate', hburst', hstart', harvalid', ?_, ?_, ?_⟩, hsrc⟩
    · simp [Reader.edge, Master.edge, burstProcess, hbeat, hstart, hactive]
    · change 0 < s.beats i - if s.rnext i then 1 else 0
      rw [hbeats]
      split <;> simp_all
      omega
    · exact (Nat.sub_le _ _).trans (hbeats.trans_le hle)

/-- The burst is the last one if the entry is done after it. -/
theorem Burst.last_iff (h : Burst s k) :
    s.master.src.srcLen.toNat ≤ s.master.rdataDoneLen + 64 ↔ s.master.src.bursts.length = k + 1 := by
  have hlt := h.lt
  have hdone := h.done
  rw [bursts_length] at *
  omega

theorem Rest.check_edge (h : Rest s) (hburst : Burst s k)
    (hdma : (s.edge true i).master.toDma = rdbuffCheck s.master.toDma (s.masterPorts i)) :
    (s.edge true i).At (.check k) ∧ (s.edge true i).master.src = s.master.src ∨
    (s.edge true i).At (.begins (k + 1)) ∧ (s.edge true i).master.src = s.master.src ∨
    (s.edge true i).At .request ∧ s.master.src.bursts.length = k + 1 := by
  have hstart := h.start
  have hrest : Rest (s.edge true i) := by
    apply h.edge
    rw [hdma, rdbuffCheck]
    split
    · exact hstart
    · split <;> exact hstart
  by_cases hfull : (s.masterPorts i).rdbuffFull = true
  · rw [rdbuffCheck, if_pos hfull] at hdma
    obtain ⟨hburst', hstate', -, hsrc⟩ := hburst.edge (d := .rdbuffFull) (b := false) (by rw [hdma, ← hstart])
    exact Or.inl ⟨⟨hrest, hburst', by simp [hstate']⟩, hsrc⟩
  · rw [rdbuffCheck, if_neg hfull] at hdma
    by_cases hlast : s.master.src.bursts.length = k + 1
    · rw [if_pos (hburst.last_iff.mpr hlast)] at hdma
      refine Or.inr (Or.inr ⟨⟨hrest, ?_, ?_⟩, hlast⟩)
      · rw [hdma]
      · rw [hdma]
        exact hburst.req
    · rw [if_neg fun hle => hlast (hburst.last_iff.mp hle)] at hdma
      have hlt := hburst.lt
      refine Or.inr (Or.inl ⟨⟨hrest, ?_, ⟨?_, ?_, ?_⟩⟩, ?_⟩)
      · rw [hdma]
      · rw [hdma]
        exact hburst.req
      · rw [hdma]
        dsimp only
        rw [hburst.done, Nat.mul_succ]
      · rw [hdma]
        dsimp only
        omega
      · rw [hdma]

/-- After the checks of the read buffer the next burst begins, unless the entry is done. -/
theorem Reader.At.check_edge (h : s.At (.check k)) (i : Ports) :
    (s.edge true i).At (.check k) ∧ (s.edge true i).master.src = s.master.src ∨
    (s.edge true i).At (.begins (k + 1)) ∧ (s.edge true i).master.src = s.master.src ∨
    (s.edge true i).At .request ∧ s.master.src.bursts.length = k + 1 := by
  obtain ⟨hrest, hburst, hstate⟩ := h
  have hnext (st : DmaState) (hst : st = .rdbuffFullChk2 ∨ st = .rdbuffFullChk3 ∨ st = .rdbuffFullChk4)
      (hdma : (s.edge true i).master.toDma = { s.master.toDma with state := st }) :
      (s.edge true i).At (.check k) ∧ (s.edge true i).master.src = s.master.src := by
    obtain ⟨hburst', hstate', hstart', hsrc⟩ := hburst.edge (b := false) (by rw [hdma, ← hrest.start])
    refine ⟨⟨hrest.edge i hstart', hburst', ?_⟩, hsrc⟩
    rw [hstate']
    rcases hst with rfl | rfl | rfl <;> simp
  rcases hstate with hs | hs | hs | hs | hs
  · exact Or.inl (hnext _ (Or.inl rfl) (by simp [Reader.edge, Master.edge, dmaProcess, hs]))
  · exact Or.inl (hnext _ (Or.inr (Or.inl rfl)) (by simp [Reader.edge, Master.edge, dmaProcess, hs]))
  · exact Or.inl (hnext _ (Or.inr (Or.inr rfl)) (by simp [Reader.edge, Master.edge, dmaProcess, hs]))
  · exact hrest.check_edge hburst (by simp [Reader.edge, Master.edge, dmaProcess, hs])
  · exact hrest.check_edge hburst (by simp [Reader.edge, Master.edge, dmaProcess, hs])

theorem Fed.edge (h : Fed s) (b : Bool) (i : Ports) : Fed (s.edge b i) := by
  have hinv : Itab.Inv (s.edge b i).itab := h.itab.edge (s.itabPorts i)
  refine ⟨hinv, fun hempty => ?_⟩
  have hin := Itab.edge_inCount s.itab (s.itabPorts i)
  have hout := Itab.edge_outCount s.itab (s.itabPorts i)
  have hheld : held s.itab = s.itab.inCount - s.itab.outCount := rfl
  have hone (he : s.itab.empty = true) : held s.itab ≤ 1 := by
    have hle := h.empty he
    split at hle <;> omega
  change (Itab.edge true s.itab (s.itabPorts i)).inCount ≤
    (Itab.edge true s.itab (s.itabPorts i)).outCount + if (s.itabPorts i).inTransValid then 1 else 0
  rcases of_empty hone hempty with hnone | ⟨hlast, hreq, hquiet⟩
  · have hsame : s.itab.inCount = s.itab.outCount := by omega
    cases hvalid : (s.itabPorts i).inTransValid with
    | false =>
        rw [hvalid, if_neg (by simp)] at hin
        omega
    | true =>
        have hle : (if (s.itabPorts i).inTransValid = true ∧ held s.itab < itabEntries then 1 else 0) ≤ 1 := by
          split <;> omega
        rw [if_pos rfl]
        omega
  · rw [if_neg (by simp [hquiet])] at hin
    rw [if_pos ⟨hreq, by omega⟩] at hout
    omega

/-- The reader's fields are as one of the phases has them. -/
structure Reader.Inv (s : Reader) : Prop where
  fed : Fed s
  at_phase : ∃ p, s.At p

theorem Reader.Inv.edge (h : s.Inv) (i : Ports) : (s.edge true i).Inv := by
  obtain ⟨hfed, p, hp⟩ := h
  refine ⟨hfed.edge true i, ?_⟩
  cases p with
  | idle => exact ⟨_, hp.idle_edge i⟩
  | request => exact ⟨_, hp.request_edge i⟩
  | waiting =>
      have hnext := hp.waiting_edge hfed i
      split at hnext
      · exact ⟨_, hnext⟩
      · exact ⟨_, hnext⟩
  | fetched => exact ⟨_, (hp.fetched_edge i).1⟩
  | begins k => exact ⟨_, (hp.begins_edge i).1⟩
  | pulse k => exact ⟨_, (hp.pulse_edge i).1⟩
  | address k => exact ⟨_, (hp.address_edge i).1⟩
  | data k =>
      rcases (hp.data_edge i).1 with hnext | hnext
      · exact ⟨_, hnext⟩
      · exact ⟨_, hnext⟩
  | check k =>
      rcases hp.check_edge i with hnext | hnext | hnext
      · exact ⟨_, hnext.1⟩
      · exact ⟨_, hnext.1⟩
      · exact ⟨_, hnext.1⟩

/-- Only in the address phase can the slave accept a burst. -/
theorem Reader.At.arvalid_iff (h : s.At p) : s.master.arvalid = true ↔ ∃ k, p = .address k := by
  cases p with
  | idle => simp [h.1.arvalid]
  | request => simp [h.1.arvalid]
  | waiting => simp [h.1.arvalid]
  | fetched => simp [h.1.arvalid]
  | begins k => simp [h.1.arvalid]
  | pulse k => simp [h.2.2.2.1]
  | address k => simp [h.2.2.2.1]
  | data k => simp [h.2.2.2.1]
  | check k => simp [h.1.arvalid]

theorem Reader.At.fetched_iff (h : s.At p) :
    s.master.state = .itabReadChk ∧ s.itab.outValid = true ↔ p = .fetched := by
  cases p with
  | idle => simp [h.2.1]
  | request => simp [h.2.1]
  | waiting => simp [h.2.2.2]
  | fetched => simp [h.2.1, h.2.2.1]
  | begins k => simp [h.2.1]
  | pulse k => simp [h.1]
  | address k => simp [h.1]
  | data k => simp [h.1]
  | check k => rcases h.2.2 with hs | hs | hs | hs | hs <;> simp [hs]

/-- The table is asked while the master waits, and it may still be asked when the entry has come out. -/
theorem Reader.At.req_iff (h : s.At p) (hheld : s.itab.outCount < s.itab.inCount) :
    s.master.itabOutTransReq = true ↔ p = .waiting := by
  cases p with
  | idle => simp [h.2.2]
  | request => simp [h.2.2]
  | waiting => simp [h.2.2.1]
  | fetched =>
      have hnone := h.2.2.2
      have hno : s.master.itabOutTransReq ≠ true := fun hreq => by
        have heq := hnone hreq
        omega
      simp [hno]
  | begins k => simp [h.2.2.req]
  | pulse k => simp [h.2.1.req]
  | address k => simp [h.2.1.req]
  | data k => simp [h.2.1.req]
  | check k => simp [h.2.1.req]

theorem Reader.At.remaining_eq (h : s.At p) : s.remaining = p.remaining s.master.src := by
  rw [Reader.remaining, h.phase_eq]

theorem Reader.At.fetched_eq_nil (h : s.At p) (hp : p ≠ .fetched) : s.fetched = [] :=
  if_neg fun hfetched => hp (h.fetched_iff.mp hfetched)

theorem Reader.At.issued_eq_nil (h : s.At p) (hp : ∀ k, p ≠ .address k) (i : Ports) : issuedAt s i = [] := by
  have harvalid : s.master.arvalid = false := by
    rw [Bool.eq_false_iff]
    intro hvalid
    obtain ⟨k, hk⟩ := h.arvalid_iff.mp hvalid
    exact hp k hk
  simp [issuedAt, Reader.accepts, harvalid]

/-- The bursts of the entry that is taken are issued one after the other. -/
theorem Reader.Inv.bursts (s : Reader) (i : Ports) (h : s.Inv) :
    s.remaining ++ s.fetched.flatMap Entry.bursts = issuedAt s i ++ (s.edge true i).remaining := by
  obtain ⟨hfed, p, hp⟩ := h
  have hquiet {q : Phase} (hnext : (s.edge true i).At q) (hfetched : p ≠ .fetched) (haddress : ∀ k, p ≠ .address k)
      (hrem : p.remaining s.master.src = q.remaining (s.edge true i).master.src) :
      s.remaining ++ s.fetched.flatMap Entry.bursts = issuedAt s i ++ (s.edge true i).remaining := by
    rw [hp.fetched_eq_nil hfetched, hp.issued_eq_nil haddress, hp.remaining_eq, hnext.remaining_eq, hrem]
    simp
  cases p with
  | idle => exact hquiet (hp.idle_edge i) (by simp) (by simp) rfl
  | request => exact hquiet (hp.request_edge i) (by simp) (by simp) rfl
  | waiting =>
      have hnext := hp.waiting_edge hfed i
      split at hnext
      · exact hquiet hnext (by simp) (by simp) rfl
      · exact hquiet hnext (by simp) (by simp) rfl
  | fetched =>
      obtain ⟨hnext, hsrc⟩ := hp.fetched_edge i
      have hfetched : s.fetched = [s.itab.srcOut] := if_pos (hp.fetched_iff.mpr rfl)
      rw [hp.remaining_eq, hnext.remaining_eq, hp.issued_eq_nil (by simp), hfetched, hsrc]
      simp [Phase.remaining]
  | begins k =>
      obtain ⟨hnext, hsrc⟩ := hp.begins_edge i
      exact hquiet hnext (by simp) (by simp) (by rw [hsrc]; rfl)
  | pulse k =>
      obtain ⟨hnext, hsrc⟩ := hp.pulse_edge i
      exact hquiet hnext (by simp) (by simp) (by rw [hsrc]; rfl)
  | address k =>
      obtain ⟨hnext, hsrc⟩ := hp.address_edge i
      obtain ⟨-, hburst, -, harvalid, haddr, -⟩ := id hp
      rw [hp.remaining_eq, hnext.remaining_eq, hp.fetched_eq_nil (by simp), hsrc, issuedAt, Reader.accepts, harvalid,
        haddr]
      cases i.arready with
      | true => simp [Phase.remaining, bursts_getElem? _ hburst.lt]
      | false => simp [Phase.remaining]
  | data k =>
      obtain ⟨hnext | hnext, hsrc⟩ := hp.data_edge i
      · exact hquiet hnext (by simp) (by simp) (by rw [hsrc])
      · exact hquiet hnext (by simp) (by simp) (by rw [hsrc]; rfl)
  | check k =>
      rcases hp.check_edge i with ⟨hnext, hsrc⟩ | ⟨hnext, hsrc⟩ | ⟨hnext, hlast⟩
      · exact hquiet hnext (by simp) (by simp) (by rw [hsrc])
      · exact hquiet hnext (by simp) (by simp) (by rw [hsrc]; rfl)
      · exact hquiet hnext (by simp) (by simp) (List.drop_of_length_le hlast.le)

/-- An entry comes out of the table at the edge after which the master takes it. -/
theorem Reader.Inv.fetches_iff (h : s.Inv) (i : Ports) :
    s.master.itabOutTransReq = true ∧ s.itab.outCount < s.itab.inCount ↔
      (s.edge true i).master.state = .itabReadChk ∧ (s.edge true i).itab.outValid = true := by
  obtain ⟨hfed, p, hp⟩ := h
  have hquiet {q : Phase} (hnext : (s.edge true i).At q) (hwaiting : p ≠ .waiting) (hq : q ≠ .fetched) :
      s.master.itabOutTransReq = true ∧ s.itab.outCount < s.itab.inCount ↔
        (s.edge true i).master.state = .itabReadChk ∧ (s.edge true i).itab.outValid = true := by
    rw [hnext.fetched_iff]
    constructor
    · rintro ⟨hreq, hheld⟩
      exact absurd ((hp.req_iff hheld).mp hreq) hwaiting
    · exact fun hfetched => absurd hfetched hq
  cases p with
  | idle => exact hquiet (hp.idle_edge i) (by simp) (by simp)
  | request => exact hquiet (hp.request_edge i) (by simp) (by simp)
  | waiting =>
      have hreq : s.master.itabOutTransReq = true := hp.2.2.1
      have hnext := hp.waiting_edge hfed i
      split at hnext
      next hheld => simp [hnext.fetched_iff, hreq, hheld]
      next hheld => simp [hnext.fetched_iff, hheld]
  | fetched => exact hquiet (hp.fetched_edge i).1 (by simp) (by simp)
  | begins k => exact hquiet (hp.begins_edge i).1 (by simp) (by simp)
  | pulse k => exact hquiet (hp.pulse_edge i).1 (by simp) (by simp)
  | address k =>
      apply hquiet (hp.address_edge i).1 (by simp)
      split <;> simp
  | data k =>
      rcases (hp.data_edge i).1 with hnext | hnext
      · exact hquiet hnext (by simp) (by simp)
      · exact hquiet hnext (by simp) (by simp)
  | check k =>
      rcases hp.check_edge i with ⟨hnext, -⟩ | ⟨hnext, -⟩ | ⟨hnext, -⟩
      · exact hquiet hnext (by simp) (by simp)
      · exact hquiet hnext (by simp) (by simp)
      · exact hquiet hnext (by simp) (by simp)

theorem Reader.Inv.readAt_eq (h : s.Inv) (i : Ports) :
    Itab.readAt s.itab (s.itabPorts i) = (s.edge true i).fetched := by
  have hheld : 0 < Itab.held s.itab ↔ s.itab.outCount < s.itab.inCount := by
    unfold Itab.held
    omega
  unfold Itab.readAt Reader.fetched
  exact if_congr ((and_congr_right' hheld).trans (h.fetches_iff i)) rfl rfl

/-- The entries that were accepted and not taken: the one that came out of the table, and those in it. -/
def Reader.pending (s : Reader) : List Entry := s.fetched ++ Itab.contents s.itab

def acceptedAt (s : Reader) (i : Ports) : List Entry := Itab.acceptedAt s.itab (s.itabPorts i)

theorem Reader.Inv.entries (s : Reader) (i : Ports) (h : s.Inv) :
    s.pending ++ acceptedAt s i = s.fetched ++ (s.edge true i).pending := by
  have hitab := Itab.Inv.conserved s.itab (s.itabPorts i) h.fed.itab
  rw [h.readAt_eq] at hitab
  rw [Reader.pending, acceptedAt, List.append_assoc, hitab]
  rfl

/-- A beat is shown right after the edge at which it is handed over. -/
theorem Reader.Inv.beats (s : Reader) (i : Ports) (h : s.Inv) :
    s.shown ++ handedAt s i = s.shown ++ (s.edge true i).shown := by
  obtain ⟨hfed, p, hp⟩ := h
  have hstart : s.rnext i = true → s.master.startSingleBurstRead = false := by
    intro hnext
    have hready : s.master.rready = true := (Bool.and_eq_true_iff.mp hnext).2
    cases p with
    | idle => exact hp.1.start
    | request => exact hp.1.start
    | waiting => exact hp.1.start
    | fetched => exact hp.1.start
    | begins k => exact hp.1.start
    | pulse k => cases hready.symm.trans hp.2.2.2.2.2.1
    | address k => exact hp.2.2.1
    | data k => exact hp.2.2.1
    | check k => exact hp.1.start
  cases hnext : s.rnext i with
  | true =>
      obtain ⟨hvalid, hready⟩ := Bool.and_eq_true_iff.mp hnext
      simp [handedAt, Reader.shown, hnext, Reader.edge, Master.edge, rdataProcess, hstart hnext, Reader.masterPorts,
        hvalid, hready]
  | false =>
      have hno : ¬ ((s.masterPorts i).rvalid = true ∧ s.master.rready = true) := by
        simpa [Reader.rnext, Reader.masterPorts] using hnext
      simp [handedAt, Reader.shown, hnext, Reader.edge, Master.edge, rdataProcess, hno]

/-- A burst is asked for only when the last beat of the burst before it was handed over. -/
theorem Reader.Inv.alone (h : s.Inv) (hvalid : s.master.arvalid = true) : s.owed = 0 := by
  obtain ⟨hfed, p, hp⟩ := h
  obtain ⟨k, rfl⟩ := hp.arvalid_iff.mp hvalid
  exact hp.2.2.2.2.2.2.2

/-- How far a check after a burst is from its end. -/
def DmaState.checks : DmaState → ℕ
  | .rdbuffFullChk1 => 7
  | .rdbuffFullChk2 => 6
  | .rdbuffFullChk3 => 5
  | .rdbuffFullChk4 => 4
  | .rdbuffFull => 3
  | _ => 0

def Phase.stage (s : Reader) : Phase → ℕ
  | .idle => 3
  | .request | .begins _ => 2
  | .waiting | .pulse _ => 1
  | .fetched | .address _ => 0
  | .data _ => 7 + s.owed + if s.master.rready then 0 else 1
  | .check _ => s.master.state.checks

def Reader.stage (s : Reader) : ℕ := s.phase.stage s

theorem Reader.At.stage_eq (h : s.At p) : s.stage = p.stage s := by
  rw [Reader.stage, h.phase_eq]

theorem Reader.At.check_stage (h : s.At (.check k)) : 3 ≤ s.stage ∧ s.stage ≤ 7 := by
  rw [h.stage_eq]
  rcases h.2.2 with hs | hs | hs | hs | hs <;> simp [Phase.stage, hs, DmaState.checks]

/-- The slave is ready for an address and has data, and the read buffer has room. -/
def Ports.eager (i : Ports) : Bool := i.arready && i.rvalid && !i.rdbuffFull

theorem Reader.At.data_stage (h : s.At (.data k)) (i : Ports) :
    (s.edge true i).stage ≤ s.stage ∧ (i.rvalid = true → (s.edge true i).stage < s.stage) := by
  obtain ⟨-, -, -, harvalid, -, hpos, hle⟩ := id h
  have hbeats : s.beats i = s.owed := by simp [Reader.beats, Reader.accepts, harvalid]
  have hvalid : s.rvalid i = i.rvalid := by simp [Reader.rvalid, hbeats, hpos]
  rcases (h.data_edge i).1 with hnext | hnext
  · rw [h.stage_eq, hnext.stage_eq]
    have hpos' : 0 < (s.edge true i).owed := hnext.2.2.2.2.2.1
    have howed : (s.edge true i).owed = s.owed - if s.rnext i then 1 else 0 := by rw [← hbeats]; rfl
    have hready : (s.edge true i).master.rready =
        if i.rvalid then !(decide (s.owed % 16 = 1) && s.master.rready) else s.master.rready := by
      simp [Reader.edge, Master.edge, rreadyProcess, Reader.masterPorts, hvalid, Reader.rlast, hbeats]
    simp only [Phase.stage, howed, hready, Reader.rnext, hvalid] at hpos' ⊢
    cases hr : s.master.rready with
    | false => cases hv : i.rvalid <;> simp
    | true =>
        cases hv : i.rvalid with
        | false => simp
        | true =>
            simp [hr, hv] at hpos' ⊢
            have hmod : s.owed % 16 ≠ 1 := by omega
            simp [hmod]
            omega
  · rw [h.stage_eq]
    have hcheck := hnext.check_stage
    simp only [Phase.stage]
    omega

theorem rdbuffCheck_checks (m : Dma) (j : MasterPorts) :
    (rdbuffCheck m j).state.checks = if j.rdbuffFull then 3 else 0 := by
  unfold rdbuffCheck
  split
  · rfl
  · split <;> rfl

theorem Reader.At.checks_stage (h : s.At (.check k)) (i : Ports) (hnext : (s.edge true i).At (.check k)) :
    (s.edge true i).stage ≤ s.stage ∧ (i.rdbuffFull = false → (s.edge true i).stage < s.stage) := by
  rw [h.stage_eq, hnext.stage_eq]
  change (dmaProcess true s.master (s.masterPorts i)).state.checks ≤ s.master.state.checks ∧
    (i.rdbuffFull = false → (dmaProcess true s.master (s.masterPorts i)).state.checks < s.master.state.checks)
  have hfull : (rdbuffCheck s.master.toDma (s.masterPorts i)).state.checks = if i.rdbuffFull then 3 else 0 :=
    rdbuffCheck_checks _ _
  rcases h.2.2 with hs | hs | hs | hs | hs
  · simp [dmaProcess, hs, DmaState.checks]
  · simp [dmaProcess, hs, DmaState.checks]
  · simp [dmaProcess, hs, DmaState.checks]
  · have hproc : dmaProcess true s.master (s.masterPorts i) = rdbuffCheck s.master.toDma (s.masterPorts i) := by
      simp [dmaProcess, hs]
    rw [hproc, hfull, hs]
    cases i.rdbuffFull <;> simp [DmaState.checks]
  · have hproc : dmaProcess true s.master (s.masterPorts i) = rdbuffCheck s.master.toDma (s.masterPorts i) := by
      simp [dmaProcess, hs]
    rw [hproc, hfull, hs]
    cases i.rdbuffFull <;> simp [DmaState.checks]

/-- The master waits for an entry and the table has none. -/
def Reader.Done (s : Reader) : Prop := s.At .waiting ∧ s.itab.inCount = s.itab.outCount

theorem Reader.Inv.stage_edge (h : s.Inv) (i : Ports) :
    (s.edge true i).stage ≤ s.stage + 3 * s.fetched.length + 25 * (issuedAt s i).length ∧
      (i.eager = true → ¬ s.Done →
        (s.edge true i).stage < s.stage + 3 * s.fetched.length + 25 * (issuedAt s i).length) := by
  obtain ⟨hfed, p, hp⟩ := h
  have hstage := hp.stage_eq
  have hfalls (hlt : (s.edge true i).stage < s.stage + 3 * s.fetched.length + 25 * (issuedAt s i).length) :
      (s.edge true i).stage ≤ s.stage + 3 * s.fetched.length + 25 * (issuedAt s i).length ∧
        (i.eager = true → ¬ s.Done →
          (s.edge true i).stage < s.stage + 3 * s.fetched.length + 25 * (issuedAt s i).length) :=
    ⟨hlt.le, fun _ _ => hlt⟩
  cases p with
  | idle =>
      apply hfalls
      rw [(hp.idle_edge i).stage_eq, hstage]
      simp only [Phase.stage]
      omega
  | request =>
      apply hfalls
      rw [(hp.request_edge i).stage_eq, hstage]
      simp only [Phase.stage]
      omega
  | waiting =>
      have hnext := hp.waiting_edge hfed i
      split at hnext
      next hheld =>
        apply hfalls
        rw [hnext.stage_eq, hstage]
        simp only [Phase.stage]
        omega
      next hheld =>
        rw [hnext.stage_eq, hstage]
        have hle := hfed.itab.out_le
        refine ⟨?_, fun _ hdone => absurd ⟨hp, by omega⟩ hdone⟩
        simp only [Phase.stage]
        omega
  | fetched =>
      apply hfalls
      rw [(hp.fetched_edge i).1.stage_eq, hstage, Reader.fetched, if_pos (hp.fetched_iff.mpr rfl)]
      simp only [Phase.stage, List.length_singleton]
      omega
  | begins k =>
      apply hfalls
      rw [(hp.begins_edge i).1.stage_eq, hstage]
      simp only [Phase.stage]
      omega
  | pulse k =>
      apply hfalls
      rw [(hp.pulse_edge i).1.stage_eq, hstage]
      simp only [Phase.stage]
      omega
  | address k =>
      have hnext := (hp.address_edge i).1
      have harvalid := hp.2.2.2.1
      cases hready : i.arready with
      | true =>
          rw [hready, if_pos rfl] at hnext
          apply hfalls
          have hle : (s.edge true i).owed ≤ 16 := hnext.2.2.2.2.2.2
          rw [hnext.stage_eq, issuedAt, Reader.accepts, harvalid, hready]
          simp only [Phase.stage, Bool.and_self, if_true, List.length_singleton]
          split <;> omega
      | false =>
          rw [hready, if_neg (by simp)] at hnext
          rw [hnext.stage_eq]
          exact ⟨Nat.zero_le _, fun heager => by simp [Ports.eager, hready] at heager⟩
  | data k =>
      have hdata := hp.data_stage i
      exact ⟨by omega, fun heager _ => by
        have hlt := hdata.2 (by simp_all [Ports.eager])
        omega⟩
  | check k =>
      have hchecks := hp.check_stage
      rcases hp.check_edge i with ⟨hnext, -⟩ | ⟨hnext, -⟩ | ⟨hnext, -⟩
      · have hcheck := hp.checks_stage i hnext
        exact ⟨by omega, fun heager _ => by
          have hlt := hcheck.2 (by simp_all [Ports.eager])
          omega⟩
      · apply hfalls
        rw [hnext.stage_eq]
        simp only [Phase.stage]
        omega
      · apply hfalls
        rw [hnext.stage_eq]
        simp only [Phase.stage]
        omega

theorem Reader.Inv.done_edge (h : s.Inv) (hquiet : i.offer = false) (hdone : s.Done) : (s.edge true i).Done := by
  obtain ⟨hp, hnone⟩ := hdone
  have hnext := hp.waiting_edge h.fed i
  have hin := Itab.edge_inCount s.itab (s.itabPorts i)
  have hout := Itab.edge_outCount s.itab (s.itabPorts i)
  rw [if_neg (by omega)] at hnext
  rw [if_neg (by simp [Reader.itabPorts, Reader.offers, hquiet])] at hin
  rw [if_neg (by omega)] at hout
  refine ⟨hnext, ?_⟩
  change (Itab.edge true s.itab (s.itabPorts i)).inCount = (Itab.edge true s.itab (s.itabPorts i)).outCount
  omega

/-- What the master has still to do. -/
def Reader.cost (s : Reader) : ℕ :=
  s.stage + 25 * (s.remaining ++ s.pending.flatMap Entry.bursts).length + 3 * s.pending.length

theorem Reader.Inv.cost_eq (h : s.Inv) (hquiet : i.offer = false) :
    s.cost + (s.edge true i).stage =
      (s.edge true i).cost + (s.stage + 3 * s.fetched.length + 25 * (issuedAt s i).length) := by
  have hnone : acceptedAt s i = [] := by simp [acceptedAt, Itab.acceptedAt, Reader.itabPorts, Reader.offers, hquiet]
  have hentries := Reader.Inv.entries s i h
  have hbursts := congrArg List.length (Reader.Inv.bursts s i h)
  rw [hnone, List.append_nil] at hentries
  simp only [Reader.cost, hentries, List.flatMap_append, List.length_append] at hbursts ⊢
  omega

/-- Nothing is left when the master waits at an empty table. -/
theorem Reader.Done.rest (h : s.Done) : s.pending = [] ∧ s.remaining = [] ∧ s.owed = 0 := by
  obtain ⟨hp, hnone⟩ := h
  refine ⟨?_, hp.remaining_eq, hp.1.owed⟩
  rw [Reader.pending, hp.fetched_eq_nil (by simp), Itab.contents, hnone, Nat.sub_self]
  rfl

/-- However long the slave and the read buffer take, the entries are all read once they were ready often enough. -/
theorem Reader.Inv.served (h : s.Inv) {is : List Ports} (hquiet : ∀ i ∈ is, i.offer = false)
    (hcost : s.cost < is.countP Ports.eager) : (run (Reader.edge true) s is).Done := by
  apply run_done Reader.cost (fun s i h => h.edge i) (fun s i h hi => h.done_edge hi) ?_ ?_ h hquiet hcost
  · intro s i h hi
    have hcost := h.cost_eq hi
    have hstage := (h.stage_edge i).1
    omega
  · intro s i h hi heager hdone
    have hcost := h.cost_eq hi
    have hstage := (h.stage_edge i).2 heager hdone
    omega

theorem owed_edge (s : Reader) (i : Ports) :
    s.owed + 16 * (issuedAt s i).length = (handedAt s i).length + (s.edge true i).owed := by
  have hbeats : s.owed + 16 * (issuedAt s i).length = s.beats i := by
    unfold issuedAt Reader.beats
    split <;> rfl
  have howed : (s.edge true i).owed = s.beats i - if s.rnext i then 1 else 0 := rfl
  rw [hbeats, howed, handedAt]
  split
  next hnext =>
    have hpos : 0 < s.beats i := by simp_all [Reader.rnext, Reader.rvalid]
    rw [List.length_singleton]
    omega
  next => simp

end Edge

section Stream

/-- The reader while `STREAM_START` is 0. -/
structure Stopped (s : Reader) : Prop where
  fed : Fed s
  at_idle : s.At .idle
  valid : s.master.rdataValid = false

variable {s : Reader}

theorem Stopped.inv (h : Stopped s) : s.Inv := ⟨h.fed, _, h.at_idle⟩

theorem Stopped.edge (h : Stopped s) (i : Ports) : Stopped (s.edge false i) := by
  refine ⟨h.fed.edge false i, ⟨⟨rfl, rfl, rfl, rfl, ?_⟩, rfl, rfl⟩, rfl⟩
  simp [Reader.edge, Reader.beats, Reader.accepts, h.at_idle.1.arvalid, h.at_idle.1.owed]

theorem Stopped.pending_edge (h : Stopped s) (i : Ports) :
    (s.edge false i).pending = s.pending ++ acceptedAt s i := by
  have hitab := Itab.Inv.conserved s.itab (s.itabPorts i) h.fed.itab
  have hread : Itab.readAt s.itab (s.itabPorts i) = [] := by
    simp [Itab.readAt, Reader.itabPorts, h.at_idle.2.2]
  rw [hread] at hitab
  rw [Reader.pending, Reader.pending, h.at_idle.fetched_eq_nil (by simp),
    (h.edge i).at_idle.fetched_eq_nil (by simp)]
  exact hitab.symm

/-- The master after a clock with `STREAM_START` 0, the table after one with `ITAB_G_START` 0. -/
def reset (m : Master) (i : MasterPorts) (t : Itab.State) (j : Itab.Ports) : Reader :=
  ⟨m.edge false i, Itab.edge false t j, 0, false⟩

theorem stopped_reset (m : Master) (i : MasterPorts) (t : Itab.State) (j : Itab.Ports) : Stopped (reset m i t j) :=
  ⟨⟨Itab.inv_reset t j, fun _ => le_rfl⟩, ⟨⟨rfl, rfl, rfl, rfl, rfl⟩, rfl, rfl⟩, rfl⟩

/-- The entry that the master takes over from the table at an edge. -/
def takenAt (s : Reader) (_ : Ports) : List Entry := s.fetched

/-- What a run from `s` on does with the entries that were accepted before it, and with those accepted in it. -/
structure FollowsItab (s : Reader) (before : List Entry) (is : List Ports) : Prop where
  taken : before ++ trace (Reader.edge true) acceptedAt s is =
    trace (Reader.edge true) takenAt s is ++ (run (Reader.edge true) s is).pending
  bursts : (trace (Reader.edge true) takenAt s is).flatMap Entry.bursts =
    trace (Reader.edge true) issuedAt s is ++ (run (Reader.edge true) s is).remaining
  owed : 16 * (trace (Reader.edge true) issuedAt s is).length =
    (trace (Reader.edge true) handedAt s is).length + (run (Reader.edge true) s is).owed
  alone : (run (Reader.edge true) s is).master.arvalid = true → (run (Reader.edge true) s is).owed = 0
  beats : trace (Reader.edge true) handedAt s is =
    trace (Reader.edge true) (fun s _ => s.shown) s is ++ (run (Reader.edge true) s is).shown
  served : ∀ js : List Ports, (∀ j ∈ js, j.offer = false) →
    (run (Reader.edge true) s is).cost < js.countP Ports.eager →
      (run (Reader.edge true) s (is ++ js)).pending = [] ∧ (run (Reader.edge true) s (is ++ js)).remaining = [] ∧
        (run (Reader.edge true) s (is ++ js)).owed = 0

theorem Stopped.feed (h : Stopped s) (is : List Ports) :
    Stopped (run (Reader.edge false) s is) ∧
      s.pending ++ trace (Reader.edge false) acceptedAt s is = (run (Reader.edge false) s is).pending := by
  induction is generalizing s with
  | nil => exact ⟨h, List.append_nil _⟩
  | cons i is ih =>
      obtain ⟨hstopped, hpending⟩ := ih (h.edge i)
      refine ⟨hstopped, ?_⟩
      rw [trace_cons, ← List.append_assoc, ← h.pending_edge i, hpending, run_cons]

theorem Stopped.follows (h : Stopped s) (is : List Ports) : FollowsItab s s.pending is := by
  have hinv : (run (Reader.edge true) s is).Inv := run_invariant (fun s i h => h.edge i) h.inv is
  have hfetched : s.fetched = [] := h.at_idle.fetched_eq_nil (by simp)
  have hshown : s.shown = [] := by simp [Reader.shown, h.valid]
  constructor
  · exact trace_conserved Reader.pending (fun s i h => h.edge i) Reader.Inv.entries h.inv is
  · have hbursts := trace_conserved Reader.remaining (fun s i h => h.edge i) Reader.Inv.bursts h.inv is
    rw [h.at_idle.remaining_eq] at hbursts
    rw [← trace_flatMap]
    exact hbursts
  · have howed := trace_length (fun s => s.owed) owed_edge s is
    rwa [h.at_idle.1.owed, Nat.zero_add] at howed
  · exact hinv.alone
  · have hbeats := trace_conserved Reader.shown (fun s i h => h.edge i) Reader.Inv.beats h.inv is
    rwa [hshown, List.nil_append] at hbeats
  · intro js hquiet hcost
    rw [run_append]
    exact (hinv.served hquiet hcost).rest

/-- From the reset on, with `STREAM_START` 0 for the first clocks and 1 for the rest. -/
theorem follows_itab (m : Master) (i : MasterPorts) (t : Itab.State) (j : Itab.Ports) (is₀ is : List Ports) :
    FollowsItab (run (Reader.edge false) (reset m i t j) is₀)
      (trace (Reader.edge false) acceptedAt (reset m i t j) is₀) is := by
  obtain ⟨hstopped, hpending⟩ := (stopped_reset m i t j).feed is₀
  have hempty : (reset m i t j).pending = [] := rfl
  rw [hempty, List.nil_append] at hpending
  rw [hpending]
  exact hstopped.follows is

end Stream

end Slos.ReadMaster
