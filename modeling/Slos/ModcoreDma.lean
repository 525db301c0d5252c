import Slos.AxiMemory
import Slos.Machine
import Slos.ModcoreEngine

/-!
# Copying by modcore

`Engine` and `Mdproc` in front of a memory. The engine reads a burst, hands its beats to `Mdproc` as they come, takes
them back inverted and writes them as a burst. `Mdproc` takes sixteen words on sixteen clocks once it has seen the
first, so a burst comes through whole if its beats do not pause. `job` keeps what a transfer started from, and
`addressed` whether the address of the last write burst has been taken.
-/

namespace Slos.Modcore.Dma
open AxiMemory

structure Job where
  src : BitVec 32
  dst : BitVec 32
  len : ℕ
  mem : Mem
  readBursts : ℕ
  writeBursts : ℕ

structure State where
  engine : Engine.State
  mdproc : Mdproc.State
  reader : Reader
  writer : Writer
  addressed : Bool
  job : Job

/-- What the registers give, and the choices of the memory. -/
structure Ports where
  dmaPulse : Bool
  regOutData : BitVec 32
  regOutDataValid : Bool
  arready : Bool
  awready : Bool
  wready : Bool
  serveRead : Bool
  serveWrite : Bool

def State.enginePorts (s : State) (i : Ports) : Engine.Ports where
  resetn := true
  gReset := false
  dmaPulse := i.dmaPulse
  regOutData := i.regOutData
  regOutDataValid := i.regOutDataValid
  mdprocDataOut := s.mdproc.mdprocDataOut
  mdprocDataOutValid := s.mdproc.mdprocDataOutValid
  arready := i.arready
  rdata := s.reader.rdata
  rlast := s.reader.rlast
  rvalid := s.reader.rvalid
  awready := i.awready
  wready := i.wready
  bvalid := s.writer.bvalid

def State.readPorts (s : State) (i : Ports) : Reader.Ports :=
  ⟨s.engine.arvalid, s.engine.araddr, i.arready, s.engine.rready, i.serveRead⟩

def State.writePorts (s : State) (i : Ports) : Writer.Ports :=
  ⟨s.engine.awvalid, s.engine.awaddr, i.awready, s.engine.wvalid, s.engine.wdata, s.engine.wstrb, i.wready,
    s.engine.bready, i.serveWrite⟩

/-- The engine takes the last of its registers. -/
def State.Starts (s : State) (i : Ports) : Prop := s.engine.curState = .prep3 ∧ i.regOutDataValid = true

instance (s : State) (i : Ports) : Decidable (s.Starts i) := inferInstanceAs (Decidable (_ ∧ _))

def State.newJob (s : State) (i : Ports) : Job :=
  ⟨s.engine.araddr, i.regOutData, s.engine.remainlen.toNat, s.writer.mem, s.reader.bursts, s.writer.bursts⟩

variable (A : Addressing)

def edge (s : State) (i : Ports) : State where
  engine := Engine.edge s.engine (s.enginePorts i)
  mdproc := Mdproc.edge s.mdproc false s.engine.mdprocDataIn s.engine.mdprocDataInValid s.engine.mdprocDataOutReq
  reader := s.reader.edge A s.writer.mem (s.readPorts i)
  writer := s.writer.edge A (s.writePorts i)
  addressed :=
    if s.engine.curState = .write1 then false else if (s.writePorts i).TakesAddr then true else s.addressed
  job := if s.Starts i then s.newJob i else s.job

def step (s : State) (i : Ports) : Option State := some (edge A s i)

/-- Whole bursts, apart from each other. -/
structure Job.Bursts (j : Job) : Prop where
  pos : 0 < j.len
  bursts : 64 ∣ j.len
  disjoint : ∀ m < j.len, ∀ n < j.len, j.src + BitVec.ofNat 32 m ≠ j.dst + BitVec.ofNat 32 n

/-- Word addresses, and no burst that leaves its 4 KB block. -/
structure Job.Aligned (j : Job) : Prop where
  src : j.src.toNat % 4 = 0
  dst : j.dst.toNat % 4 = 0
  inside : ∀ b, 64 * b < j.len → Inside (j.src + BitVec.ofNat 32 (64 * b)) ∧ Inside (j.dst + BitVec.ofNat 32 (64 * b))

/-- The memory of a job after `b` of its bursts. -/
def Job.copied (j : Job) (b : ℕ) : Mem := fun x =>
  if (x - j.dst).toNat < 64 * b then 255 - j.mem (j.src + (x - j.dst)) else j.mem x

/-- Everything is copied, in as many bursts each way as it takes. -/
structure Done (s : State) : Prop where
  mem : ∀ x, s.writer.mem x = if (x - s.job.dst).toNat < s.job.len then
    255 - s.job.mem (s.job.src + (x - s.job.dst)) else s.job.mem x
  reads : s.reader.bursts = s.job.readBursts + s.job.len / 64
  writes : s.writer.bursts = s.job.writeBursts + s.job.len / 64

section Data

variable {A} {j : Job} {b n : ℕ}

def Job.word (j : Job) (b n : ℕ) : BitVec 32 := readWord j.mem (j.src + BitVec.ofNat 32 (64 * b + 4 * n))

/-- The first `m` beats of the write burst. -/
def Job.outBeats (j : Job) (b m : ℕ) : List (BitVec 32 × BitVec 4) :=
  (List.range' 0 m).map fun n => (Mdproc.inverted (j.word b n), 0b1111#4)

theorem lane_inverted (w : BitVec 32) {l : ℕ} (hl : l < 4) : lane (Mdproc.inverted w) l = 255 - lane w l := by
  rw [Mdproc.inverted, lane_append _ _ _ _ hl]
  obtain rfl | rfl | rfl | rfl : l = 0 ∨ l = 1 ∨ l = 2 ∨ l = 3 := by omega
  all_goals rfl

theorem Job.outBeats_succ (j : Job) (b m : ℕ) :
    j.outBeats b (m + 1) = j.outBeats b m ++ [(Mdproc.inverted (j.word b m), 0b1111#4)] := by
  simp [Job.outBeats, List.range'_concat]

@[simp] theorem Job.outBeats_length (j : Job) (b m : ℕ) : (j.outBeats b m).length = m := by
  simp [Job.outBeats]

theorem beatAddr_burst {a : BitVec 32} (ha : a.toNat % 4 = 0) (hinside : Inside (a + BitVec.ofNat 32 (64 * b)))
    (hn : n < 16) : A.beatAddr (a + BitVec.ofNat 32 (64 * b)) n = a + BitVec.ofNat 32 (64 * b + 4 * n) := by
  have hword : (a + BitVec.ofNat 32 (64 * b)).toNat % 4 = 0 := by
    rw [BitVec.toNat_add, BitVec.toNat_ofNat]
    omega
  rw [A.incr _ _ hinside hn, aligned_eq_self hword, BitVec.add_assoc, ← BitVec.ofNat_add]

theorem Job.Bursts.le_half (h : j.Bursts) (hlen : j.len < 4294967296) : j.len ≤ 2147483648 := by
  by_contra hgt
  have hsrc : j.len ≤ (j.src - j.dst).toNat := by
    by_contra hlt
    refine h.disjoint 0 h.pos _ (by omega : (j.src - j.dst).toNat < j.len) ?_
    rw [BitVec.ofNat_toNat, BitVec.setWidth_eq]
    apply BitVec.eq_of_toNat_eq
    simp only [BitVec.toNat_add, BitVec.toNat_sub, BitVec.toNat_ofNat]
    omega
  have hdst : j.len ≤ (j.dst - j.src).toNat := by
    by_contra hlt
    refine h.disjoint (j.dst - j.src).toNat (by omega) 0 h.pos ?_
    rw [BitVec.ofNat_toNat, BitVec.setWidth_eq]
    apply BitVec.eq_of_toNat_eq
    simp only [BitVec.toNat_add, BitVec.toNat_sub, BitVec.toNat_ofNat]
    omega
  rw [BitVec.toNat_sub] at hsrc hdst
  omega

/-- What has been written is not read. -/
theorem Job.Bursts.copied_src (h : j.Bursts) {m : ℕ} (hm : m < j.len) (hb : 64 * b ≤ j.len) :
    j.copied b (j.src + BitVec.ofNat 32 m) = j.mem (j.src + BitVec.ofNat 32 m) := by
  rw [Job.copied, if_neg]
  intro hlt
  refine h.disjoint m hm _ (Nat.lt_of_lt_of_le hlt hb) ?_
  rw [BitVec.ofNat_toNat, BitVec.setWidth_eq]
  apply BitVec.eq_of_toNat_eq
  simp only [BitVec.toNat_add, BitVec.toNat_sub, BitVec.toNat_ofNat]
  omega

theorem Job.Bursts.full (h : j.Bursts) (hb : 64 * b < j.len) : 64 * (b + 1) ≤ j.len := by
  obtain ⟨k, hk⟩ := h.bursts
  omega

theorem Job.Bursts.readWord_copied (h : j.Bursts) (ha : j.Aligned) (hb : 64 * b < j.len) (hn : n < 16) :
    readWord (j.copied b) (A.beatAddr (j.src + BitVec.ofNat 32 (64 * b)) n) = j.word b n := by
  have hfull := h.full hb
  rw [beatAddr_burst ha.src (ha.inside b hb).1 hn, Job.word]
  apply readWord_congr
  intro l hl
  rw [BitVec.add_assoc, ← BitVec.ofNat_add]
  exact h.copied_src (by omega) (by omega)

/-- The write burst continues the copy. -/
theorem Job.Bursts.writeBeats_copied (h : j.Bursts) (ha : j.Aligned) (hlen : j.len < 4294967296) (hb : 64 * b < j.len) :
    writeBeats (j.copied b) (A.beatAddr (j.dst + BitVec.ofNat 32 (64 * b))) 0 (j.outBeats b 16) = j.copied (b + 1) := by
  have haddr : ∀ k < 16, A.beatAddr (j.dst + BitVec.ofNat 32 (64 * b)) k =
      j.dst + BitVec.ofNat 32 (64 * b) + BitVec.ofNat 32 (4 * k) := by
    intro k hk
    rw [beatAddr_burst ha.dst (ha.inside b hb).2 hk, BitVec.add_assoc, ← BitVec.ofNat_add]
  have hfull := h.full hb
  funext x
  rw [Job.outBeats, writeBeats_range' _ haddr (by decide : 0 + 16 ≤ 16)]
  have hlt : (x - j.dst).toNat < 4294967296 := (x - j.dst).isLt
  have hoff := sub_offset x j.dst (k := 64 * b) (by omega)
  by_cases hhere : 64 * b ≤ (x - j.dst).toNat ∧ (x - j.dst).toNat < 64 * b + 64
  · have ho : (x - (j.dst + BitVec.ofNat 32 (64 * b))).toNat = (x - j.dst).toNat - 64 * b := by omega
    rw [ho, if_pos (by omega), lane_inverted _ (Nat.mod_lt _ (by decide)), Job.word,
      lane_readWord _ _ (Nat.mod_lt _ (by decide)), Job.copied, if_pos (by omega), BitVec.add_assoc, ← BitVec.ofNat_add]
    congr 3
    apply BitVec.eq_of_toNat_eq
    rw [BitVec.toNat_ofNat]
    omega
  · rw [if_neg (by omega), Job.copied, Job.copied]
    by_cases hbefore : (x - j.dst).toNat < 64 * b
    · rw [if_pos hbefore, if_pos (by omega)]
    · rw [if_neg hbefore, if_neg (by omega)]

end Data

/-! ### The three sides at rest -/

structure ReadIdle (s : State) : Prop where
  arvalid : s.engine.arvalid = false
  quiet : s.reader.Quiet

structure WriteIdle (s : State) : Prop where
  wvalid : s.engine.wvalid = false
  addressed : s.addressed = true
  addrs : s.writer.addrs = []
  beats : s.writer.beats = []
  answers : s.writer.answers = 0
  taken : s.writer.bvalid = true → s.engine.bready = true

structure ProcIdle (s : State) : Prop where
  dataInValid : s.engine.mdprocDataInValid = false
  dataOutReq : s.engine.mdprocDataOutReq = false
  curState : s.mdproc.curState = .idle
  srcbuffidx : s.mdproc.srcbuffidx = 0
  dataOutValid : s.mdproc.mdprocDataOutValid = false

structure Calm (s : State) : Prop where
  read : ReadIdle s
  write : WriteIdle s
  proc : ProcIdle s

/-- An address is not taken a second time. -/
def AddressOnce (s : State) (i : Ports) : Prop := s.engine.awvalid = true → i.awready = true → s.addressed = false

/-- The beats of a burst do not pause. -/
def NoPause (s : State) : Prop :=
  s.engine.curState = .read2 → 0 < s.engine.srcbuffidx → s.reader.rvalid = true

instance (s : State) (i : Ports) : Decidable (AddressOnce s i) := inferInstanceAs (Decidable (_ → _ → _))

instance (s : State) : Decidable (NoPause s) := inferInstanceAs (Decidable (_ → _ → _))

section Rest

variable {A} {s : State} {i : Ports}

theorem ReadIdle.reader_edge (h : ReadIdle s) : (edge A s i).reader = s.reader := by
  apply h.quiet.edge
  rintro ⟨hvalid, -⟩
  exact absurd (h.arvalid.symm.trans hvalid) (by decide)

theorem ReadIdle.keeps (h : ReadIdle s) (harvalid : (edge A s i).engine.arvalid = false) : ReadIdle (edge A s i) := by
  refine ⟨harvalid, ?_⟩
  rw [h.reader_edge]
  exact h.quiet

theorem WriteIdle.not_takesAddr (h : WriteIdle s) (honce : AddressOnce s i) : ¬ (s.writePorts i).TakesAddr := by
  rintro ⟨hvalid, hready⟩
  exact absurd (h.addressed.symm.trans (honce hvalid hready)) (by decide)

theorem WriteIdle.writer_edge (h : WriteIdle s) (honce : AddressOnce s i) :
    (edge A s i).writer = { s.writer with bvalid := false } := by
  have haddr := h.not_takesAddr honce
  have hdata : ¬ (s.writePorts i).TakesData := by
    rintro ⟨hvalid, -⟩
    exact absurd (h.wvalid.symm.trans hvalid) (by decide)
  have haccept : s.writer.accept (s.writePorts i) = { s.writer with bvalid := false } := by
    simp only [Writer.accept, if_neg haddr, if_neg hdata]
    congr 1
    cases hvalid : s.writer.bvalid with
    | false => rfl
    | true => simp [State.writePorts, h.taken hvalid]
  rw [edge, Writer.edge_eq_accept h.answers (by rw [haccept]; exact Or.inl h.addrs), haccept]

theorem WriteIdle.keeps (h : WriteIdle s) (honce : AddressOnce s i) (hphase : s.engine.curState ≠ .write1)
    (hwvalid : (edge A s i).engine.wvalid = false) : WriteIdle (edge A s i) := by
  constructor
  · exact hwvalid
  · rw [edge, if_neg hphase, if_neg (h.not_takesAddr honce), h.addressed]
  all_goals rw [h.writer_edge honce]
  · exact h.addrs
  · exact h.beats
  · exact h.answers
  · exact nofun

theorem ProcIdle.mdproc_edge (h : ProcIdle s) : (edge A s i).mdproc = s.mdproc := by
  have hedge : (edge A s i).mdproc = { s.mdproc with mdprocDataOutValid := false, srcbuffidx := 0 } := by
    simp [edge, Mdproc.edge, h.curState, h.dataInValid, h.dataOutReq]
  rw [hedge, ← h.dataOutValid, ← h.srcbuffidx]

theorem ProcIdle.keeps (h : ProcIdle s) (hin : (edge A s i).engine.mdprocDataInValid = false)
    (hreq : (edge A s i).engine.mdprocDataOutReq = false) : ProcIdle (edge A s i) := by
  refine ⟨hin, hreq, ?_, ?_, ?_⟩
  all_goals rw [h.mdproc_edge]
  · exact h.curState
  · exact h.srcbuffidx
  · exact h.dataOutValid

end Rest

/-! ### The phases of a burst -/

/-- The engine is at burst `b` of its job. -/
structure InBurst (s : State) (b : ℕ) : Prop where
  bursts : s.job.Bursts
  aligned : s.job.Aligned
  fits : s.job.len < 4294967296
  lt : 64 * b < s.job.len
  araddr : s.engine.araddr = s.job.src + BitVec.ofNat 32 (64 * b)
  awaddr : s.engine.awaddr = s.job.dst + BitVec.ofNat 32 (64 * b)

/-- `b` bursts are left out of what remains. -/
def Remains (s : State) (b : ℕ) : Prop := s.engine.remainlen = BitVec.ofNat 32 (s.job.len - 64 * b)

/-- `b` bursts are written and `c` are read. -/
structure Stored (s : State) (b c : ℕ) : Prop where
  mem : s.writer.mem = s.job.copied b
  reads : s.reader.bursts = s.job.readBursts + c
  writes : s.writer.bursts = s.job.writeBursts + b

/-- `n` beats of the burst have come in, of which `Mdproc` has all but the last. -/
structure Capture (s : State) (b n : ℕ) : Prop where
  dataOutReq : s.engine.mdprocDataOutReq = false
  dataOutValid : s.mdproc.mdprocDataOutValid = false
  dataInValid : s.engine.mdprocDataInValid = decide (0 < n)
  dataIn : 0 < n → s.engine.mdprocDataIn = s.job.word b (n - 1)
  curState : s.mdproc.curState = if n ≤ 1 then .idle else .dataIn1
  srcbuffidx : s.mdproc.srcbuffidx = n - 1
  srcbuff : ∀ m < n - 1, s.mdproc.srcbuff m = s.job.word b m

/-- The address of the read burst is shown, or the burst is being served. -/
inductive Reading (s : State) (b : ℕ) : Prop
  | asking (arvalid : s.engine.arvalid = true) (quiet : s.reader.Quiet) (first : s.engine.srcbuffidx = 0)
      (stored : Stored s b b)
  | serving (arvalid : s.engine.arvalid = false) (more : s.engine.srcbuffidx < 16)
      (beats : s.reader.Serving A s.writer.mem s.engine.araddr s.engine.srcbuffidx) (stored : Stored s b (b + 1))

/-- `Mdproc` holds the whole burst. -/
def Held (s : State) (b : ℕ) : Prop := ∀ m < 16, s.mdproc.srcbuff m = s.job.word b m

/-- The first `n` words of the burst are back, inverted. -/
def Turned (s : State) (b n : ℕ) : Prop := ∀ m < n, s.engine.tgtbuff m = Mdproc.inverted (s.job.word b m)

/-- `Mdproc` gives the burst back, `n` words of it already. -/
structure Giving (s : State) (b n : ℕ) : Prop where
  dataInValid : s.engine.mdprocDataInValid = false
  dataOutReq : s.engine.mdprocDataOutReq = true
  held : Held s b
  curState : s.mdproc.curState = .dataOut1
  srcbuffidx : s.mdproc.srcbuffidx = n
  dataOutValid : s.mdproc.mdprocDataOutValid = decide (0 < n)
  dataOut : 0 < n → s.mdproc.mdprocDataOut = Mdproc.inverted (s.job.word b (n - 1))

/-- The memory has taken `n` beats of the write burst, and its address if `addressed`. -/
structure Collected (s : State) (b n : ℕ) : Prop where
  mem : s.writer.mem = s.job.copied b
  reads : s.reader.bursts = s.job.readBursts + (b + 1)
  writes : s.writer.bursts = s.job.writeBursts + if s.addressed = true then b + 1 else b
  addrs : s.writer.addrs = if s.addressed = true then [s.engine.awaddr] else []
  beats : s.writer.beats = s.job.outBeats b n
  answers : s.writer.answers = 0
  bvalid : s.writer.bvalid = false

/-- Beat `n` of the write burst is shown. -/
structure Showing (s : State) (b n : ℕ) : Prop where
  wvalid : s.engine.wvalid = true
  wstrb : s.engine.wstrb = 0b1111
  wdata : s.engine.wdata = Mdproc.inverted (s.job.word b n)

/-- The write burst is in memory and its answer is awaited. -/
structure Committed (s : State) (b : ℕ) : Prop where
  answering : s.writer.Answering
  wvalid : s.engine.wvalid = false
  addressed : s.addressed = true
  stored : Stored s (b + 1) (b + 1)

inductive Closing (s : State) (b : ℕ) : Prop
  | last (showing : Showing s b 15) (collected : Collected s b 15)
  | missing (n : ℕ) (wvalid : s.engine.wvalid = false) (collected : Collected s b n)
      (lacks : n < 16 ∨ s.addressed = false) (le : n ≤ 16)
  | committed (h : Committed s b)

def Inv (s : State) : Prop :=
  match s.engine.curState with
  | .idle => Calm s ∧ (s.engine.dmaIntr = true → Done s)
  | .prep1 => Calm s
  | .prep2 => Calm s
  | .prep3 => Calm s
  | .read1 => Calm s ∧ ∃ b, InBurst s b ∧ Remains s b ∧ Stored s b b
  | .read2 => WriteIdle s ∧ s.engine.rready = true ∧
      ∃ b, InBurst s b ∧ Remains s b ∧ Reading A s b ∧ Capture s b s.engine.srcbuffidx
  | .read3 => ReadIdle s ∧ WriteIdle s ∧ ∃ b, InBurst s b ∧ Remains s b ∧ Stored s b (b + 1) ∧ Capture s b 16
  | .mdproc1 => ReadIdle s ∧ WriteIdle s ∧ s.engine.tgtbuffidx = 0 ∧ ∃ b, InBurst s b ∧ Remains s b ∧ Stored s b (b + 1) ∧
      (Giving s b 0 ∨ Giving s b 1 ∨ (s.engine.mdprocDataInValid = false ∧ s.engine.mdprocDataOutReq = true ∧ Held s b ∧
        s.mdproc.curState = .idle ∧ s.mdproc.mdprocDataOutValid = false))
  | .mdproc2 => ReadIdle s ∧ WriteIdle s ∧ ∃ b, InBurst s b ∧ Remains s b ∧ Stored s b (b + 1) ∧
      (0 < s.engine.tgtbuffidx ∧ s.engine.tgtbuffidx < 16 ∧ Giving s b (s.engine.tgtbuffidx + 1) ∧
          Turned s b s.engine.tgtbuffidx ∨
        s.engine.tgtbuffidx = 0 ∧ ProcIdle s ∧ Turned s b 16)
  | .write1 => Calm s ∧ s.engine.tgtbuffidx = 0 ∧ ∃ b, InBurst s b ∧ Remains s b ∧ Stored s b (b + 1) ∧ Turned s b 16
  | .write2 => ReadIdle s ∧ ProcIdle s ∧ ∃ b, InBurst s b ∧ Remains s b ∧ Turned s b 16 ∧
      ∃ n < 15, s.engine.tgtbuffidx = n + 1 ∧ Showing s b n ∧ Collected s b n
  | .bresp1 => ReadIdle s ∧ ProcIdle s ∧ ∃ b, InBurst s b ∧ Remains s (b + 1) ∧ Closing s b
  | .intr1 => False

section Frames

variable {A} {s t : State} {i : Ports} {b c n : ℕ}

theorem job_edge (h : s.engine.curState ≠ .prep3) : (edge A s i).job = s.job := if_neg fun hs => h hs.1

theorem InBurst.congr (h : InBurst s b) (hjob : t.job = s.job) (har : t.engine.araddr = s.engine.araddr)
    (haw : t.engine.awaddr = s.engine.awaddr) : InBurst t b := by
  obtain ⟨hbursts, haligned, hfits, hlt, hsrc, hdst⟩ := h
  constructor
  all_goals rw [hjob]
  · exact hbursts
  · exact haligned
  · exact hfits
  · exact hlt
  · rw [har, hsrc]
  · rw [haw, hdst]

theorem Remains.congr (h : Remains s b) (hjob : t.job = s.job) (hlen : t.engine.remainlen = s.engine.remainlen) :
    Remains t b := by
  rw [Remains, hjob, hlen]
  exact h

theorem Stored.congr (h : Stored s b c) (hjob : t.job = s.job) (hmem : t.writer.mem = s.writer.mem)
    (hreads : t.reader.bursts = s.reader.bursts) (hwrites : t.writer.bursts = s.writer.bursts) : Stored t b c := by
  constructor
  all_goals rw [hjob]
  · rw [hmem, h.mem]
  · rw [hreads, h.reads]
  · rw [hwrites, h.writes]

/-- Both sides of the memory are at rest. -/
theorem Stored.keeps (h : Stored s b c) (hjob : s.engine.curState ≠ .prep3) (hread : ReadIdle s) (hwrite : WriteIdle s)
    (honce : AddressOnce s i) : Stored (edge A s i) b c := by
  apply h.congr (job_edge hjob)
  · rw [hwrite.writer_edge honce]
  · rw [hread.reader_edge]
  · rw [hwrite.writer_edge honce]

theorem Calm.keeps (h : Calm s) (honce : AddressOnce s i) (hphase : s.engine.curState ≠ .write1)
    (harvalid : (edge A s i).engine.arvalid = false) (hwvalid : (edge A s i).engine.wvalid = false)
    (hin : (edge A s i).engine.mdprocDataInValid = false) (hreq : (edge A s i).engine.mdprocDataOutReq = false) :
    Calm (edge A s i) :=
  ⟨h.read.keeps harvalid, h.write.keeps honce hphase hwvalid, h.proc.keeps hin hreq⟩

end Frames

section Phases

variable {A} {s : State} {i : Ports}

theorem engine_edge : (edge A s i).engine = match s.engine.curState with
    | .idle => Engine.idle s.engine (s.enginePorts i)
    | .prep1 => Engine.prep1 s.engine (s.enginePorts i)
    | .prep2 => Engine.prep2 s.engine (s.enginePorts i)
    | .prep3 => Engine.prep3 s.engine (s.enginePorts i)
    | .read1 => Engine.read1 s.engine
    | .read2 => Engine.read2 s.engine (s.enginePorts i)
    | .read3 => Engine.read3 s.engine
    | .mdproc1 => Engine.mdproc1 s.engine (s.enginePorts i)
    | .mdproc2 => Engine.mdproc2 s.engine (s.enginePorts i)
    | .write1 => Engine.write1 s.engine
    | .write2 => Engine.write2 s.engine (s.enginePorts i)
    | .bresp1 => Engine.bresp1 s.engine (s.enginePorts i)
    | .intr1 => s.engine := rfl

/-- In a phase that leaves the three sides alone, they stay at rest. -/
theorem calm_edge (h : Calm s) (honce : AddressOnce s i) (hphase : s.engine.curState = .idle ∨
    s.engine.curState = .prep1 ∨ s.engine.curState = .prep2 ∨ s.engine.curState = .prep3) : Calm (edge A s i) := by
  have harvalid := h.read.arvalid
  have hwvalid := h.write.wvalid
  have hin := h.proc.dataInValid
  have hreq := h.proc.dataOutReq
  rcases hphase with hp | hp | hp | hp
  all_goals
    apply h.keeps honce (by simp [hp])
    all_goals
      simp only [engine_edge, hp, Engine.idle, Engine.prep1, Engine.prep2, Engine.prep3]
      split_ifs <;> first | rfl | assumption

theorem idle_inv (hphase : s.engine.curState = .idle) (h : Inv A s) (honce : AddressOnce s i) : Inv A (edge A s i) := by
  simp only [Inv, hphase] at h
  have hcalm : Calm (edge A s i) := calm_edge h.1 honce (Or.inl hphase)
  cases hpulse : i.dmaPulse with
  | true =>
      have hnext : (edge A s i).engine.curState = .prep1 := by
        simp [engine_edge, hphase, Engine.idle, State.enginePorts, hpulse]
      simp only [Inv, hnext]
      exact hcalm
  | false =>
      have hengine : (edge A s i).engine.curState = .idle ∧ (edge A s i).engine.dmaIntr = false := by
        simp [engine_edge, hphase, Engine.idle, State.enginePorts, hpulse]
      simp only [Inv, hengine.1]
      exact ⟨hcalm, fun hintr => absurd (hengine.2.symm.trans hintr) (by decide)⟩

theorem prep1_inv (hphase : s.engine.curState = .prep1) (h : Inv A s) (honce : AddressOnce s i) :
    Inv A (edge A s i) := by
  simp only [Inv, hphase] at h
  have hcalm : Calm (edge A s i) := calm_edge h honce (Or.inr (Or.inl hphase))
  have hnext : (edge A s i).engine.curState = .prep1 ∨ (edge A s i).engine.curState = .prep2 := by
    simp only [engine_edge, hphase, Engine.prep1]
    split_ifs <;> simp
  rcases hnext with hn | hn
  all_goals
    simp only [Inv, hn]
    exact hcalm

theorem prep2_inv (hphase : s.engine.curState = .prep2) (h : Inv A s) (honce : AddressOnce s i) :
    Inv A (edge A s i) := by
  simp only [Inv, hphase] at h
  have hcalm : Calm (edge A s i) := calm_edge h honce (Or.inr (Or.inr (Or.inl hphase)))
  have hnext : (edge A s i).engine.curState = .prep2 ∨ (edge A s i).engine.curState = .prep3 := by
    simp only [engine_edge, hphase, Engine.prep2]
    split_ifs <;> simp
  rcases hnext with hn | hn
  all_goals
    simp only [Inv, hn]
    exact hcalm

/-- A job starts with its first burst. -/
theorem prep3_inv (hphase : s.engine.curState = .prep3) (h : Inv A s) (honce : AddressOnce s i)
    (hjob : s.Starts i → (s.newJob i).Bursts ∧ (s.newJob i).Aligned) : Inv A (edge A s i) := by
  simp only [Inv, hphase] at h
  have hcalm : Calm (edge A s i) := calm_edge h honce (Or.inr (Or.inr (Or.inr hphase)))
  cases hvalid : i.regOutDataValid with
  | false =>
      have hnext : (edge A s i).engine.curState = .prep3 := by
        simp [engine_edge, hphase, Engine.prep3, State.enginePorts, hvalid]
      simp only [Inv, hnext]
      exact hcalm
  | true =>
      have hstarts : s.Starts i := ⟨hphase, hvalid⟩
      have hnew : (edge A s i).job = s.newJob i := if_pos hstarts
      have hengine : (edge A s i).engine =
          { s.engine with awaddr := i.regOutData, regOutAddrValid := false, curState := .read1 } := by
        simp [engine_edge, hphase, Engine.prep3, State.enginePorts, hvalid]
      obtain ⟨hbursts, haligned⟩ := hjob hstarts
      have hnext : (edge A s i).engine.curState = .read1 := by rw [hengine]
      simp only [Inv, hnext]
      refine ⟨hcalm, 0, ?_, ?_, ?_⟩
      · constructor
        all_goals rw [hnew]
        · exact hbursts
        · exact haligned
        · exact s.engine.remainlen.isLt
        · exact hbursts.pos
        · rw [hengine]
          exact (BitVec.add_zero _).symm
        · rw [hengine]
          exact (BitVec.add_zero _).symm
      · rw [Remains, hnew, hengine]
        simp [State.newJob]
      · constructor
        all_goals rw [hnew]
        · rw [h.write.writer_edge honce]
          funext x
          rw [Job.copied, if_neg (by omega)]
          rfl
        · rw [h.read.reader_edge]
          rfl
        · rw [h.write.writer_edge honce]
          rfl

theorem read1_inv (hphase : s.engine.curState = .read1) (h : Inv A s) (honce : AddressOnce s i) :
    Inv A (edge A s i) := by
  simp only [Inv, hphase] at h
  obtain ⟨hcalm, b, hburst, hremains, hstored⟩ := h
  have hjob : (edge A s i).job = s.job := job_edge (by simp [hphase])
  have hengine : (edge A s i).engine = Engine.read1 s.engine := by
    simp only [engine_edge, hphase]
  have hnext : (edge A s i).engine.curState = .read2 := by rw [hengine]; rfl
  have hwrite : WriteIdle (edge A s i) := by
    apply hcalm.write.keeps honce (by simp [hphase])
    rw [hengine]
    exact hcalm.write.wvalid
  simp only [Inv, hnext]
  refine ⟨hwrite, by rw [hengine]; rfl, b, ?_, ?_, ?_, ?_⟩
  · exact hburst.congr hjob (by rw [hengine]; rfl) (by rw [hengine]; rfl)
  · exact hremains.congr hjob (by rw [hengine]; rfl)
  · apply Reading.asking
    · rw [hengine]; rfl
    · rw [hcalm.read.reader_edge]
      exact hcalm.read.quiet
    · rw [hengine]; rfl
    · exact hstored.keeps (by simp [hphase]) hcalm.read hcalm.write honce
  · have hidx : (edge A s i).engine.srcbuffidx = 0 := by rw [hengine]; rfl
    rw [hidx]
    have hproc : ProcIdle (edge A s i) := by
      apply hcalm.proc.keeps
      · rw [hengine]; exact hcalm.proc.dataInValid
      · rw [hengine]; exact hcalm.proc.dataOutReq
    exact ⟨hproc.dataOutReq, hproc.dataOutValid, hproc.dataInValid, nofun, hproc.curState, hproc.srcbuffidx, nofun⟩

theorem mdproc_edge : (edge A s i).mdproc =
    Mdproc.edge s.mdproc false s.engine.mdprocDataIn s.engine.mdprocDataInValid s.engine.mdprocDataOutReq := rfl

/-- Before the first beat `Mdproc` waits. -/
theorem Capture.waits {b : ℕ} (h : Capture s b 0) :
    (edge A s i).mdproc = { s.mdproc with mdprocDataOutValid := false, srcbuffidx := 0 } := by
  rw [mdproc_edge, h.dataOutReq, h.dataInValid]
  exact Mdproc.edge_rest h.curState

/-- Then it takes each beat at the clock of the next. -/
theorem Capture.takes {b n : ℕ} (h : Capture s b n) (hpos : 0 < n) (hn : n < 16) : (edge A s i).mdproc =
    { s.mdproc with srcbuff := Function.update s.mdproc.srcbuff (n - 1) (s.job.word b (n - 1)), srcbuffidx := n,
                    curState := .dataIn1 } := by
  have hcur : s.mdproc.curState = .dataIn1 ∨ s.mdproc.curState = .idle ∧ s.engine.mdprocDataInValid = true := by
    by_cases hfirst : n ≤ 1
    · refine Or.inr ⟨?_, ?_⟩
      · rw [h.curState, if_pos hfirst]
      · rw [h.dataInValid]
        exact decide_eq_true hpos
    · rw [h.curState, if_neg hfirst]
      exact Or.inl rfl
  have hidx := h.srcbuffidx
  rw [mdproc_edge, Mdproc.edge_take hcur (by omega), hidx, h.dataIn hpos, Nat.sub_add_cancel hpos]

theorem Capture.stays {b : ℕ} (h : Capture s b 0) (hreq : (edge A s i).engine.mdprocDataOutReq = false)
    (hin : (edge A s i).engine.mdprocDataInValid = false) : Capture (edge A s i) b 0 := by
  refine ⟨hreq, ?_, hin, nofun, ?_, ?_, nofun⟩
  all_goals rw [h.waits]
  · exact h.curState

theorem Capture.beat {b n : ℕ} (h : Capture s b n) (hn : n < 16) (hjob : (edge A s i).job = s.job)
    (hreq : (edge A s i).engine.mdprocDataOutReq = false) (hin : (edge A s i).engine.mdprocDataInValid = true)
    (hdata : (edge A s i).engine.mdprocDataIn = s.job.word b n) : Capture (edge A s i) b (n + 1) := by
  have hdata' : 0 < n + 1 → (edge A s i).engine.mdprocDataIn = (edge A s i).job.word b (n + 1 - 1) := by
    intro _
    rw [hdata, hjob, Nat.add_sub_cancel]
  rcases Nat.eq_zero_or_pos n with rfl | hpos
  · refine ⟨hreq, ?_, hin, hdata', ?_, ?_, nofun⟩
    all_goals rw [h.waits]
    · exact h.curState
  · refine ⟨hreq, ?_, ?_, hdata', ?_, ?_, ?_⟩
    · rw [h.takes hpos hn]
      exact h.dataOutValid
    · rw [hin]
      rfl
    · rw [h.takes hpos hn, if_neg (by omega)]
    · rw [h.takes hpos hn]
      rfl
    · intro m hm
      rw [h.takes hpos hn, hjob]
      change Function.update s.mdproc.srcbuff (n - 1) (s.job.word b (n - 1)) m = s.job.word b m
      by_cases hlast : m = n - 1
      · rw [hlast, Function.update_self]
      · rw [Function.update_of_ne hlast]
        exact h.srcbuff m (by omega)

/-- A clock of `read2` without a beat. -/
theorem read2_waiting (hphase : s.engine.curState = .read2) (h : Inv A s) (honce : AddressOnce s i)
    (hpause : NoPause s) (hvalid : s.reader.rvalid = false) : Inv A (edge A s i) := by
  simp only [Inv, hphase] at h
  obtain ⟨hwrite, hready, b, hburst, hremains, hreading, hcapture⟩ := h
  have hjob : (edge A s i).job = s.job := job_edge (by simp [hphase])
  have hengine : (edge A s i).engine =
      { s.engine with arvalid := if i.arready = true ∧ s.engine.arvalid = true then false else s.engine.arvalid } := by
    simp [engine_edge, hphase, Engine.read2, State.enginePorts, hvalid]
  have hfirst : s.engine.srcbuffidx = 0 := by
    by_contra hpos
    exact absurd ((hpause hphase (by omega)).symm.trans hvalid) (by decide)
  rw [hfirst] at hcapture
  have hwriter := hwrite.writer_edge (A := A) honce
  have hmem : (edge A s i).writer.mem = s.writer.mem := by rw [hwriter]
  have hnext : (edge A s i).engine.curState = .read2 := by rw [hengine]; exact hphase
  have hidx : (edge A s i).engine.srcbuffidx = 0 := by rw [hengine]; exact hfirst
  simp only [Inv, hnext]
  refine ⟨hwrite.keeps honce (by simp [hphase]) (by rw [hengine]; exact hwrite.wvalid), by rw [hengine]; exact hready,
    b, hburst.congr hjob (by rw [hengine]) (by rw [hengine]), hremains.congr hjob (by rw [hengine]), ?_, ?_⟩
  · cases hreading with
    | asking harvalid hquiet _ hstored =>
        cases haccept : i.arready with
        | true =>
            have htakes : (s.readPorts i).TakesAddr := ⟨harvalid, haccept⟩
            obtain ⟨hserving, hbursts⟩ := hquiet.edge_accept (A := A) (m := s.writer.mem) htakes
            apply Reading.serving
            · rw [hengine]; simp [haccept, harvalid]
            · rw [hidx]; decide
            · rw [hidx, hmem, hengine]
              exact hserving
            · constructor
              all_goals rw [hjob]
              · rw [hmem, hstored.mem]
              · exact hbursts.trans (by rw [hstored.reads]; rfl)
              · rw [hwriter, hstored.writes]
        | false =>
            have htakes : ¬ (s.readPorts i).TakesAddr := fun ht => absurd (haccept.symm.trans ht.2) (by decide)
            have hreader : (edge A s i).reader = s.reader := hquiet.edge htakes
            apply Reading.asking
            · rw [hengine]; simp [haccept, harvalid]
            · rw [hreader]; exact hquiet
            · exact hidx
            · exact hstored.congr hjob hmem (by rw [hreader]) (by rw [hwriter])
    | serving harvalid hmore hserving hstored =>
        have htakes : ¬ (s.readPorts i).TakesAddr := fun ht => absurd (harvalid.symm.trans ht.1) (by decide)
        obtain ⟨hnext', hbursts⟩ := hserving.edge_waiting (i := s.readPorts i) hvalid htakes
        apply Reading.serving
        · rw [hengine]; simp [harvalid]
        · rw [hidx]; decide
        · rw [hidx, hmem, hengine, ← hfirst]
          exact hnext'
        · exact hstored.congr hjob hmem hbursts (by rw [hwriter])
  · rw [hidx]
    apply hcapture.stays
    · rw [hengine]; exact hcapture.dataOutReq
    · rw [hengine]; exact hcapture.dataInValid

/-- A clock of `read2` with a beat. -/
theorem read2_beat (hphase : s.engine.curState = .read2) (h : Inv A s) (honce : AddressOnce s i)
    (hvalid : s.reader.rvalid = true) : Inv A (edge A s i) := by
  simp only [Inv, hphase] at h
  obtain ⟨hwrite, hready, b, hburst, hremains, hreading, hcapture⟩ := h
  have hjob : (edge A s i).job = s.job := job_edge (by simp [hphase])
  have hwriter := hwrite.writer_edge (A := A) honce
  have hmem : (edge A s i).writer.mem = s.writer.mem := by rw [hwriter]
  cases hreading with
  | asking _ hquiet _ _ => exact absurd (hquiet.rvalid.symm.trans hvalid) (by decide)
  | serving harvalid hmore hserving hstored =>
      have htakes : ¬ (s.readPorts i).TakesAddr := fun ht => absurd (harvalid.symm.trans ht.1) (by decide)
      obtain ⟨hdata, hlast⟩ := hserving.shown hvalid
      rw [hstored.mem, hburst.araddr, hburst.bursts.readWord_copied hburst.aligned hburst.lt hmore] at hdata
      by_cases hend : s.engine.srcbuffidx = 15
      · have hrlast : s.reader.rlast = true := by simpa [hend] using hlast
        rw [hend] at hserving hcapture hdata
        have hengine : (edge A s i).engine =
            { s.engine with mdprocDataIn := s.reader.rdata, srcbuffidx := s.engine.srcbuffidx + 1, rready := false,
                            curState := .read3 } := by
          simp [engine_edge, hphase, Engine.read2, State.enginePorts, hvalid, hrlast, harvalid]
        obtain ⟨hquiet, hbursts⟩ := hserving.edge_last (i := s.readPorts i) hvalid hready htakes
        have hnext : (edge A s i).engine.curState = .read3 := by rw [hengine]
        simp only [Inv, hnext]
        refine ⟨⟨by rw [hengine]; exact harvalid, hquiet⟩,
          hwrite.keeps honce (by simp [hphase]) (by rw [hengine]; exact hwrite.wvalid), b,
          hburst.congr hjob (by rw [hengine]) (by rw [hengine]), hremains.congr hjob (by rw [hengine]),
          hstored.congr hjob hmem hbursts (by rw [hwriter]), ?_⟩
        apply hcapture.beat (by decide) hjob
        · rw [hengine]; exact hcapture.dataOutReq
        · rw [hengine]; exact hcapture.dataInValid
        · rw [hengine]; exact hdata
      · have hrlast : s.reader.rlast = false := by simpa [hend] using hlast
        have hengine : (edge A s i).engine =
            { s.engine with mdprocDataIn := s.reader.rdata, srcbuffidx := s.engine.srcbuffidx + 1,
                            mdprocDataInValid := true, rready := true } := by
          simp [engine_edge, hphase, Engine.read2, State.enginePorts, hvalid, hrlast, harvalid]
        obtain ⟨hserving', hbursts⟩ := hserving.edge_taken (i := s.readPorts i) (by omega) hvalid hready htakes
        have hnext : (edge A s i).engine.curState = .read2 := by rw [hengine]; exact hphase
        have hidx : (edge A s i).engine.srcbuffidx = s.engine.srcbuffidx + 1 := by rw [hengine]
        simp only [Inv, hnext]
        refine ⟨hwrite.keeps honce (by simp [hphase]) (by rw [hengine]; exact hwrite.wvalid), by rw [hengine], b,
          hburst.congr hjob (by rw [hengine]) (by rw [hengine]), hremains.congr hjob (by rw [hengine]), ?_, ?_⟩
        · apply Reading.serving
          · rw [hengine]; exact harvalid
          · omega
          · rw [hidx, hmem, hengine]
            exact hserving'
          · exact hstored.congr hjob hmem hbursts (by rw [hwriter])
        · rw [hidx]
          apply hcapture.beat hmore hjob
          · rw [hengine]; exact hcapture.dataOutReq
          · rw [hengine]
          · rw [hengine]; exact hdata

theorem read3_inv (hphase : s.engine.curState = .read3) (h : Inv A s) (honce : AddressOnce s i) :
    Inv A (edge A s i) := by
  simp only [Inv, hphase] at h
  obtain ⟨hread, hwrite, b, hburst, hremains, hstored, hcapture⟩ := h
  have hjob : (edge A s i).job = s.job := job_edge (by simp [hphase])
  have hengine : (edge A s i).engine = Engine.read3 s.engine := by
    simp only [engine_edge, hphase]
  have hproc : (edge A s i).mdproc =
      { s.mdproc with srcbuff := Function.update s.mdproc.srcbuff 15 (s.job.word b 15), srcbuffidx := 0,
                      curState := .idle } := by
    rw [mdproc_edge, Mdproc.edge_take_last hcapture.curState hcapture.srcbuffidx, hcapture.dataIn (by decide)]
  have hnext : (edge A s i).engine.curState = .mdproc1 := by rw [hengine]; rfl
  simp only [Inv, hnext]
  refine ⟨hread.keeps (by rw [hengine]; exact hread.arvalid),
    hwrite.keeps honce (by simp [hphase]) (by rw [hengine]; exact hwrite.wvalid), by rw [hengine]; rfl, b,
    hburst.congr hjob (by rw [hengine]; rfl) (by rw [hengine]; rfl), hremains.congr hjob (by rw [hengine]; rfl),
    hstored.keeps (by simp [hphase]) hread hwrite honce,
    Or.inr (Or.inr ⟨by rw [hengine]; rfl, by rw [hengine]; rfl, ?_, by rw [hproc], ?_⟩)⟩
  · intro m hm
    rw [hproc, hjob]
    change Function.update s.mdproc.srcbuff 15 (s.job.word b 15) m = s.job.word b m
    by_cases hlast : m = 15
    · rw [hlast, Function.update_self]
    · rw [Function.update_of_ne hlast]
      exact hcapture.srcbuff m (by omega)
  · rw [hproc]
    exact hcapture.dataOutValid

theorem Giving.gives {b n : ℕ} (h : Giving s b n) (hn : n < 16) : (edge A s i).mdproc =
    { s.mdproc with mdprocDataOut := Mdproc.inverted (s.job.word b n), mdprocDataOutValid := true,
                    srcbuffidx := n + 1 } := by
  have hidx := h.srcbuffidx
  rw [mdproc_edge, Mdproc.edge_give h.curState (by omega), hidx, h.held n hn]

theorem Giving.next {b n : ℕ} (h : Giving s b n) (hn : n < 16) (hjob : (edge A s i).job = s.job)
    (hin : (edge A s i).engine.mdprocDataInValid = false) (hreq : (edge A s i).engine.mdprocDataOutReq = true) :
    Giving (edge A s i) b (n + 1) := by
  refine ⟨hin, hreq, ?_, ?_, ?_, ?_, fun _ => ?_⟩
  · intro m hm
    rw [h.gives hn, hjob]
    exact h.held m hm
  all_goals rw [h.gives hn]
  · exact h.curState
  · rfl
  · rw [hjob]
    rfl

theorem mdproc1_inv (hphase : s.engine.curState = .mdproc1) (h : Inv A s) (honce : AddressOnce s i) :
    Inv A (edge A s i) := by
  simp only [Inv, hphase] at h
  obtain ⟨hread, hwrite, htgt, b, hburst, hremains, hstored, hgiving⟩ := h
  have hjob : (edge A s i).job = s.job := job_edge (by simp [hphase])
  have hstored' : Stored (edge A s i) b (b + 1) := hstored.keeps (by simp [hphase]) hread hwrite honce
  cases hvalid : s.mdproc.mdprocDataOutValid with
  | false =>
      have hengine : (edge A s i).engine = s.engine := by
        simp [engine_edge, hphase, Engine.mdproc1, State.enginePorts, hvalid]
      have hgiving' : Giving (edge A s i) b 0 ∨ Giving (edge A s i) b 1 := by
        rcases hgiving with hg | hg | ⟨hin, hreq, hheld, hcur, -⟩
        · right
          apply hg.next (by decide) hjob
          · rw [hengine]; exact hg.dataInValid
          · rw [hengine]; exact hg.dataOutReq
        · exact absurd (hg.dataOutValid.symm.trans hvalid) (by decide)
        · left
          have hproc : (edge A s i).mdproc = { s.mdproc with srcbuffidx := 0, curState := .dataOut1 } := by
            rw [mdproc_edge, hin, hreq, Mdproc.edge_turn hcur]
          refine ⟨by rw [hengine]; exact hin, by rw [hengine]; exact hreq, ?_, by rw [hproc], by rw [hproc], ?_, nofun⟩
          · intro m hm
            rw [hproc, hjob]
            exact hheld m hm
          · rw [hproc]
            exact hvalid
      have hnext : (edge A s i).engine.curState = .mdproc1 := by rw [hengine]; exact hphase
      simp only [Inv, hnext]
      refine ⟨hread.keeps (by rw [hengine]; exact hread.arvalid),
        hwrite.keeps honce (by simp [hphase]) (by rw [hengine]; exact hwrite.wvalid), by rw [hengine]; exact htgt, b,
        hburst.congr hjob (by rw [hengine]) (by rw [hengine]), hremains.congr hjob (by rw [hengine]), hstored', ?_⟩
      rcases hgiving' with hg | hg
      · exact Or.inl hg
      · exact Or.inr (Or.inl hg)
  | true =>
      have hg : Giving s b 1 := by
        rcases hgiving with hg | hg | ⟨-, -, -, -, hlow⟩
        · exact absurd (hg.dataOutValid.symm.trans hvalid) (by decide)
        · exact hg
        · exact absurd (hlow.symm.trans hvalid) (by decide)
      have hengine : (edge A s i).engine =
          { s.engine with wvalid := false, awvalid := false, wlast := false, wstrb := 0, bready := false,
                          tgtbuff := Function.update s.engine.tgtbuff 0 s.mdproc.mdprocDataOut, tgtbuffidx := 1,
                          curState := .mdproc2 } := by
        simp [engine_edge, hphase, Engine.mdproc1, State.enginePorts, hvalid, htgt]
      have hnext : (edge A s i).engine.curState = .mdproc2 := by rw [hengine]
      have hidx : (edge A s i).engine.tgtbuffidx = 1 := by rw [hengine]
      simp only [Inv, hnext, hidx]
      refine ⟨hread.keeps (by rw [hengine]; exact hread.arvalid),
        hwrite.keeps honce (by simp [hphase]) (by rw [hengine]), b,
        hburst.congr hjob (by rw [hengine]) (by rw [hengine]), hremains.congr hjob (by rw [hengine]), hstored',
        Or.inl ⟨by decide, by decide, ?_, ?_⟩⟩
      · apply hg.next (by decide) hjob
        · rw [hengine]; exact hg.dataInValid
        · rw [hengine]; exact hg.dataOutReq
      · intro m hm
        obtain rfl : m = 0 := by omega
        rw [hengine, hjob]
        change Function.update s.engine.tgtbuff 0 s.mdproc.mdprocDataOut 0 = _
        rw [Function.update_self, hg.dataOut (by decide)]

/-- The word that `Mdproc` shows goes behind those that are back. -/
theorem Turned.snoc {b n : ℕ} (h : Turned s b n) (hg : Giving s b (n + 1)) (hjob : (edge A s i).job = s.job)
    (hbuff : (edge A s i).engine.tgtbuff = Function.update s.engine.tgtbuff n s.mdproc.mdprocDataOut) :
    Turned (edge A s i) b (n + 1) := by
  intro m hm
  rw [hbuff, hjob]
  by_cases hlast : m = n
  · rw [hlast, Function.update_self, hg.dataOut (Nat.succ_pos n), Nat.add_sub_cancel]
  · rw [Function.update_of_ne hlast]
    exact h m (by omega)

theorem mdproc2_inv (hphase : s.engine.curState = .mdproc2) (h : Inv A s) (honce : AddressOnce s i) :
    Inv A (edge A s i) := by
  simp only [Inv, hphase] at h
  obtain ⟨hread, hwrite, b, hburst, hremains, hstored, hturned⟩ := h
  have hjob : (edge A s i).job = s.job := job_edge (by simp [hphase])
  have hstored' : Stored (edge A s i) b (b + 1) := hstored.keeps (by simp [hphase]) hread hwrite honce
  rcases hturned with ⟨hpos, hlt, hgiving, hturned⟩ | ⟨hidx, hproc, hturned⟩
  · have hvalid : s.mdproc.mdprocDataOutValid = true := by
      rw [hgiving.dataOutValid]
      exact decide_eq_true (Nat.succ_pos _)
    by_cases hend : s.engine.tgtbuffidx = 15
    · rw [hend] at hgiving hturned
      have hengine : (edge A s i).engine =
          { s.engine with tgtbuff := Function.update s.engine.tgtbuff 15 s.mdproc.mdprocDataOut,
                          mdprocDataOutReq := false, tgtbuffidx := 0 } := by
        simp [engine_edge, hphase, Engine.mdproc2, State.enginePorts, hvalid, hend]
      have hproc : (edge A s i).mdproc =
          { s.mdproc with mdprocDataOutValid := false, srcbuffidx := 0, curState := .idle } := by
        rw [mdproc_edge, Mdproc.edge_give_last hgiving.curState hgiving.srcbuffidx]
      have hnext : (edge A s i).engine.curState = .mdproc2 := by rw [hengine]; exact hphase
      simp only [Inv, hnext]
      refine ⟨hread.keeps (by rw [hengine]; exact hread.arvalid),
        hwrite.keeps honce (by simp [hphase]) (by rw [hengine]; exact hwrite.wvalid), b,
        hburst.congr hjob (by rw [hengine]) (by rw [hengine]), hremains.congr hjob (by rw [hengine]), hstored',
        Or.inr ⟨by rw [hengine], ?_, hturned.snoc hgiving hjob (by rw [hengine])⟩⟩
      exact ⟨by rw [hengine]; exact hgiving.dataInValid, by rw [hengine], by rw [hproc], by rw [hproc], by rw [hproc]⟩
    · have hengine : (edge A s i).engine =
          { s.engine with
            tgtbuff := Function.update s.engine.tgtbuff s.engine.tgtbuffidx s.mdproc.mdprocDataOut,
            tgtbuffidx := s.engine.tgtbuffidx + 1 } := by
        simp [engine_edge, hphase, Engine.mdproc2, State.enginePorts, hvalid, hend]
      have hnext : (edge A s i).engine.curState = .mdproc2 := by rw [hengine]; exact hphase
      have hidx : (edge A s i).engine.tgtbuffidx = s.engine.tgtbuffidx + 1 := by rw [hengine]
      simp only [Inv, hnext, hidx]
      refine ⟨hread.keeps (by rw [hengine]; exact hread.arvalid),
        hwrite.keeps honce (by simp [hphase]) (by rw [hengine]; exact hwrite.wvalid), b,
        hburst.congr hjob (by rw [hengine]) (by rw [hengine]), hremains.congr hjob (by rw [hengine]), hstored',
        Or.inl ⟨by omega, by omega, ?_, hturned.snoc hgiving hjob (by rw [hengine])⟩⟩
      apply hgiving.next (by omega) hjob
      · rw [hengine]; exact hgiving.dataInValid
      · rw [hengine]; exact hgiving.dataOutReq
  · have hengine : (edge A s i).engine = { s.engine with tgtbuffidx := 0, curState := .write1 } := by
      simp [engine_edge, hphase, Engine.mdproc2, State.enginePorts, hproc.dataOutValid]
    have hnext : (edge A s i).engine.curState = .write1 := by rw [hengine]
    simp only [Inv, hnext]
    refine ⟨⟨hread.keeps (by rw [hengine]; exact hread.arvalid),
      hwrite.keeps honce (by simp [hphase]) (by rw [hengine]; exact hwrite.wvalid),
      hproc.keeps (by rw [hengine]; exact hproc.dataInValid) (by rw [hengine]; exact hproc.dataOutReq)⟩,
      by rw [hengine], b, hburst.congr hjob (by rw [hengine]) (by rw [hengine]),
      hremains.congr hjob (by rw [hengine]), hstored', ?_⟩
    intro m hm
    rw [hengine, hjob]
    exact hturned m hm

theorem write1_inv (hphase : s.engine.curState = .write1) (h : Inv A s) (honce : AddressOnce s i) :
    Inv A (edge A s i) := by
  simp only [Inv, hphase] at h
  obtain ⟨hcalm, htgt, b, hburst, hremains, hstored, hturned⟩ := h
  have hjob : (edge A s i).job = s.job := job_edge (by simp [hphase])
  have hengine : (edge A s i).engine =
      { s.engine with awvalid := true, wvalid := true, wstrb := 0b1111, wdata := s.engine.tgtbuff 0, tgtbuffidx := 1,
                      curState := .write2 } := by
    simp [engine_edge, hphase, Engine.write1, htgt]
  have haddressed : (edge A s i).addressed = false := if_pos hphase
  have hwriter := hcalm.write.writer_edge (A := A) honce
  have hstored' := hstored.congr (t := edge A s i) hjob (by rw [hwriter]) (by rw [hcalm.read.reader_edge]) (by rw [hwriter])
  have hnext : (edge A s i).engine.curState = .write2 := by rw [hengine]
  simp only [Inv, hnext]
  refine ⟨hcalm.read.keeps (by rw [hengine]; exact hcalm.read.arvalid),
    hcalm.proc.keeps (by rw [hengine]; exact hcalm.proc.dataInValid) (by rw [hengine]; exact hcalm.proc.dataOutReq), b,
    hburst.congr hjob (by rw [hengine]) (by rw [hengine]), hremains.congr hjob (by rw [hengine]), ?_,
    0, by decide, by rw [hengine], ?_, ?_⟩
  · intro m hm
    rw [hengine, hjob]
    exact hturned m hm
  · refine ⟨by rw [hengine], by rw [hengine], ?_⟩
    rw [hengine, hjob]
    exact hturned 0 (by decide)
  · constructor
    · exact hstored'.mem
    · exact hstored'.reads
    · rw [haddressed]
      exact hstored'.writes
    all_goals rw [hwriter]
    · rw [haddressed]
      exact hcalm.write.addrs
    · exact hcalm.write.beats
    · exact hcalm.write.answers

theorem addressed_edge (hphase : s.engine.curState ≠ .write1) :
    (edge A s i).addressed = if (s.writePorts i).TakesAddr then true else s.addressed := if_neg hphase

theorem Collected.beats_taken {b n : ℕ} (h : Collected s b n) (hs : Showing s b n) (hready : i.wready = true) :
    (s.writer.accept (s.writePorts i)).beats = s.job.outBeats b (n + 1) := by
  have htakes : (s.writePorts i).TakesData := ⟨hs.wvalid, hready⟩
  simp only [Writer.accept, if_pos htakes]
  rw [Job.outBeats_succ, h.beats, State.writePorts, hs.wdata, hs.wstrb]
  rfl

theorem Collected.beats_kept {b n : ℕ} (h : Collected s b n) (hno : ¬ (s.writePorts i).TakesData) :
    (s.writer.accept (s.writePorts i)).beats = s.job.outBeats b n := by
  simp only [Writer.accept, if_neg hno]
  exact h.beats

/-- The address is taken at most once, so the memory has it exactly if `addressed`. -/
theorem Collected.accept_addrs {b n : ℕ} (h : Collected s b n) (honce : AddressOnce s i)
    (hphase : s.engine.curState ≠ .write1) : (s.writer.accept (s.writePorts i)).addrs =
        (if (edge A s i).addressed = true then [s.engine.awaddr] else []) ∧
      (s.writer.accept (s.writePorts i)).bursts =
        s.job.writeBursts + if (edge A s i).addressed = true then b + 1 else b := by
  rw [addressed_edge hphase]
  by_cases htakes : (s.writePorts i).TakesAddr
  · have hfirst : s.addressed = false := honce htakes.1 htakes.2
    simp only [Writer.accept, if_pos htakes, if_true]
    rw [h.addrs, h.writes, hfirst]
    exact ⟨rfl, rfl⟩
  · simp only [Writer.accept, if_neg htakes]
    exact ⟨h.addrs, h.writes⟩

theorem Collected.keeps {b n m : ℕ} (h : Collected s b n) (hread : ReadIdle s) (honce : AddressOnce s i)
    (hphase : s.engine.curState ≠ .write1) (hjob : (edge A s i).job = s.job)
    (haddr : (edge A s i).engine.awaddr = s.engine.awaddr)
    (hbeats : (s.writer.accept (s.writePorts i)).beats = s.job.outBeats b m)
    (hlacks : m < 16 ∨ (edge A s i).addressed = false) : Collected (edge A s i) b m := by
  obtain ⟨haddrs, hbursts⟩ := h.accept_addrs (A := A) honce hphase
  have hmissing : (s.writer.accept (s.writePorts i)).addrs = [] ∨
      (s.writer.accept (s.writePorts i)).beats.length < 16 := by
    rcases hlacks with hm | hno
    · right
      rw [hbeats, Job.outBeats_length]
      exact hm
    · left
      rw [haddrs, hno]
      rfl
  have hwriter : (edge A s i).writer = s.writer.accept (s.writePorts i) := Writer.edge_eq_accept h.answers hmissing
  constructor
  all_goals try rw [hwriter]
  all_goals try rw [hjob]
  · exact h.mem
  · rw [hread.reader_edge]
    exact h.reads
  · exact hbursts
  · rw [haddr]
    exact haddrs
  · exact hbeats
  · exact h.answers
  · simp [Writer.accept, h.bvalid]

/-- With all its beats and its address the burst goes into memory. -/
theorem Collected.commit {b n : ℕ} (h : Collected s b n) (hburst : InBurst s b) (hread : ReadIdle s)
    (honce : AddressOnce s i) (hphase : s.engine.curState ≠ .write1) (hjob : (edge A s i).job = s.job)
    (hwvalid : (edge A s i).engine.wvalid = false)
    (hbeats : (s.writer.accept (s.writePorts i)).beats = s.job.outBeats b 16)
    (haddressed : (edge A s i).addressed = true) : Committed (edge A s i) b := by
  obtain ⟨haddrs, hbursts⟩ := h.accept_addrs (A := A) honce hphase
  rw [haddressed, if_pos rfl] at haddrs hbursts
  obtain ⟨hanswering, hmem, hcount⟩ := Writer.edge_commit (A := A) h.answers h.bvalid haddrs (by
    rw [hbeats, Job.outBeats_length])
  refine ⟨hanswering, hwvalid, haddressed, ?_⟩
  constructor
  all_goals rw [hjob]
  · refine hmem.trans ?_
    rw [hbeats, h.mem, hburst.awaddr]
    exact hburst.bursts.writeBeats_copied hburst.aligned hburst.fits hburst.lt
  · rw [hread.reader_edge]
    exact h.reads
  · exact hcount.trans hbursts

theorem remains_next {b : ℕ} (hburst : InBurst s b) (h : Remains s b) (hjob : (edge A s i).job = s.job)
    (hlen : (edge A s i).engine.remainlen = s.engine.remainlen - Engine.burstsize) : Remains (edge A s i) (b + 1) := by
  have hfull := hburst.bursts.full hburst.lt
  have hfits := hburst.fits
  have hsize : Engine.burstsize.toNat = 64 := rfl
  rw [Remains, hjob, hlen, h]
  apply BitVec.eq_of_toNat_eq
  simp only [hsize, BitVec.toNat_sub, BitVec.toNat_ofNat]
  omega

theorem write2_inv (hphase : s.engine.curState = .write2) (h : Inv A s) (honce : AddressOnce s i) :
    Inv A (edge A s i) := by
  simp only [Inv, hphase] at h
  obtain ⟨hread, hproc, b, hburst, hremains, hturned, n, hn, hidx, hshowing, hcollected⟩ := h
  have hwrite1 : s.engine.curState ≠ .write1 := by simp [hphase]
  have hjob : (edge A s i).job = s.job := job_edge (by simp [hphase])
  cases hready : i.wready with
  | false =>
      have hengine : (edge A s i).engine =
          { s.engine with awvalid := if i.awready = true then false else s.engine.awvalid } := by
        simp [engine_edge, hphase, Engine.write2, State.enginePorts, hready]
      have hnot : ¬ (s.writePorts i).TakesData := fun ht => absurd (hready.symm.trans ht.2) (by decide)
      have hnext : (edge A s i).engine.curState = .write2 := by rw [hengine]; exact hphase
      simp only [Inv, hnext]
      refine ⟨hread.keeps (by rw [hengine]; exact hread.arvalid),
        hproc.keeps (by rw [hengine]; exact hproc.dataInValid) (by rw [hengine]; exact hproc.dataOutReq), b,
        hburst.congr hjob (by rw [hengine]) (by rw [hengine]), hremains.congr hjob (by rw [hengine]), ?_,
        n, hn, by rw [hengine]; exact hidx, ?_,
        hcollected.keeps hread honce hwrite1 hjob (by rw [hengine]) (hcollected.beats_kept hnot) (Or.inl (by omega))⟩
      · intro m hm
        rw [hengine, hjob]
        exact hturned m hm
      · refine ⟨by rw [hengine]; exact hshowing.wvalid, by rw [hengine]; exact hshowing.wstrb, ?_⟩
        rw [hengine, hjob]
        exact hshowing.wdata
  | true =>
      have hcollected' : Collected (edge A s i) b (n + 1) := by
        apply hcollected.keeps hread honce hwrite1 hjob _ (hcollected.beats_taken hshowing hready) (Or.inl (by omega))
        simp only [engine_edge, hphase, Engine.write2]
        split_ifs <;> rfl
      have hshowing' : Showing (edge A s i) b (n + 1) := by
        constructor
        · simp only [engine_edge, hphase, Engine.write2, State.enginePorts, hready]
          split_ifs <;> rfl
        · simp only [engine_edge, hphase, Engine.write2, State.enginePorts, hready]
          split_ifs <;> rfl
        · rw [hjob, ← hturned (n + 1) (by omega), ← hidx]
          simp only [engine_edge, hphase, Engine.write2, State.enginePorts, hready]
          split_ifs <;> rfl
      by_cases hend : n = 14
      · subst hend
        have hengine : (edge A s i).engine =
            { s.engine with awvalid := if i.awready = true then false else s.engine.awvalid, wvalid := true,
                            wstrb := 0b1111, wdata := s.engine.tgtbuff 15, tgtbuffidx := 16, wlast := true,
                            remainlen := s.engine.remainlen - Engine.burstsize, curState := .bresp1 } := by
          simp [engine_edge, hphase, Engine.write2, State.enginePorts, hready, hidx]
        have hnext : (edge A s i).engine.curState = .bresp1 := by rw [hengine]
        simp only [Inv, hnext]
        refine ⟨hread.keeps (by rw [hengine]; exact hread.arvalid),
          hproc.keeps (by rw [hengine]; exact hproc.dataInValid) (by rw [hengine]; exact hproc.dataOutReq), b,
          hburst.congr hjob (by rw [hengine]) (by rw [hengine]), remains_next hburst hremains hjob (by rw [hengine]),
          Closing.last hshowing' hcollected'⟩
      · have hengine : (edge A s i).engine =
            { s.engine with awvalid := if i.awready = true then false else s.engine.awvalid, wvalid := true,
                            wstrb := 0b1111, wdata := s.engine.tgtbuff (n + 1), tgtbuffidx := n + 2 } := by
          simp [engine_edge, hphase, Engine.write2, State.enginePorts, hready, hidx, hend]
        have hnext : (edge A s i).engine.curState = .write2 := by rw [hengine]; exact hphase
        simp only [Inv, hnext]
        refine ⟨hread.keeps (by rw [hengine]; exact hread.arvalid),
          hproc.keeps (by rw [hengine]; exact hproc.dataInValid) (by rw [hengine]; exact hproc.dataOutReq), b,
          hburst.congr hjob (by rw [hengine]) (by rw [hengine]), hremains.congr hjob (by rw [hengine]), ?_,
          n + 1, by omega, by rw [hengine], hshowing', hcollected'⟩
        intro m hm
        rw [hengine, hjob]
        exact hturned m hm

/-- Until the answer is shown the engine waits, and the burst gets on at most by its last beat and its address. -/
theorem closing_waits {b : ℕ} (hphase : s.engine.curState = .bresp1) (hburst : InBurst s b) (hread : ReadIdle s)
    (honce : AddressOnce s i) (h : Closing s b) (hvalid : s.writer.bvalid = false)
    (hengine : (edge A s i).engine = { s.engine with wvalid := false }) : Closing (edge A s i) b := by
  have hwrite1 : s.engine.curState ≠ .write1 := by simp [hphase]
  have hjob : (edge A s i).job = s.job := job_edge (by simp [hphase])
  have haddr : (edge A s i).engine.awaddr = s.engine.awaddr := by rw [hengine]
  have hwvalid : (edge A s i).engine.wvalid = false := by rw [hengine]
  have hfull : ∀ {n}, Collected s b n → (s.writer.accept (s.writePorts i)).beats = s.job.outBeats b 16 →
      Closing (edge A s i) b := by
    intro n hc hbeats
    cases haddressed : (edge A s i).addressed with
    | true => exact Closing.committed (hc.commit hburst hread honce hwrite1 hjob hwvalid hbeats haddressed)
    | false =>
        exact Closing.missing 16 hwvalid (hc.keeps hread honce hwrite1 hjob haddr hbeats (Or.inr haddressed))
          (Or.inr haddressed) (Nat.le_refl 16)
  cases h with
  | last hshowing hcollected =>
      cases hready : i.wready with
      | true => exact hfull hcollected (hcollected.beats_taken hshowing hready)
      | false =>
          have hnot : ¬ (s.writePorts i).TakesData := fun ht => absurd (hready.symm.trans ht.2) (by decide)
          exact Closing.missing 15 hwvalid (hcollected.keeps hread honce hwrite1 hjob haddr (hcollected.beats_kept hnot)
            (Or.inl (by decide))) (Or.inl (by decide)) (by decide)
  | missing n hlow hcollected hlacks hle =>
      have hnot : ¬ (s.writePorts i).TakesData := fun ht => absurd (hlow.symm.trans ht.1) (by decide)
      have hbeats := hcollected.beats_kept (i := i) hnot
      by_cases hlt : n < 16
      · exact Closing.missing n hwvalid (hcollected.keeps hread honce hwrite1 hjob haddr hbeats (Or.inl hlt))
          (Or.inl hlt) hle
      · obtain rfl : n = 16 := by omega
        exact hfull hcollected hbeats
  | committed hcommitted =>
      have hno : ¬ (s.writePorts i).TakesAddr := fun ht =>
        absurd (hcommitted.addressed.symm.trans (honce ht.1 ht.2)) (by decide)
      have hnot : ¬ (s.writePorts i).TakesData := fun ht => absurd (hcommitted.wvalid.symm.trans ht.1) (by decide)
      obtain ⟨hanswering, hmem, hcount⟩ := hcommitted.answering.edge (A := A) hvalid hno hnot
      refine Closing.committed ⟨hanswering, hwvalid, ?_, ?_⟩
      · rw [addressed_edge hwrite1, if_neg hno]
        exact hcommitted.addressed
      · exact hcommitted.stored.congr hjob hmem (by rw [hread.reader_edge]) hcount

/-- With the answer the burst is done, and the write side is at rest again. -/
theorem committed_leaves {b : ℕ} (hphase : s.engine.curState = .bresp1) (hread : ReadIdle s) (honce : AddressOnce s i)
    (h : Committed s b) (hvalid : s.writer.bvalid = true) (hwvalid : (edge A s i).engine.wvalid = false)
    (hbready : (edge A s i).engine.bready = true) :
    WriteIdle (edge A s i) ∧ Stored (edge A s i) (b + 1) (b + 1) := by
  have hwrite1 : s.engine.curState ≠ .write1 := by simp [hphase]
  have hjob : (edge A s i).job = s.job := job_edge (by simp [hphase])
  have hno : ¬ (s.writePorts i).TakesAddr := fun ht =>
    absurd (h.addressed.symm.trans (honce ht.1 ht.2)) (by decide)
  have hnot : ¬ (s.writePorts i).TakesData := fun ht => absurd (h.wvalid.symm.trans ht.1) (by decide)
  have hanswers : s.writer.answers = 0 := by
    rw [h.answering.answers, if_pos hvalid]
  have hwriter : (edge A s i).writer = s.writer.accept (s.writePorts i) := by
    apply Writer.edge_eq_accept hanswers
    simp only [Writer.accept, if_neg hno]
    exact Or.inl h.answering.addrs
  have haccept : (s.writer.accept (s.writePorts i)).mem = s.writer.mem ∧
      (s.writer.accept (s.writePorts i)).addrs = s.writer.addrs ∧
      (s.writer.accept (s.writePorts i)).beats = s.writer.beats ∧
      (s.writer.accept (s.writePorts i)).answers = s.writer.answers ∧
      (s.writer.accept (s.writePorts i)).bursts = s.writer.bursts := by
    simp [Writer.accept, hno, hnot]
  obtain ⟨hmem, haddrs, hbeats, hans, hbursts⟩ := haccept
  constructor
  · refine ⟨hwvalid, ?_, ?_, ?_, ?_, fun _ => hbready⟩
    · rw [addressed_edge hwrite1, if_neg hno]
      exact h.addressed
    · rw [hwriter, haddrs]
      exact h.answering.addrs
    · rw [hwriter, hbeats]
      exact h.answering.beats
    · rw [hwriter, hans]
      exact hanswers
  · exact h.stored.congr hjob (by rw [hwriter, hmem]) (by rw [hread.reader_edge]) (by rw [hwriter, hbursts])

theorem bresp1_inv (hphase : s.engine.curState = .bresp1) (h : Inv A s) (honce : AddressOnce s i) :
    Inv A (edge A s i) := by
  simp only [Inv, hphase] at h
  obtain ⟨hread, hproc, b, hburst, hremains, hclosing⟩ := h
  have hjob : (edge A s i).job = s.job := job_edge (by simp [hphase])
  cases hvalid : s.writer.bvalid with
  | false =>
      have hengine : (edge A s i).engine = { s.engine with wvalid := false } := by
        simp [engine_edge, hphase, Engine.bresp1, State.enginePorts, hvalid]
      have hnext : (edge A s i).engine.curState = .bresp1 := by rw [hengine]; exact hphase
      simp only [Inv, hnext]
      exact ⟨hread.keeps (by rw [hengine]; exact hread.arvalid),
        hproc.keeps (by rw [hengine]; exact hproc.dataInValid) (by rw [hengine]; exact hproc.dataOutReq), b,
        hburst.congr hjob (by rw [hengine]) (by rw [hengine]), hremains.congr hjob (by rw [hengine]),
        closing_waits hphase hburst hread honce hclosing hvalid hengine⟩
  | true =>
      have hcommitted : Committed s b := by
        cases hclosing with
        | last _ hcollected => exact absurd (hcollected.bvalid.symm.trans hvalid) (by decide)
        | missing _ _ hcollected _ _ => exact absurd (hcollected.bvalid.symm.trans hvalid) (by decide)
        | committed hcommitted => exact hcommitted
      have hfull := hburst.bursts.full hburst.lt
      have hhalf := hburst.bursts.le_half hburst.fits
      have hint : s.engine.remainlen.toInt = ((s.job.len - 64 * (b + 1) : ℕ) : Int) := by
        rw [hremains, BitVec.toInt_eq_toNat_cond, BitVec.toNat_ofNat]
        have hlen : s.job.len - 64 * (b + 1) < 2147483648 := by omega
        rw [Nat.mod_eq_of_lt (by omega), if_pos (by omega)]
      by_cases hmore : 0 < s.engine.remainlen.toInt
      · have hengine : (edge A s i).engine =
            { s.engine with wvalid := false, bready := true, araddr := s.engine.araddr + Engine.burstsize,
                            awaddr := s.engine.awaddr + Engine.burstsize, curState := .read1 } := by
          simp [engine_edge, hphase, Engine.bresp1, State.enginePorts, hvalid, hmore]
        obtain ⟨hwrite, hstored⟩ := committed_leaves (A := A) hphase hread honce hcommitted hvalid (by rw [hengine])
          (by rw [hengine])
        have hnext : (edge A s i).engine.curState = .read1 := by rw [hengine]
        have hsum : ∀ a : BitVec 32, a + BitVec.ofNat 32 (64 * b) + Engine.burstsize = a + BitVec.ofNat 32 (64 * (b + 1)) := by
          intro a
          rw [BitVec.add_assoc, Nat.mul_succ, BitVec.ofNat_add]
          rfl
        simp only [Inv, hnext]
        refine ⟨⟨hread.keeps (by rw [hengine]; exact hread.arvalid), hwrite,
          hproc.keeps (by rw [hengine]; exact hproc.dataInValid) (by rw [hengine]; exact hproc.dataOutReq)⟩, b + 1, ?_,
          hremains.congr hjob (by rw [hengine]), hstored⟩
        constructor
        all_goals rw [hjob]
        · exact hburst.bursts
        · exact hburst.aligned
        · exact hburst.fits
        · omega
        · rw [hengine, ← hsum, ← hburst.araddr]
        · rw [hengine, ← hsum, ← hburst.awaddr]
      · have hengine : (edge A s i).engine =
            { s.engine with wvalid := false, bready := true, dmaIntr := true, curState := .idle } := by
          simp [engine_edge, hphase, Engine.bresp1, State.enginePorts, hvalid, hmore]
        obtain ⟨hwrite, hstored⟩ := committed_leaves (A := A) hphase hread honce hcommitted hvalid (by rw [hengine])
          (by rw [hengine])
        have hnext : (edge A s i).engine.curState = .idle := by rw [hengine]
        have hcount : b + 1 = s.job.len / 64 := by omega
        simp only [Inv, hnext]
        refine ⟨⟨hread.keeps (by rw [hengine]; exact hread.arvalid), hwrite,
          hproc.keeps (by rw [hengine]; exact hproc.dataInValid) (by rw [hengine]; exact hproc.dataOutReq)⟩, fun _ => ?_⟩
        have hlen : 64 * (b + 1) = (edge A s i).job.len := by
          rw [hjob]
          omega
        rw [← hjob] at hcount
        refine ⟨fun x => ?_, hcount ▸ hstored.reads, hcount ▸ hstored.writes⟩
        rw [hstored.mem, Job.copied, hlen]

end Phases

def powerUp (mem : Mem) : State where
  engine := Engine.powerUp
  mdproc := Mdproc.powerUp
  reader := ⟨[], 0, false, 0, false, 0⟩
  writer := ⟨mem, [], [], 0, false, 0⟩
  addressed := true
  job := ⟨0, 0, 0, mem, 0, 0⟩

theorem powerUp_inv (mem : Mem) : Inv A (powerUp mem) :=
  ⟨⟨⟨rfl, ⟨rfl, rfl, rfl⟩⟩, ⟨rfl, rfl, rfl, rfl, rfl, nofun⟩, ⟨rfl, rfl, rfl, rfl, rfl⟩⟩, nofun⟩

/-- The transfers that are asked for. -/
def StartsBursts (s : State) (i : Ports) : Prop := s.Starts i → (s.newJob i).Bursts

/-- What the engine needs of the memory, and of the addresses. -/
def Obliging (s : State) (i : Ports) : Prop :=
  NoPause s ∧ AddressOnce s i ∧ (s.Starts i → (s.newJob i).Aligned)

/-- When the engine raises its interrupt, the transfer is done. -/
def Correct (s : State) : Prop := s.engine.curState = .idle → s.engine.dmaIntr = true → Done s

theorem Inv.correct {s : State} (h : Inv A s) : Correct s := by
  intro hidle hintr
  simp only [Inv, hidle] at h
  exact h.2 hintr

theorem edge_inv {s : State} {i : Ports} (h : Inv A s) (hbursts : StartsBursts s i) (hobliging : Obliging s i) :
    Inv A (edge A s i) := by
  obtain ⟨hpause, honce, haligned⟩ := hobliging
  cases hphase : s.engine.curState with
  | idle => exact idle_inv hphase h honce
  | prep1 => exact prep1_inv hphase h honce
  | prep2 => exact prep2_inv hphase h honce
  | prep3 => exact prep3_inv hphase h honce fun hs => ⟨hbursts hs, haligned hs⟩
  | read1 => exact read1_inv hphase h honce
  | read2 =>
      cases hvalid : s.reader.rvalid with
      | true => exact read2_beat hphase h honce hvalid
      | false => exact read2_waiting hphase h honce hpause hvalid
  | read3 => exact read3_inv hphase h honce
  | mdproc1 => exact mdproc1_inv hphase h honce
  | mdproc2 => exact mdproc2_inv hphase h honce
  | write1 => exact write1_inv hphase h honce
  | write2 => exact write2_inv hphase h honce
  | bresp1 => exact bresp1_inv hphase h honce
  | intr1 =>
      simp only [Inv, hphase] at h

/-- Every transfer between aligned ranges is copied, if the memory does not pause in a read burst and takes each write
address once. -/
theorem copies_inverted (mem : Mem) (is : List Ports)
    (hbursts : Machine.StepsMeet (step A) StartsBursts (powerUp mem) is)
    (hobliging : Machine.StepsMeet (step A) Obliging (powerUp mem) is) :
    Machine.Always (step A) Correct (powerUp mem) is := by
  apply Machine.always_of_stepsMeet (Inv A) (fun s hs => hs.correct) _ (powerUp_inv A mem) (hbursts.and hobliging)
  intro s i t hs hc ht
  cases ht
  exact edge_inv A hs hc.1 hc.2

/-- The memory is ready for everything. -/
def ready : Ports := ⟨false, 0, false, true, true, true, true, true⟩

/-- The request for `len` bytes from 0x1000 to 0x2000. -/
def request (len : BitVec 32) : List Ports :=
  [{ ready with dmaPulse := true }, { ready with regOutDataValid := true, regOutData := 0x1000 },
    { ready with regOutDataValid := true, regOutData := len },
    { ready with regOutDataValid := true, regOutData := 0x2000 }]

/-- Each byte is the low byte of its address. -/
def numbered : Mem := fun x => x.setWidth 8

def Requested (n : ℕ) (j : Job) : Prop := j.src = 0x1000#32 ∧ j.dst = 0x2000#32 ∧ j.len = 64 * n

instance (n : ℕ) (j : Job) : Decidable (Requested n j) := inferInstanceAs (Decidable (_ ∧ _))

theorem Requested.bursts {n : ℕ} {j : Job} (h : Requested n j) (hn : 0 < n ∧ n ≤ 64) : j.Bursts := by
  obtain ⟨hsrc, hdst, hlen⟩ := h
  refine ⟨by omega, by omega, fun m hm n hn heq => ?_⟩
  have hnat := congrArg BitVec.toNat heq
  simp only [hsrc, hdst, BitVec.toNat_add, BitVec.toNat_ofNat] at hnat
  omega

theorem Requested.aligned {j : Job} (h : Requested 2 j) : j.Aligned := by
  obtain ⟨hsrc, hdst, hlen⟩ := h
  refine ⟨by rw [hsrc]; rfl, by rw [hdst]; rfl, fun b hb => ?_⟩
  have hcases : b = 0 ∨ b = 1 := by omega
  rw [hsrc, hdst, Inside, Inside]
  rcases hcases with rfl | rfl <;> decide

theorem copies_inverted_twoBursts :
    Machine.Always (step incrementing) Correct (powerUp numbered) (request 128 ++ List.replicate 114 ready) := by
  have hrun : Machine.StepsMeet (step incrementing)
      (fun s i => (NoPause s ∧ AddressOnce s i) ∧ (s.Starts i → Requested 2 (s.newJob i)))
      (powerUp numbered) (request 128 ++ List.replicate 114 ready) := by
    decide +kernel
  apply copies_inverted
  · exact hrun.mono fun s i hs hstarts => (hs.2 hstarts).bursts (by decide)
  · exact hrun.mono fun s i hs => ⟨hs.1.1, hs.1.2, fun hstarts => (hs.2 hstarts).aligned⟩

/-- The memory pauses for one clock after the first beat. -/
def paused : List Ports :=
  request 64 ++ [ready, ready, { ready with serveRead := false }] ++ List.replicate 69 ready

theorem pause_corrupts : Machine.StepsMeet (step incrementing) StartsBursts (powerUp numbered) paused ∧
    ¬ Machine.Always (step incrementing) Correct (powerUp numbered) paused := by
  constructor
  · have hrun : Machine.StepsMeet (step incrementing) (fun s i => s.Starts i → Requested 1 (s.newJob i))
        (powerUp numbered) paused := by
      decide +kernel
    exact hrun.mono fun s i hs hstarts => (hs hstarts).bursts (by decide)
  · intro h
    obtain ⟨t, ht, hidle, hintr, hjob, hbyte⟩ : ∃ t, Machine.exec (step incrementing) (powerUp numbered) paused = some t ∧
        t.engine.curState = .idle ∧ t.engine.dmaIntr = true ∧ Requested 1 t.job ∧
          (t.job.mem 0x1000#32, t.writer.mem 0x2000#32) = (0x00#8, 0xc3#8) :=
      ⟨_, rfl, by decide +kernel⟩
    have hdone := (Machine.always_iff_exec.mp h _ (List.prefix_refl _) t ht hidle hintr).mem 0x2000#32
    rw [Prod.mk.injEq] at hbyte
    rw [hjob.1, hjob.2.1, hjob.2.2, if_pos (by decide), hbyte.2] at hdone
    rw [show (0x1000#32 + (0x2000#32 - 0x2000#32)) = 0x1000#32 from rfl, hbyte.1] at hdone
    exact absurd hdone (by decide)

end Slos.Modcore.Dma
