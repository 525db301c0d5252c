import Mathlib.Data.List.Basic
import Mathlib.Tactic.Common

/-!
# A memory behind an AXI port

A slave with any wait states on its five channels that serves bursts of sixteen four-byte beats in order. It may show a
beat or an answer at any clock at which it has one, and then holds it until it is taken; it takes addresses and data
whenever its ready inputs are up, data also before their address. How it counts on from an address is a parameter, of
which the protocol only says what happens while a burst stays in its 4 KB block.
-/

namespace AxiMemory

abbrev Mem := BitVec 32 → BitVec 8

def lane (w : BitVec 32) (l : ℕ) : BitVec 8 := w.extractLsb' (8 * l) 8

def readWord (m : Mem) (a : BitVec 32) : BitVec 32 := m (a + 3) ++ m (a + 2) ++ m (a + 1) ++ m a

def writeWord (m : Mem) (a data : BitVec 32) (strb : BitVec 4) : Mem := fun x =>
  if (x - a).toNat < 4 ∧ strb.getLsbD (x - a).toNat = true then lane data (x - a).toNat else m x

def aligned (a : BitVec 32) : BitVec 32 := a - BitVec.ofNat 32 (a.toNat % 4)

/-- The burst from `a` stays in one 4 KB block. -/
def Inside (a : BitVec 32) : Prop := (aligned a).toNat % 4096 + 64 ≤ 4096

structure Addressing where
  beatAddr : BitVec 32 → ℕ → BitVec 32
  incr : ∀ a n, Inside a → n < 16 → beatAddr a n = aligned a + BitVec.ofNat 32 (4 * n)

def incrementing : Addressing := ⟨fun a n => aligned a + BitVec.ofNat 32 (4 * n), fun _ _ _ _ => rfl⟩

def writeBeats (m : Mem) (addr : ℕ → BitVec 32) : ℕ → List (BitVec 32 × BitVec 4) → Mem
  | _, [] => m
  | n, (data, strb) :: beats => writeBeats (writeWord m (addr n) data strb) addr (n + 1) beats

theorem lane_append (b₃ b₂ b₁ b₀ : BitVec 8) {l : ℕ} (hl : l < 4) :
    lane (b₃ ++ b₂ ++ b₁ ++ b₀) l = if l = 0 then b₀ else if l = 1 then b₁ else if l = 2 then b₂ else b₃ := by
  obtain rfl | rfl | rfl | rfl : l = 0 ∨ l = 1 ∨ l = 2 ∨ l = 3 := by omega
  all_goals
    ext i hi
    simp only [lane, BitVec.getElem_extractLsb', BitVec.getLsbD_append]
    grind

theorem lane_readWord (m : Mem) (a : BitVec 32) {l : ℕ} (hl : l < 4) :
    lane (readWord m a) l = m (a + BitVec.ofNat 32 l) := by
  rw [readWord, lane_append _ _ _ _ hl]
  obtain rfl | rfl | rfl | rfl : l = 0 ∨ l = 1 ∨ l = 2 ∨ l = 3 := by omega
  · simp
  all_goals rfl

theorem readWord_congr {m m' : Mem} {a : BitVec 32} (h : ∀ l < 4, m' (a + BitVec.ofNat 32 l) = m (a + BitVec.ofNat 32 l)) :
    readWord m' a = readWord m a := by
  have h0 := h 0 (by decide)
  rw [show BitVec.ofNat 32 0 = 0#32 from rfl, BitVec.add_zero] at h0
  rw [readWord, readWord, h0]
  congr 2
  · congr 1
    · exact h 3 (by decide)
    · exact h 2 (by decide)
  · exact h 1 (by decide)

theorem sub_offset (x base : BitVec 32) {k : ℕ} (hk : k < 4294967296) :
    (x - (base + BitVec.ofNat 32 k)).toNat = ((x - base).toNat + 4294967296 - k) % 4294967296 := by
  simp only [BitVec.toNat_sub, BitVec.toNat_add, BitVec.toNat_ofNat]
  omega

theorem aligned_eq_self {a : BitVec 32} (h : a.toNat % 4 = 0) : aligned a = a := by
  rw [aligned, h, show BitVec.ofNat 32 0 = 0#32 from rfl, BitVec.sub_zero]

/-- Whole words, one after the other from `base` on. -/
theorem writeBeats_range' {addr : ℕ → BitVec 32} {base : BitVec 32} (f : ℕ → BitVec 32)
    (haddr : ∀ k < 16, addr k = base + BitVec.ofNat 32 (4 * k)) {n c : ℕ} (hc : n + c ≤ 16) (m : Mem) (x : BitVec 32) :
    writeBeats m addr n ((List.range' n c).map fun k => (f k, 0b1111#4)) x =
      if 4 * n ≤ (x - base).toNat ∧ (x - base).toNat < 4 * (n + c) then
        lane (f ((x - base).toNat / 4)) ((x - base).toNat % 4) else m x := by
  have hstrobe : ∀ l < 4, (0b1111#4).getLsbD l = true := by decide
  induction c generalizing n m with
  | zero => rw [if_neg (by omega)]; rfl
  | succ c ih =>
      rw [List.range'_succ, List.map_cons, writeBeats, ih (by omega)]
      have hoff := sub_offset x base (k := 4 * n) (by omega)
      have hlt : (x - base).toNat < 4294967296 := (x - base).isLt
      by_cases hlater : 4 * (n + 1) ≤ (x - base).toNat ∧ (x - base).toNat < 4 * (n + 1 + c)
      · rw [if_pos hlater, if_pos (by omega)]
      · rw [if_neg hlater, writeWord, haddr n (by omega)]
        by_cases hhere : 4 * n ≤ (x - base).toNat ∧ (x - base).toNat < 4 * n + 4
        · have hl : (x - (base + BitVec.ofNat 32 (4 * n))).toNat = (x - base).toNat - 4 * n := by omega
          rw [hl, if_pos ⟨by omega, hstrobe _ (by omega)⟩, if_pos (by omega)]
          congr 2 <;> omega
        · rw [if_neg (by omega), if_neg (by omega)]

/-! ### Reading -/

structure Reader where
  addrs : List (BitVec 32)
  beat : ℕ
  rvalid : Bool
  rdata : BitVec 32
  rlast : Bool
  bursts : ℕ

namespace Reader

/-- The master's signals, the slave's ready input and whether it serves at this clock. -/
structure Ports where
  arvalid : Bool
  araddr : BitVec 32
  arready : Bool
  rready : Bool
  serve : Bool

def Ports.TakesAddr (i : Ports) : Prop := i.arvalid = true ∧ i.arready = true

instance (i : Ports) : Decidable i.TakesAddr := inferInstanceAs (Decidable (_ ∧ _))

def pass (r : Reader) (i : Ports) : Reader :=
  if r.rvalid = true ∧ i.rready = true then
    if r.rlast = true then { r with addrs := r.addrs.tail, beat := 0, rvalid := false }
    else { r with beat := r.beat + 1, rvalid := false }
  else r

def accept (r : Reader) (i : Ports) : Reader :=
  if i.TakesAddr then { r with addrs := r.addrs ++ [i.araddr], bursts := r.bursts + 1 } else r

variable (A : Addressing) (m : Mem)

def present (r : Reader) (i : Ports) : Reader :=
  match r.addrs with
  | [] => r
  | a :: _ =>
      if r.rvalid = false ∧ i.serve = true then
        { r with rvalid := true, rdata := readWord m (A.beatAddr a r.beat), rlast := decide (r.beat = 15) }
      else r

def edge (r : Reader) (i : Ports) : Reader := ((r.pass i).accept i).present A m i

structure Quiet (r : Reader) : Prop where
  addrs : r.addrs = []
  beat : r.beat = 0
  rvalid : r.rvalid = false

/-- The burst from `a` is being served and `n` of its beats have been taken. -/
structure Serving (r : Reader) (a : BitVec 32) (n : ℕ) : Prop where
  addrs : r.addrs = [a]
  beat : r.beat = n
  shown : r.rvalid = true → r.rdata = readWord m (A.beatAddr a n) ∧ r.rlast = decide (n = 15)

variable {A m} {r : Reader} {i : Ports} {a : BitVec 32} {n : ℕ}

theorem Quiet.edge (h : r.Quiet) (hno : ¬ i.TakesAddr) : r.edge A m i = r := by
  simp only [Reader.edge, pass, accept, present, if_neg hno, h.rvalid, h.addrs, Bool.false_eq_true, false_and, if_false]

theorem Serving.present (haddrs : r.addrs = [a]) (hbeat : r.beat = n) (hvalid : r.rvalid = false) :
    (r.present A m i).Serving A m a n := by
  simp only [Reader.present, haddrs, hvalid, true_and]
  split_ifs
  · exact ⟨rfl, hbeat, fun _ => ⟨by rw [hbeat], by rw [hbeat]⟩⟩
  · exact ⟨haddrs, hbeat, fun h => absurd h (Bool.eq_false_iff.mp hvalid)⟩

@[simp] theorem present_bursts : (r.present A m i).bursts = r.bursts := by
  unfold Reader.present
  split
  · rfl
  · split_ifs <;> rfl

theorem Quiet.edge_accept (h : r.Quiet) (hyes : i.TakesAddr) :
    (r.edge A m i).Serving A m i.araddr 0 ∧ (r.edge A m i).bursts = r.bursts + 1 := by
  have hpass : r.pass i = r := by
    simp [pass, h.rvalid]
  rw [Reader.edge, hpass, accept, if_pos hyes, h.addrs]
  exact ⟨Serving.present rfl h.beat h.rvalid, present_bursts⟩

/-- A beat before the last is taken. -/
theorem Serving.edge_taken (h : r.Serving A m a n) (hn : n < 15) (hvalid : r.rvalid = true) (hready : i.rready = true)
    (hno : ¬ i.TakesAddr) : (r.edge A m i).Serving A m a (n + 1) ∧ (r.edge A m i).bursts = r.bursts := by
  have hlast : r.rlast = false := by
    rw [(h.shown hvalid).2]
    exact decide_eq_false (by omega)
  have hpass : r.pass i = { r with beat := r.beat + 1, rvalid := false } := by
    simp [pass, hvalid, hready, hlast]
  rw [Reader.edge, hpass, accept, if_neg hno]
  exact ⟨Serving.present h.addrs (congrArg (· + 1) h.beat) rfl, present_bursts⟩

/-- The last beat is taken. -/
theorem Serving.edge_last (h : r.Serving A m a 15) (hvalid : r.rvalid = true) (hready : i.rready = true)
    (hno : ¬ i.TakesAddr) : (r.edge A m i).Quiet ∧ (r.edge A m i).bursts = r.bursts := by
  have hlast : r.rlast = true := (h.shown hvalid).2
  have hpass : r.pass i = { r with addrs := r.addrs.tail, beat := 0, rvalid := false } := by
    simp [pass, hvalid, hready, hlast]
  rw [Reader.edge, hpass, accept, if_neg hno, h.addrs]
  exact ⟨⟨rfl, rfl, rfl⟩, rfl⟩

/-- No beat is shown. -/
theorem Serving.edge_waiting (h : r.Serving A m a n) (hvalid : r.rvalid = false) (hno : ¬ i.TakesAddr) :
    (r.edge A m i).Serving A m a n ∧ (r.edge A m i).bursts = r.bursts := by
  have hpass : r.pass i = r := by
    simp [pass, hvalid]
  rw [Reader.edge, hpass, accept, if_neg hno]
  exact ⟨Serving.present h.addrs h.beat hvalid, present_bursts⟩

end Reader

/-! ### Writing -/

structure Writer where
  mem : Mem
  addrs : List (BitVec 32)
  beats : List (BitVec 32 × BitVec 4)
  answers : ℕ
  bvalid : Bool
  bursts : ℕ

namespace Writer

/-- The master's signals, the slave's two ready inputs and whether it answers at this clock. -/
structure Ports where
  awvalid : Bool
  awaddr : BitVec 32
  awready : Bool
  wvalid : Bool
  wdata : BitVec 32
  wstrb : BitVec 4
  wready : Bool
  bready : Bool
  serve : Bool

def Ports.TakesAddr (i : Ports) : Prop := i.awvalid = true ∧ i.awready = true

def Ports.TakesData (i : Ports) : Prop := i.wvalid = true ∧ i.wready = true

instance (i : Ports) : Decidable i.TakesAddr := inferInstanceAs (Decidable (_ ∧ _))

instance (i : Ports) : Decidable i.TakesData := inferInstanceAs (Decidable (_ ∧ _))

def accept (w : Writer) (i : Ports) : Writer where
  mem := w.mem
  addrs := if i.TakesAddr then w.addrs ++ [i.awaddr] else w.addrs
  beats := if i.TakesData then w.beats ++ [(i.wdata, i.wstrb)] else w.beats
  answers := w.answers
  bvalid := w.bvalid && !i.bready
  bursts := if i.TakesAddr then w.bursts + 1 else w.bursts

variable (A : Addressing)

def commit (w : Writer) : Writer :=
  match w.addrs with
  | [] => w
  | a :: addrs =>
      if 16 ≤ w.beats.length then
        { w with mem := writeBeats w.mem (A.beatAddr a) 0 (w.beats.take 16), addrs := addrs, beats := w.beats.drop 16,
                 answers := w.answers + 1 }
      else w

def present (w : Writer) (i : Ports) : Writer :=
  if w.bvalid = false ∧ i.serve = true ∧ 0 < w.answers then { w with bvalid := true, answers := w.answers - 1 } else w

def edge (w : Writer) (i : Ports) : Writer := ((w.accept i).commit A).present i

/-- A burst is in memory and its answer has not been taken. -/
structure Answering (w : Writer) : Prop where
  addrs : w.addrs = []
  beats : w.beats = []
  answers : w.answers = if w.bvalid = true then 0 else 1

variable {A} {w : Writer} {i : Ports} {a : BitVec 32}

/-- As long as an address or a beat is missing, the slave only collects. -/
theorem edge_eq_accept (hanswers : w.answers = 0)
    (hmissing : (w.accept i).addrs = [] ∨ (w.accept i).beats.length < 16) : w.edge A i = w.accept i := by
  have hcommit : (w.accept i).commit A = w.accept i := by
    unfold commit
    split
    · rfl
    · rename_i b bs haddrs
      rcases hmissing with hm | hm
      · rw [haddrs] at hm
        cases hm
      · exact if_neg (by omega)
  have hnone : ¬ 0 < (w.accept i).answers := by
    rw [accept, hanswers]
    exact Nat.lt_irrefl 0
  rw [edge, hcommit, present, if_neg fun h => hnone h.2.2]

theorem answering_present (haddrs : w.addrs = []) (hbeats : w.beats = []) (hvalid : w.bvalid = false)
    (hanswers : w.answers = 1) : (w.present i).Answering := by
  unfold present
  split_ifs
  · exact ⟨haddrs, hbeats, by simp [hanswers]⟩
  · exact ⟨haddrs, hbeats, by simp [hvalid, hanswers]⟩

@[simp] theorem present_mem : (w.present i).mem = w.mem := by
  unfold present
  split_ifs <;> rfl

@[simp] theorem present_bursts : (w.present i).bursts = w.bursts := by
  unfold present
  split_ifs <;> rfl

/-- The clock at which the burst is complete. -/
theorem edge_commit (hanswers : w.answers = 0) (hvalid : w.bvalid = false) (haddrs : (w.accept i).addrs = [a])
    (hbeats : (w.accept i).beats.length = 16) :
    (w.edge A i).Answering ∧ (w.edge A i).mem = writeBeats w.mem (A.beatAddr a) 0 (w.accept i).beats ∧
      (w.edge A i).bursts = (w.accept i).bursts := by
  have hcommit : (w.accept i).commit A =
      { w.accept i with mem := writeBeats w.mem (A.beatAddr a) 0 (w.accept i).beats, addrs := [], beats := [],
                        answers := 1 } := by
    simp only [commit, haddrs]
    rw [if_pos (by omega), List.take_of_length_le (by omega), List.drop_eq_nil_of_le (by omega), accept, hanswers]
  rw [edge, hcommit]
  exact ⟨answering_present rfl rfl (by simp [accept, hvalid]) rfl, present_mem, present_bursts⟩

/-- A burst that is in memory stays there until its answer is shown. -/
theorem Answering.edge (h : w.Answering) (hvalid : w.bvalid = false) (haddr : ¬ i.TakesAddr) (hdata : ¬ i.TakesData) :
    (w.edge A i).Answering ∧ (w.edge A i).mem = w.mem ∧ (w.edge A i).bursts = w.bursts := by
  have hkeep : w.accept i = w := by
    obtain ⟨mem, addrs, beats, answers, bvalid, bursts⟩ := w
    cases hvalid
    simp [accept, haddr, hdata]
  have hcommit : w.commit A = w := by
    simp [commit, h.addrs]
  have hanswers : w.answers = 1 := by simpa [hvalid] using h.answers
  rw [Writer.edge, hkeep, hcommit]
  exact ⟨answering_present h.addrs h.beats hvalid hanswers, present_mem, present_bursts⟩

end Writer

end AxiMemory
