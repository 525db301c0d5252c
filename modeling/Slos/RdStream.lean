import Slos.BlockCount

/-!
# The stream through the read buffer

All three processes of `RdBuff`: the words it is given go into 256 blocks of 16 beats, and on request the words of the
blocks come out again one at a time. The flags are registers of their own, computed from the counts before the edge.
The counts stay below 2^31, so they are natural numbers here.
-/

namespace Slos.Odev.RdStream
open Clocked

structure Ports where
  rdata : BitVec 32
  rdataValid : Bool
  outreq : Bool

structure Reader where
  outCnt : ℕ
  outIdx : ℕ
  outBeatIdx : ℕ
  outdata : BitVec 32
  outvalid : Bool

structure Flags where
  full : Bool
  empty : Bool

structure State where
  write : RdBuff.State
  read : Reader
  flags : Flags

/-- The read process. -/
def Reader.edge (streamStart : Bool) (r : Reader) (rdBuff : ℕ → ℕ → BitVec 32) (outreq empty : Bool) : Reader :=
  if streamStart = false then { r with outCnt := 0, outIdx := 0, outBeatIdx := 0 }
  else if outreq = true ∧ empty = false then
    let r' := { r with
      outdata := rdBuff r.outIdx r.outBeatIdx
      outvalid := true
      outBeatIdx := r.outBeatIdx + 1 }
    if r.outBeatIdx = 15 then
      { r' with outBeatIdx := 0, outCnt := r.outCnt + 1, outIdx := (BitVec.ofNat 32 (r.outCnt + 1) &&& 0xFF#32).toNat }
    else r'
  else { r with outvalid := false, outdata := 0 }

/-- The process of the flags. -/
def Flags.edge (streamStart : Bool) (f : Flags) (inCnt outCnt : ℕ) (outreq rdataValid : Bool) : Flags :=
  if streamStart = false then ⟨false, false⟩
  else if inCnt = outCnt then { f with empty := true }
  else if inCnt = outCnt + 1 ∧ outreq = true ∧ rdataValid = false then { f with empty := true }
  else if inCnt = outCnt + 256 then { f with full := true }
  else if inCnt = outCnt + 255 ∧ outreq = false ∧ rdataValid = true then { f with full := true }
  else ⟨false, false⟩

def edge (streamStart : Bool) (s : State) (i : Ports) : State where
  write := RdBuff.edge streamStart s.write ⟨i.rdata, i.rdataValid⟩
  read := s.read.edge streamStart s.write.rdBuff i.outreq s.flags.empty
  flags := s.flags.edge streamStart s.write.inCnt s.read.outCnt i.outreq i.rdataValid

/-- The word on `OUTDATA`, if `OUTVALID` says so. -/
def State.shown (s : State) : List (BitVec 32) := if s.read.outvalid then [s.read.outdata] else []

/-- The word that is written at an edge, and the one the edge puts on the outputs. -/
def written (_ : State) (i : Ports) : List (BitVec 32) := if i.rdataValid then [i.rdata] else []

def output (s : State) (i : Ports) : List (BitVec 32) := (edge true s i).shown

/-- At every edge the words output so far are the first of those written before it. -/
def Delivers (s : State) (is : List Ports) : Prop :=
  s.shown = [] ∧ ∀ js i, js ++ [i] <+: is → trace (edge true) output s (js ++ [i]) <+: trace (edge true) written s js

/-- No block is started while 256 blocks are unread. -/
def Polite : State → List Ports → Prop
  | _, [] => True
  | s, i :: is => (i.rdataValid = true → s.write.inBeatIdx = 0 → s.write.inCnt < s.read.outCnt + 256) ∧
      Polite (edge true s i) is

def decidablePolite : ∀ s is, Decidable (Polite s is)
  | _, [] => isTrue trivial
  | s, i :: is => haveI := decidablePolite (edge true s i) is; inferInstanceAs (Decidable (_ ∧ _))

instance (s : State) (is : List Ports) : Decidable (Polite s is) := decidablePolite s is

/-- A buffer to which the words `ws` were given and which has output `os`. -/
structure Inv (s : State) (ws os : List (BitVec 32)) : Prop where
  inBeat : s.write.inBeatIdx < 16
  outBeat : s.read.outBeatIdx < 16
  given : ws.length = 16 * s.write.inCnt + s.write.inBeatIdx
  taken : os.length = 16 * s.read.outCnt + s.read.outBeatIdx
  inIdx : s.write.inIdx = s.write.inCnt % 256
  outIdx : s.read.outIdx = s.read.outCnt % 256
  pre : os <+: ws
  room : s.write.inCnt < s.read.outCnt + 256 ∨ s.write.inCnt = s.read.outCnt + 256 ∧ s.write.inBeatIdx = 0
  stored : ∀ p, os.length ≤ p → p < ws.length → ws[p]? = some (s.write.rdBuff (p / 16 % 256) (p % 16))
  ready : s.flags.empty = false → os.length < ws.length

theorem slot_eq (n : ℕ) : (BitVec.ofNat 32 n &&& 0xFF#32).toNat = n % 256 := by
  rw [BitVec.toNat_and, BitVec.toNat_ofNat]
  change n % 2 ^ 32 &&& 2 ^ 8 - 1 = n % 256
  rw [Nat.and_two_pow_sub_one_eq_mod]
  omega

section Edge

variable {s : State} {ws os : List (BitVec 32)}

/-- What the write process does at an edge. -/
theorem write_spec (h : Inv s ws os) (i : Ports) :
    let w := (edge true s i).write
    w.inBeatIdx < 16 ∧ 16 * w.inCnt + w.inBeatIdx = (ws ++ written s i).length ∧ w.inIdx = w.inCnt % 256 ∧
      s.write.inCnt ≤ w.inCnt ∧ ∀ a b, w.rdBuff a b =
        if i.rdataValid = true ∧ a = s.write.inIdx ∧ b = s.write.inBeatIdx then i.rdata else s.write.rdBuff a b := by
  have hbeat := h.inBeat
  have hgiven := h.given
  have hstore : ∀ a b, Function.update s.write.rdBuff s.write.inIdx
      (Function.update (s.write.rdBuff s.write.inIdx) s.write.inBeatIdx i.rdata) a b =
      if a = s.write.inIdx ∧ b = s.write.inBeatIdx then i.rdata else s.write.rdBuff a b := by
    intro a b
    by_cases ha : a = s.write.inIdx
    · rw [ha, Function.update_self]
      by_cases hb : b = s.write.inBeatIdx
      · rw [hb, Function.update_self, if_pos ⟨rfl, rfl⟩]
      · rw [Function.update_of_ne hb, if_neg fun hab => hb hab.2]
    · rw [Function.update_of_ne ha, if_neg fun hab => ha hab.1]
  cases hvalid : i.rdataValid with
  | false => simp [edge, RdBuff.edge, written, hvalid, hbeat, hgiven, h.inIdx]
  | true =>
    by_cases hlast : s.write.inBeatIdx = 15
    · simp only [edge, RdBuff.edge, written, hvalid, if_true, Bool.true_eq_false, if_false, hlast, List.length_append,
        List.length_singleton, slot_eq, true_and]
      rw [← hlast]
      exact ⟨by omega, by omega, by omega, hstore⟩
    · simp only [edge, RdBuff.edge, written, hvalid, if_true, Bool.true_eq_false, if_false, hlast, List.length_append,
        List.length_singleton, true_and]
      exact ⟨by omega, by omega, h.inIdx, by omega, hstore⟩

/-- The read process moves on by what it puts on the outputs. -/
theorem read_moves (hbeat : s.read.outBeatIdx < 16) (i : Ports) :
    let r := (edge true s i).read
    r.outBeatIdx < 16 ∧ 16 * r.outCnt + r.outBeatIdx = 16 * s.read.outCnt + s.read.outBeatIdx + (output s i).length ∧
      (s.read.outIdx = s.read.outCnt % 256 → r.outIdx = r.outCnt % 256) ∧ s.read.outCnt ≤ r.outCnt ∧ output s i =
        if i.outreq = true ∧ s.flags.empty = false then [s.write.rdBuff s.read.outIdx s.read.outBeatIdx] else [] := by
  by_cases hreq : i.outreq = true ∧ s.flags.empty = false
  · have hout : output s i = [s.write.rdBuff s.read.outIdx s.read.outBeatIdx] := by
      by_cases hlast : s.read.outBeatIdx = 15 <;> simp [output, State.shown, edge, Reader.edge, hreq, hlast]
    by_cases hlast : s.read.outBeatIdx = 15
    · simp only [hout, edge, Reader.edge, hreq, hlast, if_true, Bool.true_eq_false, if_false, List.length_singleton, slot_eq,
        true_and]
      exact ⟨by omega, by omega, fun _ => trivial, by omega, trivial⟩
    · simp only [hout, edge, Reader.edge, hreq, hlast, if_true, Bool.true_eq_false, if_false, List.length_singleton, true_and]
      exact ⟨by omega, by omega, fun h => h, by omega, by simp⟩
  · have hout : output s i = [] := by simp [output, State.shown, edge, Reader.edge, hreq]
    simp only [hout, edge, Reader.edge, hreq, Bool.true_eq_false, if_false, List.length_nil, Nat.add_zero]
    exact ⟨hbeat, trivial, fun h => h, Nat.le_refl _, trivial⟩

/-- What the read process does at an edge. -/
theorem read_spec (h : Inv s ws os) (i : Ports) :
    let r := (edge true s i).read
    r.outBeatIdx < 16 ∧ 16 * r.outCnt + r.outBeatIdx = (os ++ output s i).length ∧ r.outIdx = r.outCnt % 256 ∧
      s.read.outCnt ≤ r.outCnt ∧ output s i =
        if i.outreq = true ∧ s.flags.empty = false then [s.write.rdBuff s.read.outIdx s.read.outBeatIdx] else [] := by
  obtain ⟨hbeat, hmoves, hidx, hle, hout⟩ := read_moves h.outBeat i
  refine ⟨hbeat, ?_, hidx h.outIdx, hle, hout⟩
  rw [List.length_append, h.taken]
  exact hmoves

/-- The next word, when there is one. -/
theorem output_eq (h : Inv s ws os) (i : Ports) : output s i =
    if i.outreq = true ∧ s.flags.empty = false then ws[os.length]?.toList else [] := by
  obtain ⟨-, -, -, -, hout⟩ := read_spec h i
  have htaken := h.taken
  have hbeat := h.outBeat
  rw [hout]
  split_ifs with hreq
  · have hslot : s.read.outIdx = os.length / 16 % 256 := by
      rw [h.outIdx]
      omega
    have hidx : s.read.outBeatIdx = os.length % 16 := by omega
    rw [h.stored os.length (Nat.le_refl _) (h.ready hreq.2), hslot, hidx]
    rfl
  · rfl

theorem output_prefix (h : Inv s ws os) (i : Ports) : os ++ output s i <+: ws := by
  rw [output_eq h]
  split_ifs with hreq
  · obtain ⟨rest, hrest⟩ := h.pre
    have hlt := h.ready hreq.2
    rw [← hrest, List.length_append] at hlt
    obtain ⟨w, rest', rfl⟩ := List.exists_cons_of_length_pos (by omega : 0 < rest.length)
    rw [← hrest, List.getElem?_append_right (Nat.le_refl _), Nat.sub_self]
    exact ⟨rest', by simp⟩
  · rw [List.append_nil]
    exact h.pre

/-- The flag never says that there is a word where there is none. -/
theorem ready_edge (h : Inv s ws os) (i : Ports) (hempty : (edge true s i).flags.empty = false) :
    (os ++ output s i).length < (ws ++ written s i).length := by
  have hgiven := h.given
  have htaken := h.taken
  have hin := h.inBeat
  have hout := h.outBeat
  have hle : os.length ≤ ws.length := h.pre.length_le
  have hcount : (output s i).length = if i.outreq = true ∧ s.flags.empty = false then 1 else 0 := by
    obtain ⟨-, -, -, -, hout⟩ := read_spec h i
    rw [hout]
    split_ifs <;> rfl
  have hcount' : (written s i).length = if i.rdataValid = true then 1 else 0 := by
    rw [written]
    split_ifs <;> rfl
  simp only [edge, Flags.edge, Bool.true_eq_false, if_false] at hempty
  rw [List.length_append, List.length_append, hcount, hcount']
  by_cases heq : s.write.inCnt = s.read.outCnt
  · rw [if_pos heq] at hempty
    cases hempty
  rw [if_neg heq] at hempty
  by_cases hone : s.write.inCnt = s.read.outCnt + 1
  · cases hreq : i.outreq with
    | false =>
      rw [if_neg (by simp)]
      omega
    | true =>
      cases hvalid : i.rdataValid with
      | false =>
        rw [if_pos ⟨hone, hreq, hvalid⟩] at hempty
        cases hempty
      | true =>
        rw [if_pos (rfl : true = true)]
        split_ifs <;> omega
  · split_ifs <;> omega

theorem Inv.edge (h : Inv s ws os) (i : Ports)
    (hp : i.rdataValid = true → s.write.inBeatIdx = 0 → s.write.inCnt < s.read.outCnt + 256) :
    Inv (edge true s i) (ws ++ written s i) (os ++ output s i) := by
  obtain ⟨hin, hgiven, hinIdx, hinCnt, hstore⟩ := write_spec h i
  obtain ⟨hout, htaken, houtIdx, houtCnt, -⟩ := read_spec h i
  have hgiven₀ := h.given
  have htaken₀ := h.taken
  have hin₀ := h.inBeat
  have hroom := h.room
  have hlen : (written s i).length = if i.rdataValid = true then 1 else 0 := by
    rw [written]
    split_ifs <;> rfl
  constructor
  · exact hin
  · exact hout
  · exact hgiven.symm
  · exact htaken.symm
  · exact hinIdx
  · exact houtIdx
  · obtain ⟨rest, hrest⟩ := output_prefix h i
    exact ⟨rest ++ written s i, by rw [← List.append_assoc, hrest]⟩
  · rw [List.length_append, hlen] at hgiven
    split_ifs at hgiven with hvalid
    · have hstart := hp hvalid
      omega
    · omega
  · intro p hlo hhi
    have hp₀ : os.length ≤ p := by
      rw [List.length_append] at hlo
      omega
    rw [hstore]
    rw [List.length_append, hlen] at hhi
    by_cases hnew : p < ws.length
    · rw [List.getElem?_append_left hnew, h.stored p hp₀ hnew, if_neg]
      rintro ⟨hvalid, hslot, hbeat⟩
      have hstart := hp hvalid
      rw [h.inIdx] at hslot
      omega
    · split_ifs at hhi with hvalid
      · have hpeq : p = ws.length := by omega
        have hslot : p / 16 % 256 = s.write.inIdx := by
          rw [h.inIdx]
          omega
        rw [if_pos ⟨hvalid, hslot, by omega⟩, hpeq, written, if_pos hvalid, List.getElem?_concat_length]
      · omega
  · exact ready_edge h i

theorem Polite.initial {is js : List Ports} (h : Polite s is) (hpre : js <+: is) : Polite s js := by
  induction js generalizing s is with
  | nil => trivial
  | cons j js ih =>
    obtain ⟨rest, rfl⟩ := hpre
    exact ⟨h.1, ih h.2 (List.prefix_append js rest)⟩

theorem inv_run (h : Inv s ws os) {is : List Ports} (hp : Polite s is) :
    Inv (run (RdStream.edge true) s is) (ws ++ trace (RdStream.edge true) written s is)
      (os ++ trace (RdStream.edge true) output s is) := by
  induction is generalizing s ws os with
  | nil => simpa using h
  | cons i is ih =>
    have hrest := ih (h.edge i hp.1) hp.2
    simpa only [trace_cons, run_cons, List.append_assoc] using hrest

end Edge

section Start

variable (s₀ : State) (i₀ : Ports)

/-- A first clock without a request fills the gap between the reset values of the flags and the empty buffer. -/
theorem first_edge {i : Ports} (hreq : i.outreq = false) :
    output (edge false s₀ i₀) i = [] ∧ Inv (edge true (edge false s₀ i₀) i) (written (edge false s₀ i₀) i) [] := by
  constructor
  · simp [output, State.shown, edge, Reader.edge, hreq]
  cases hvalid : i.rdataValid with
  | false =>
    constructor <;> simp [edge, RdBuff.edge, Reader.edge, Flags.edge, written, hreq, hvalid]
  | true =>
    constructor <;> simp [edge, RdBuff.edge, Reader.edge, Flags.edge, written, hreq, hvalid]

theorem shown_start : (edge false s₀ i₀).shown = s₀.shown := by
  simp [State.shown, edge, Reader.edge]

end Start

/-- From the rise of `RDBUFF_STREAM_START` on the buffer delivers the words it is given, in order, exactly if `OUTVALID`
was left low and there is no request at the first clock. -/
theorem delivers_iff (s₀ : State) (i₀ : Ports) (is : List Ports) (hp : Polite (edge false s₀ i₀) is) :
    Delivers (edge false s₀ i₀) is ↔ s₀.read.outvalid = false ∧ ∀ i, is.head? = some i → i.outreq = false := by
  have hshown : (edge false s₀ i₀).shown = [] ↔ s₀.read.outvalid = false := by
    rw [shown_start, State.shown]
    cases s₀.read.outvalid <;> simp
  unfold Delivers
  rw [hshown]
  constructor
  · rintro ⟨hvalid, hpre⟩
    refine ⟨hvalid, fun i hi => ?_⟩
    obtain ⟨is, rfl⟩ := List.head?_eq_some_iff.mp hi
    have hfirst := hpre [] i (by simp)
    by_contra hreq
    rw [Bool.not_eq_false] at hreq
    have hout : output (edge false s₀ i₀) i ≠ [] := by
      simp [output, State.shown, edge, Reader.edge, Flags.edge, hreq]
    simp at hfirst
    exact hout hfirst
  · rintro ⟨hvalid, hreq⟩
    refine ⟨hvalid, fun js j hjs => ?_⟩
    cases is with
    | nil => simp at hjs
    | cons i is =>
      obtain ⟨hout, hinv⟩ := first_edge s₀ i₀ (hreq i rfl)
      cases js with
      | nil =>
        obtain ⟨rfl, -⟩ := List.cons_prefix_cons.mp hjs
        simp [hout]
      | cons i' js =>
        obtain ⟨rfl, htail⟩ := List.cons_prefix_cons.mp hjs
        have hrun := inv_run hinv (hp.2.initial ((List.prefix_append js [j]).trans htail))
        have hnext := output_prefix hrun j
        rw [List.cons_append, trace_cons, trace_cons, hout, List.nil_append, trace_append]
        simpa using hnext

/-- Sixteen words written, and read once the block is complete. -/
def oneBlock : List Ports :=
  (List.range 16).map (fun n => ⟨BitVec.ofNat 32 n, true, false⟩) ++ List.replicate 17 ⟨0, false, true⟩

def stopped : State where
  write := { rdBuff := fun _ _ => 0xDEAD#32, inCnt := 0, inIdx := 0, inBeatIdx := 0, seqErr := false, rdbuffblkcnt := 1 }
  read := { outCnt := 0, outIdx := 0, outBeatIdx := 0, outdata := 0, outvalid := false }
  flags := ⟨false, false⟩

theorem delivers_oneBlock : Delivers (edge false stopped ⟨0, false, false⟩) oneBlock := by
  apply (delivers_iff stopped ⟨0, false, false⟩ oneBlock ?_).mpr
  · exact ⟨rfl, fun i hi => by cases hi; rfl⟩
  · decide +kernel

/-- A consumer that asks at the first clock gets what the memory held before, and the first word is passed over. -/
theorem stale_word_first : ¬ Delivers (edge false stopped ⟨0, false, false⟩) [⟨1, true, true⟩] := by
  intro h
  have hfirst := h.2 [] ⟨1, true, true⟩ (List.prefix_refl _)
  exact absurd hfirst (by decide)

end Slos.Odev.RdStream
