import Mathlib.Data.Int.Basic
import Slos.Clocked
import Slos.RingBuffer

/-!
# The instruction table

`Itab`, clock by clock. Its three processes read the signals as they were before the edge; an edge gives each
process's signals their new values at once. VHDL integers are taken below `2 ^ 31`.
-/

namespace Slos.Itab
open Clocked

/-- A row of `ItabMem`: the source address above the source length. -/
structure Entry where
  srcAddr : BitVec 32
  srcLen : BitVec 16
deriving DecidableEq, Repr

/-- The addresses of the bursts of 64 bytes that an entry asks for, at least one. -/
def Entry.bursts (e : Entry) : List (BitVec 32) :=
  (List.range (max 1 ((e.srcLen.toNat + 63) / 64))).map fun k => e.srcAddr + BitVec.ofNat 32 (64 * k)

def itabEntries : ℕ := 512

structure Ports where
  src : Entry
  inTransValid : Bool
  outTransReq : Bool

/-- The signals of the process that reads the table. -/
structure OutRegs where
  srcOut : Entry
  outCount : ℕ
  outPos : ℕ
  outValid : Bool

/-- The signals of the process that writes the table. -/
structure InRegs where
  itabMem : ℕ → Entry
  inCount : ℕ
  inPos : ℕ
  inTransDone : Bool

structure Flags where
  full : Bool
  empty : Bool

structure State extends OutRegs, InRegs, Flags

def clearEntry : Entry := ⟨0, 0⟩

/-- `to_integer(unsigned(std_logic_vector(to_unsigned(count, 32)) AND x"0000_01FF"))`. -/
def position (count : ℕ) : ℕ := (BitVec.ofNat 32 count &&& 0x1FF#32).toNat

def held (s : State) : ℤ := s.inCount - s.outCount

def outProcess (gStart : Bool) (s : State) (i : Ports) : OutRegs :=
  if gStart = false then ⟨clearEntry, 0, 0, false⟩
  else if i.outTransReq then
    if s.outCount < s.inCount then ⟨s.itabMem s.outPos, s.outCount + 1, position (s.outCount + 1), true⟩
    else s.toOutRegs
  else { s.toOutRegs with srcOut := clearEntry, outValid := false }

def inProcess (gStart : Bool) (s : State) (i : Ports) : InRegs :=
  if gStart = false then { s.toInRegs with inCount := 0, inPos := 0, inTransDone := false }
  else if i.inTransValid then
    if held s < itabEntries then
      ⟨Function.update s.itabMem s.inPos i.src, s.inCount + 1, position (s.inCount + 1), true⟩
    else { s.toInRegs with inTransDone := false }
  else { s.toInRegs with inTransDone := false }

def flagProcess (gStart : Bool) (s : State) (i : Ports) : Flags :=
  if gStart = false then ⟨false, true⟩
  else if held s = itabEntries - 1 ∧ i.inTransValid ∧ ¬ i.outTransReq then { s.toFlags with full := true }
  else if held s = itabEntries then { s.toFlags with full := true }
  else if held s = 1 ∧ i.outTransReq ∧ ¬ i.inTransValid then { s.toFlags with empty := true }
  else if held s = 0 then { s.toFlags with empty := true }
  else ⟨false, false⟩

def edge (gStart : Bool) (s : State) (i : Ports) : State :=
  { toOutRegs := outProcess gStart s i, toInRegs := inProcess gStart s i, toFlags := flagProcess gStart s i }

section Runs

/-- The entry that is accepted at an edge. -/
def acceptedAt (s : State) (i : Ports) : List Entry :=
  if i.inTransValid ∧ held s < itabEntries then [i.src] else []

/-- The entry that is read out at an edge at which a pop happens. -/
def readAt (s : State) (i : Ports) : List Entry :=
  if i.outTransReq ∧ 0 < held s then [(edge true s i).srcOut] else []

/-- The rows of entries `a` to `a + n - 1`. -/
def rows (mem : ℕ → Entry) (a n : ℕ) : List Entry := (List.range' a n).map fun k => mem (k % itabEntries)

/-- The entries that are held, the oldest first. -/
def contents (s : State) : List Entry := rows s.itabMem s.outCount (s.inCount - s.outCount)

def offer (i : Ports) : Offer Entry := ⟨if i.inTransValid then [i.src] else [], i.outTransReq⟩

/-- An edge is one of a bounded queue of the entries held, whose rows it leaves alone. -/
structure QueueEdge (s : State) (i : Ports) : Prop where
  contents : contents (edge true s i) = next itabEntries (contents s) (offer i)
  accepted : acceptedAt s i = Clocked.accepted itabEntries (Itab.contents s) (offer i)
  readOut : readAt s i = popped (Itab.contents s) (offer i)
  kept : ∀ k, s.outCount ≤ k → k < s.inCount → (edge true s i).itabMem (k % itabEntries) = s.itabMem (k % itabEntries)
  done : (edge true s i).inTransDone = true ↔ acceptedAt s i ≠ []

structure Inv (s : State) : Prop where
  inPos : s.inPos = s.inCount % itabEntries
  outPos : s.outPos = s.outCount % itabEntries
  out_le : s.outCount ≤ s.inCount
  in_le : s.inCount ≤ s.outCount + itabEntries
  full : s.inCount = s.outCount + itabEntries → s.full = true
  empty : s.inCount = s.outCount → s.empty = true

theorem position_eq (n : ℕ) : position n = n % itabEntries := by
  have hmask : (0x1FF#32).toNat = 2 ^ 9 - 1 := rfl
  unfold position
  rw [BitVec.toNat_and, hmask, Nat.and_two_pow_sub_one_eq_mod, BitVec.toNat_ofNat,
    Nat.mod_mod_of_dvd _ (by decide)]
  rfl

section Rows

variable {mem : ℕ → Entry} {a n : ℕ}

@[simp] theorem rows_length : (rows mem a n).length = n := by
  simp [rows]

theorem rows_drop : (rows mem a n).drop 1 = rows mem (a + 1) (n - 1) := by
  simp [rows, ← List.map_drop]

theorem rows_head : (rows mem a n).take 1 = if 0 < n then [mem (a % itabEntries)] else [] := by
  cases n with
  | zero => rfl
  | succ n => simp [rows, List.range'_succ]

/-- Fewer rows are held than the table has, so the row that is written is none of them. -/
theorem rows_update (hn : n < itabEntries) (e : Entry) :
    rows (Function.update mem ((a + n) % itabEntries) e) a (n + 1) = rows mem a n ++ [e] := by
  unfold rows
  rw [List.range'_1_concat, List.map_append]
  congr 1
  · apply List.map_congr_left
    intro k hk
    obtain ⟨-, hlt⟩ := List.mem_range'_1.mp hk
    have hle := (List.mem_range'_1.mp hk).1
    exact Function.update_of_ne (RingBuffer.mod_ne_of_lt hlt (by omega)) _ _
  · simp

end Rows

variable {s : State} {i : Ports}

theorem edge_outCount (s : State) (i : Ports) :
    (edge true s i).outCount = s.outCount + if i.outTransReq ∧ s.outCount < s.inCount then 1 else 0 := by
  simp only [edge, outProcess, Bool.true_eq_false, if_false]
  cases i.outTransReq with
  | false => simp
  | true => by_cases hheld : s.outCount < s.inCount <;> simp [hheld]

theorem edge_inCount (s : State) (i : Ports) :
    (edge true s i).inCount = s.inCount + if i.inTransValid ∧ held s < itabEntries then 1 else 0 := by
  simp only [edge, inProcess, Bool.true_eq_false, if_false]
  cases i.inTransValid with
  | false => simp
  | true => by_cases hheld : held s < itabEntries <;> simp [hheld]

theorem edge_inTransDone (s : State) (i : Ports) :
    (edge true s i).inTransDone = true ↔ i.inTransValid ∧ held s < itabEntries := by
  simp only [edge, inProcess, Bool.true_eq_false, if_false]
  cases i.inTransValid with
  | false => simp
  | true => by_cases hheld : held s < itabEntries <;> simp [hheld]

theorem edge_itabMem (s : State) (i : Ports) :
    (edge true s i).itabMem =
      if i.inTransValid ∧ held s < itabEntries then Function.update s.itabMem s.inPos i.src else s.itabMem := by
  simp only [edge, inProcess, Bool.true_eq_false, if_false]
  cases i.inTransValid with
  | false => simp
  | true => by_cases hheld : held s < itabEntries <;> simp [hheld]

theorem edge_srcOut (hreq : i.outTransReq = true) (hheld : s.outCount < s.inCount) :
    (edge true s i).srcOut = s.itabMem s.outPos := by
  simp [edge, outProcess, hreq, hheld]

theorem Inv.edge_outPos (h : Inv s) (i : Ports) :
    (edge true s i).outPos = (edge true s i).outCount % itabEntries := by
  have hpos := h.outPos
  simp only [edge, outProcess, Bool.true_eq_false, if_false]
  cases i.outTransReq with
  | false => simpa using hpos
  | true => by_cases hheld : s.outCount < s.inCount <;> simp [hheld, hpos, position_eq]

theorem Inv.edge_inPos (h : Inv s) (i : Ports) :
    (edge true s i).inPos = (edge true s i).inCount % itabEntries := by
  have hpos := h.inPos
  simp only [edge, inProcess, Bool.true_eq_false, if_false]
  cases i.inTransValid with
  | false => simpa using hpos
  | true => by_cases hheld : held s < itabEntries <;> simp [hheld, hpos, position_eq]

theorem edge_full (h : held s = itabEntries ∨ held s = itabEntries - 1 ∧ i.inTransValid ∧ ¬ i.outTransReq) :
    (edge true s i).full = true := by
  change (flagProcess true s i).full = true
  rcases h with hall | hlast
  · simp only [flagProcess, hall, Bool.true_eq_false, if_false, if_true]
    split <;> rfl
  · simp only [flagProcess, if_pos hlast, Bool.true_eq_false, if_false]

theorem edge_empty (h : held s = 0 ∨ held s = 1 ∧ i.outTransReq ∧ ¬ i.inTransValid) :
    (edge true s i).empty = true := by
  have hsize : (itabEntries : ℤ) = 512 := rfl
  change (flagProcess true s i).empty = true
  unfold flagProcess
  rw [if_neg (by decide), if_neg (by omega), if_neg (by omega)]
  rcases h with hnone | hlast
  · rw [if_pos hnone]
    split <;> rfl
  · rw [if_pos hlast]

/-- The other flag is kept when the table is full or about to be. -/
theorem of_empty (hkept : s.empty = true → held s ≤ 1) (h : (edge true s i).empty = true) :
    held s = 0 ∨ held s = 1 ∧ i.outTransReq ∧ ¬ i.inTransValid := by
  have hsize : (itabEntries : ℤ) = 512 := rfl
  change (flagProcess true s i).empty = true at h
  unfold flagProcess at h
  rw [if_neg (by decide)] at h
  split at h
  next hfull =>
    have hle := hkept h
    omega
  next =>
    split at h
    next hfull =>
      have hle := hkept h
      omega
    next =>
      split at h
      next hlast => exact Or.inr hlast
      next =>
        split at h
        next hnone => exact Or.inl hnone
        next => cases h

/-- The flags look ahead: they are raised at the edge at which the last place is taken or the last entry goes. -/
theorem Inv.edge (h : Inv s) (i : Ports) : Inv (edge true s i) := by
  have hsize : itabEntries = 512 := rfl
  have hle := h.out_le
  have hcap := h.in_le
  have hheld : held s = s.inCount - s.outCount := rfl
  have hout := edge_outCount s i
  have hin := edge_inCount s i
  constructor
  · exact h.edge_inPos i
  · exact h.edge_outPos i
  · rw [hout, hin]
    split <;> split <;> omega
  · rw [hout, hin]
    split <;> split <;> omega
  · intro hfull
    apply edge_full
    rw [hout, hin] at hfull
    split at hfull <;> split at hfull <;> grind
  · intro hempty
    apply edge_empty
    rw [hout, hin] at hempty
    split at hempty <;> split at hempty <;> grind

theorem Inv.held_eq (h : Inv s) : held s = ((contents s).length : ℤ) := by
  have hle := h.out_le
  rw [contents, rows_length, held]
  omega

theorem Inv.accepted_eq (h : Inv s) (i : Ports) : acceptedAt s i = accepted itabEntries (contents s) (offer i) := by
  unfold acceptedAt accepted offer
  rw [h.held_eq]
  cases i.inTransValid with
  | false => simp
  | true => simp

theorem Inv.readAt_eq (h : Inv s) (i : Ports) : readAt s i = popped (contents s) (offer i) := by
  have hheld : held s = s.inCount - s.outCount := rfl
  unfold readAt popped offer contents
  rw [rows_head]
  cases hreq : i.outTransReq with
  | false => simp
  | true =>
      by_cases hlt : s.outCount < s.inCount
      · rw [if_pos ⟨rfl, by omega⟩, if_pos rfl, if_pos (by omega), edge_srcOut hreq hlt, h.outPos]
      · rw [if_neg (by omega), if_pos rfl, if_neg (by omega)]

theorem Inv.kept (h : Inv s) (i : Ports) {k : ℕ} (hout : s.outCount ≤ k) (hin : k < s.inCount) :
    (Itab.edge true s i).itabMem (k % itabEntries) = s.itabMem (k % itabEntries) := by
  have hheld : held s = s.inCount - s.outCount := rfl
  rw [edge_itabMem]
  split
  next haccept =>
    rw [h.inPos]
    exact Function.update_of_ne (RingBuffer.mod_ne_of_lt hin (by omega)) _ _
  next => rfl

theorem Inv.contents_eq (h : Inv s) (i : Ports) :
    contents (Itab.edge true s i) = next itabEntries (contents s) (offer i) := by
  have hheld : held s = s.inCount - s.outCount := rfl
  have hle := h.out_le
  have hmem : rows (Itab.edge true s i).itabMem s.outCount ((Itab.edge true s i).inCount - s.outCount) =
      contents s ++ acceptedAt s i := by
    rw [edge_itabMem, edge_inCount, acceptedAt]
    split
    next hroom =>
      have hpos : s.inPos = (s.outCount + (s.inCount - s.outCount)) % itabEntries := by
        rw [h.inPos, Nat.add_sub_cancel' hle]
      rw [hpos, Nat.sub_add_comm hle, rows_update (by omega), contents]
    next => simp [contents]
  rw [next, ← h.accepted_eq i]
  by_cases hpop : i.outTransReq ∧ s.outCount < s.inCount
  · have hsome : 1 ≤ (contents s).length := by
      rw [contents, rows_length]
      omega
    have hdrop : contents (Itab.edge true s i) = (contents s ++ acceptedAt s i).drop 1 := by
      rw [← hmem, rows_drop, contents, edge_outCount, if_pos hpop, Nat.sub_sub]
    rw [hdrop, List.drop_append_of_le_length hsome]
    exact congrArg (· ++ acceptedAt s i) (if_pos hpop.1).symm
  · have hsame : contents (Itab.edge true s i) = contents s ++ acceptedAt s i := by
      rw [← hmem, contents, edge_outCount, if_neg hpop, Nat.add_zero]
    have hkept : (if (offer i).pop then (contents s).drop 1 else contents s) = contents s := by
      split
      next hreq =>
        have hnone : contents s = [] := by
          rw [← List.length_eq_zero_iff, contents, rows_length]
          have hlt : ¬ s.outCount < s.inCount := fun hlt => hpop ⟨hreq, hlt⟩
          omega
        rw [hnone, List.drop_nil]
      next => rfl
    rw [hsame, hkept]

theorem Inv.conserved (s : State) (i : Ports) (h : Inv s) :
    contents s ++ acceptedAt s i = readAt s i ++ contents (Itab.edge true s i) := by
  rw [h.accepted_eq, h.readAt_eq, h.contents_eq, popped_append_next]

theorem Inv.queueEdge (h : Inv s) (i : Ports) : QueueEdge s i := by
  constructor
  · exact h.contents_eq i
  · exact h.accepted_eq i
  · exact h.readAt_eq i
  · exact fun k => h.kept i
  · rw [edge_inTransDone, acceptedAt]
    split <;> simp_all

theorem inv_reset (s : State) (i : Ports) : Inv (edge false s i) := by
  constructor <;> simp [edge, inProcess, outProcess, flagProcess, itabEntries]

/-- What the table is after a run. -/
structure RefinesQueue (s : State) (is : List Ports) : Prop where
  readOut : trace (edge true) readAt s is <+: trace (edge true) acceptedAt s is
  rest : trace (edge true) acceptedAt s is = trace (edge true) readAt s is ++ contents (run (edge true) s is)
  held_le : held (run (edge true) s is) ≤ itabEntries
  full : held (run (edge true) s is) = itabEntries → (run (edge true) s is).full = true
  empty : held (run (edge true) s is) = 0 → (run (edge true) s is).empty = true
  next : ∀ i, QueueEdge (run (edge true) s is) i

/-- `edge false` is the reset; from it on `ITAB_G_START` is 1. -/
theorem refines_queue (s : State) (i : Ports) (is : List Ports) : RefinesQueue (edge false s i) is := by
  have hinv : Inv (run (edge true) (edge false s i) is) := run_invariant (fun s i h => h.edge i) (inv_reset s i) is
  have hrest : trace (edge true) acceptedAt (edge false s i) is =
      trace (edge true) readAt (edge false s i) is ++ contents (run (edge true) (edge false s i) is) :=
    trace_conserved contents (fun s i h => h.edge i) Inv.conserved (inv_reset s i) is
  have hcap := hinv.in_le
  constructor
  · exact hrest ▸ List.prefix_append _ _
  · exact hrest
  · unfold held
    omega
  · intro hfull
    apply hinv.full
    unfold held at hfull
    omega
  · intro hempty
    apply hinv.empty
    unfold held at hempty
    omega
  · exact hinv.queueEdge

end Runs

end Slos.Itab
