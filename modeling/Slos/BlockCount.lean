import Mathlib.Logic.Function.Basic
import Mathlib.Tactic.Common
import Slos.Clocked

/-!
# The block counters

`RdBuff` and `DataConsumer` both expect the first word of a block of 16 beats to be the number of the block, which
starts from 1 again after the wrap-around. Here are the write process of the one and the check process of the other.
-/

namespace Slos.Odev
open Clocked

/-- 4096 stream wrap-around. -/
def intWrapAround : ℕ := 4096 * 4

/-- The number of the block after the one with number `cnt`. -/
def nextBlock (cnt : ℕ) : ℕ := if cnt = intWrapAround then 1 else cnt + 1

/-- The beat `b` is beat `idx` of the block with number `cnt`. -/
def Counts (b idx cnt : ℕ) : Prop := idx = b % 16 ∧ cnt = b / 16 % intWrapAround + 1

theorem counts_zero : Counts 0 0 1 := by
  constructor <;> rfl

theorem Counts.next {b idx cnt : ℕ} (h : Counts b idx cnt) :
    Counts (b + 1) (if idx = 15 then 0 else idx + 1) (if idx = 15 then nextBlock cnt else cnt) := by
  obtain ⟨hidx, hcnt⟩ := h
  have hwrap : intWrapAround = 16384 := rfl
  rw [hwrap] at hcnt
  rw [Counts, nextBlock, hwrap]
  by_cases hlast : idx = 15
  · rw [if_pos hlast, if_pos hlast]
    split <;> omega
  · rw [if_neg hlast, if_neg hlast]
    omega

/-- The first word of each block is its number. -/
def Numbered (bs : List (BitVec 32)) : Prop :=
  ∀ n w, bs[16 * n]? = some w → w.toNat = n % intWrapAround + 1

theorem Numbered.of_append {bs cs : List (BitVec 32)} (h : Numbered (bs ++ cs)) : Numbered bs := by
  intro n w hw
  apply h n w
  rw [List.getElem?_append_left (List.getElem?_eq_some_iff.mp hw).1, hw]

/-- The first word of a block is compared with its number. -/
theorem Counts.first {bs : List (BitVec 32)} {w : BitVec 32} {cnt : ℕ} (h : Counts bs.length 0 cnt)
    (hnum : Numbered (bs ++ [w])) : w.toNat = cnt := by
  obtain ⟨hidx, hcnt⟩ := h
  have hlen : 16 * (bs.length / 16) = bs.length := by omega
  rw [hcnt]
  apply hnum
  rw [hlen, List.getElem?_concat_length]

namespace RdBuff

structure Ports where
  rdata : BitVec 32
  rdataValid : Bool

structure State where
  rdBuff : ℕ → ℕ → BitVec 32
  inCnt : ℕ
  inIdx : ℕ
  inBeatIdx : ℕ
  seqErr : Bool
  rdbuffblkcnt : ℕ

def edge (streamStart : Bool) (s : State) (i : Ports) : State :=
  if streamStart = false then
    { s with inCnt := 0, inIdx := 0, inBeatIdx := 0, seqErr := false, rdbuffblkcnt := 1 }
  else if i.rdataValid then
    let s' := { s with
      rdBuff := Function.update s.rdBuff s.inIdx (Function.update (s.rdBuff s.inIdx) s.inBeatIdx i.rdata)
      inBeatIdx := s.inBeatIdx + 1
      seqErr := if s.inBeatIdx = 0 ∧ i.rdata.toNat ≠ s.rdbuffblkcnt then true else s.seqErr }
    if s.inBeatIdx = 15 then
      { s' with inBeatIdx := 0, inCnt := s.inCnt + 1, inIdx := (BitVec.ofNat 32 (s.inCnt + 1) &&& 0xFF#32).toNat,
                rdbuffblkcnt := nextBlock s.rdbuffblkcnt }
    else s'
  else s

/-- The beat that is taken at an edge. -/
def beat (_ : State) (i : Ports) : List (BitVec 32) := if i.rdataValid then [i.rdata] else []

/-- The beats that were taken are counted, and there is no error while they are numbered. -/
structure Inv (s : State) (bs : List (BitVec 32)) : Prop where
  counts : Counts bs.length s.inBeatIdx s.rdbuffblkcnt
  seqErr : Numbered bs → s.seqErr = false

theorem Inv.edge {s : State} {bs : List (BitVec 32)} (h : Inv s bs) (i : Ports) :
    Inv (edge true s i) (bs ++ beat s i) := by
  unfold beat RdBuff.edge
  cases hvalid : i.rdataValid with
  | false => simpa using h
  | true =>
      have hnext := h.counts.next
      have herr (hnum : Numbered (bs ++ [i.rdata])) :
          (if s.inBeatIdx = 0 ∧ i.rdata.toNat ≠ s.rdbuffblkcnt then true else s.seqErr) = false := by
        rw [if_neg, h.seqErr hnum.of_append]
        rintro ⟨hfirst, hne⟩
        have hcounts := h.counts
        rw [hfirst] at hcounts
        exact hne (hcounts.first hnum)
      rw [if_neg (by decide), if_pos rfl, if_pos rfl]
      by_cases hlast : s.inBeatIdx = 15
      · rw [if_pos hlast, if_pos hlast] at hnext
        rw [if_pos hlast]
        exact ⟨by simpa using hnext, herr⟩
      · rw [if_neg hlast, if_neg hlast] at hnext
        rw [if_neg hlast]
        exact ⟨by simpa using hnext, herr⟩

theorem inv_run (s : State) (i : Ports) (is : List Ports) :
    Inv (run (RdBuff.edge true) (RdBuff.edge false s i) is)
      (trace (RdBuff.edge true) beat (RdBuff.edge false s i) is) :=
  trace_invariant (fun _ _ i h => h.edge i) [] ⟨counts_zero, fun _ => rfl⟩ is

end RdBuff

namespace DataConsumer

structure Ports where
  consumerStart : Bool
  dataIn : BitVec 32
  dataValid : Bool

structure State where
  data : BitVec 32
  seqErr : Bool
  sigRdblkcnt : BitVec 32
  rdcnt : ℕ
  rdblkcnt : ℕ

def edge (streamStart : Bool) (s : State) (i : Ports) : State :=
  if streamStart = false then { s with rdcnt := 0, rdblkcnt := 1, seqErr := false, sigRdblkcnt := 0 }
  else if i.consumerStart = false then { s with data := 0, seqErr := false }
  else if i.dataValid then
    let s' :=
      if s.rdcnt = 0 ∧ i.dataIn.toNat ≠ s.rdblkcnt then
        { s with data := i.dataIn, seqErr := true, sigRdblkcnt := BitVec.ofNat 32 s.rdblkcnt }
      else { s with data := i.dataIn }
    if s.rdcnt = 15 then { s' with rdcnt := 0, rdblkcnt := nextBlock s.rdblkcnt }
    else { s' with rdcnt := s.rdcnt + 1 }
  else { s with data := 0 }

/-- The beat that is checked at an edge. -/
def beat (_ : State) (i : Ports) : List (BitVec 32) := if i.consumerStart ∧ i.dataValid then [i.dataIn] else []

structure Inv (s : State) (bs : List (BitVec 32)) : Prop where
  counts : Counts bs.length s.rdcnt s.rdblkcnt
  seqErr : Numbered bs → s.seqErr = false

theorem Inv.edge {s : State} {bs : List (BitVec 32)} (h : Inv s bs) (i : Ports) :
    Inv (edge true s i) (bs ++ beat s i) := by
  unfold beat DataConsumer.edge
  rw [if_neg (by decide)]
  cases hconsumer : i.consumerStart with
  | false => exact ⟨by simpa using h.counts, fun _ => rfl⟩
  | true =>
      rw [if_neg (by decide)]
      cases hvalid : i.dataValid with
      | false => exact ⟨by simpa using h.counts, by simpa using h.seqErr⟩
      | true =>
          have hnext := h.counts.next
          rw [if_pos (rfl : true = true), if_pos (⟨rfl, rfl⟩ : true = true ∧ true = true)]
          by_cases hlast : s.rdcnt = 15
          · have hmiss : ¬ (s.rdcnt = 0 ∧ i.dataIn.toNat ≠ s.rdblkcnt) := by omega
            rw [if_pos hlast, if_pos hlast] at hnext
            rw [if_pos hlast, if_neg hmiss]
            exact ⟨by simpa using hnext, fun hnum => h.seqErr hnum.of_append⟩
          · rw [if_neg hlast, if_neg hlast] at hnext
            rw [if_neg hlast]
            by_cases hmiss : s.rdcnt = 0 ∧ i.dataIn.toNat ≠ s.rdblkcnt
            · have hcounts := h.counts
              rw [hmiss.1] at hcounts
              rw [if_pos hmiss]
              exact ⟨by simpa using hnext, fun hnum => absurd (hcounts.first hnum) hmiss.2⟩
            · rw [if_neg hmiss]
              exact ⟨by simpa using hnext, fun hnum => h.seqErr hnum.of_append⟩

theorem inv_run (s : State) (i : Ports) (is : List Ports) :
    Inv (run (DataConsumer.edge true) (DataConsumer.edge false s i) is)
      (trace (DataConsumer.edge true) beat (DataConsumer.edge false s i) is) :=
  trace_invariant (fun _ _ i h => h.edge i) [] ⟨counts_zero, fun _ => rfl⟩ is

end DataConsumer

end Slos.Odev
