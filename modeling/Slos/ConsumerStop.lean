import Slos.Machine
import Slos.RdStream

/-!
# Stopping the consumer

`DataConsumer` on the outputs of `RdBuff`: its request process asks for words, and its check process counts those it
sees while `DATA_CONSUMER_START` is high. A word is on the outputs two clocks after it was asked for. `RDBUFF_EMPTY` is
tied to '0', so the consumer never sees the buffer empty. Beside the registers, `words` keeps what has come out since
the stream started.
-/

namespace Slos.Odev.ConsumerStop
open Clocked

/-- The request process. -/
structure Requester where
  dataReq : Bool
  interval : ℕ

def Requester.edge (r : Requester) (consumerStart rdbuffEmpty : Bool) (consumeLatency : BitVec 32) : Requester :=
  let latency := consumeLatency.toNat
  if consumerStart = false then ⟨false, 0⟩
  else if rdbuffEmpty = true then ⟨false, 0⟩
  else if latency ≤ r.interval ∧ r.interval ≤ latency + 15 then
    ⟨true, if r.interval = latency + 15 then 0 else r.interval + 1⟩
  else ⟨false, r.interval + 1⟩

structure Ports where
  rdata : BitVec 32
  rdataValid : Bool
  consumerStart : Bool
  consumeLatency : BitVec 32

structure State where
  buffer : RdStream.State
  request : Requester
  check : DataConsumer.State
  words : List (BitVec 32)

def edge (s : State) (i : Ports) : State where
  buffer := RdStream.edge true s.buffer ⟨i.rdata, i.rdataValid, s.request.dataReq⟩
  request := s.request.edge i.consumerStart false i.consumeLatency
  check := DataConsumer.edge true s.check ⟨i.consumerStart, s.buffer.read.outdata, s.buffer.read.outvalid⟩
  words := s.words ++ s.buffer.shown

def step (s : State) (i : Ports) : Option State := some (edge s i)

/-- The position in the stream of the next word at the outputs, the one they show included. -/
def position (s : State) : ℕ := 16 * s.buffer.read.outCnt + s.buffer.read.outBeatIdx - s.buffer.shown.length

/-- The consumer is where the buffer is, and has found no block with a wrong number among those with the right ones. -/
structure InStep (s : State) : Prop where
  counts : Counts (position s) s.check.rdcnt s.check.rdblkcnt
  seqErr : Numbered s.words → s.check.seqErr = false

/-- The consumer is not stopped while a word is on the outputs. -/
def NotInFlight (s : State) (i : Ports) : Prop := s.buffer.read.outvalid = true → i.consumerStart = true

/-- A consumer in step with a buffer that has put out `words`. -/
structure Inv (s : State) : Prop where
  beat : s.buffer.read.outBeatIdx < 16
  taken : 16 * s.buffer.read.outCnt + s.buffer.read.outBeatIdx = s.words.length + s.buffer.shown.length
  check : DataConsumer.Inv s.check s.words

/-- A clock with `STREAM_START` at 0: nothing has come out of the stream that begins behind it. -/
def reset (s : State) (i : Ports) : State where
  buffer := RdStream.edge false s.buffer ⟨i.rdata, i.rdataValid, s.request.dataReq⟩
  request := s.request.edge i.consumerStart false i.consumeLatency
  check := DataConsumer.edge false s.check ⟨i.consumerStart, s.buffer.read.outdata, s.buffer.read.outvalid⟩
  words := []

/-- The clock before the stream starts brings the consumer in step if no word is left on the outputs. -/
theorem reset_inv {s : State} {i : Ports} (h : s.buffer.read.outvalid = false) : Inv (reset s i) := by
  have hshown : (reset s i).buffer.shown = [] := by
    rw [RdStream.State.shown]
    change (if s.buffer.read.outvalid = true then _ else _) = _
    rw [h]
    rfl
  constructor
  · change 0 < 16
    decide
  · rw [hshown]
    rfl
  · exact ⟨counts_zero, fun _ => rfl⟩

theorem Inv.position_eq {s : State} (h : Inv s) : position s = s.words.length := by
  rw [position, h.taken, Nat.add_sub_cancel]

theorem Inv.inStep {s : State} (h : Inv s) : InStep s := by
  constructor
  · rw [h.position_eq]
    exact h.check.counts
  · exact h.check.seqErr

theorem edge_taken {s : State} (h : Inv s) (i : Ports) : (edge s i).buffer.read.outBeatIdx < 16 ∧
    16 * (edge s i).buffer.read.outCnt + (edge s i).buffer.read.outBeatIdx =
      (edge s i).words.length + (edge s i).buffer.shown.length := by
  obtain ⟨hbeat, hmoves, -⟩ := RdStream.read_moves h.beat ⟨i.rdata, i.rdataValid, s.request.dataReq⟩
  refine ⟨hbeat, hmoves.trans ?_⟩
  rw [h.taken, edge, List.length_append]
  rfl

theorem edge_inv {s : State} {i : Ports} (h : Inv s) (hc : NotInFlight s i) : Inv (edge s i) := by
  obtain ⟨hbeat, htaken⟩ := edge_taken h i
  constructor
  · exact hbeat
  · exact htaken
  · have hcheck := h.check.edge ⟨i.consumerStart, s.buffer.read.outdata, s.buffer.read.outvalid⟩
    have hseen : DataConsumer.beat s.check ⟨i.consumerStart, s.buffer.read.outdata, s.buffer.read.outvalid⟩ =
        s.buffer.shown := by
      rw [DataConsumer.beat, RdStream.State.shown]
      cases hvalid : s.buffer.read.outvalid with
      | false => simp
      | true => simp [hc hvalid]
    rw [hseen] at hcheck
    exact hcheck

/-- A word that is not counted leaves the consumer behind. -/
theorem notInFlight_of_inStep {s : State} {i : Ports} (h : Inv s) (ht : InStep (edge s i)) : NotInFlight s i := by
  intro hvalid
  by_contra hstart
  rw [Bool.not_eq_true] at hstart
  obtain ⟨-, htaken⟩ := edge_taken h i
  have hpos : position (edge s i) = s.words.length + 1 := by
    rw [position, htaken, Nat.add_sub_cancel, edge, List.length_append, RdStream.State.shown, if_pos hvalid,
      List.length_singleton]
  have hcounts := ht.counts
  have hcheck : (edge s i).check = { s.check with data := 0, seqErr := false } := by
    rw [edge, DataConsumer.edge, if_neg (by decide), if_pos hstart]
  rw [hpos, hcheck] at hcounts
  have hbefore := h.check.counts.1
  have hafter := hcounts.1
  simp only at hafter
  omega

/-- A consumer that starts in step with the buffer stays so exactly if it is never stopped while a word is on the
outputs. -/
theorem in_step_iff {s : State} (h : Inv s) (is : List Ports) :
    Machine.Always step InStep s is ↔ Machine.StepsMeet step NotInFlight s is := by
  apply Machine.always_iff_stepsMeet Inv
  · exact fun s hs => hs.inStep
  · intro s i t hs hc ht
    cases ht
    exact edge_inv hs hc
  · intro s i t hs ht hstep
    cases ht
    exact notInFlight_of_inStep hs hstep
  · exact h

/-- A buffer that holds two blocks, of which nothing has been read. -/
def twoBlocks : State where
  buffer :=
    { write := { rdBuff := fun n _ => BitVec.ofNat 32 (n + 1), inCnt := 2, inIdx := 2, inBeatIdx := 0, seqErr := false,
                 rdbuffblkcnt := 3 }
      read := { outCnt := 0, outIdx := 0, outBeatIdx := 0, outdata := 0, outvalid := false }
      flags := ⟨false, false⟩ }
  request := ⟨false, 0⟩
  check := { data := 0, seqErr := false, sigRdblkcnt := 0, rdcnt := 0, rdblkcnt := 1 }
  words := []

theorem twoBlocks_inv : Inv twoBlocks := ⟨by decide, rfl, ⟨counts_zero, fun _ => rfl⟩⟩

def started : Ports := ⟨0, false, true, 0⟩

def notStarted : Ports := ⟨0, false, false, 0⟩

theorem in_step_first_word : Machine.Always step InStep twoBlocks [started, started, started, started] := by
  apply (in_step_iff twoBlocks_inv _).mpr
  simp [Machine.StepsMeet, NotInFlight, started]

/-- Stopped at the third clock, the consumer misses the word it asked for at the first. -/
theorem word_in_flight_lost : ¬ Machine.Always step InStep twoBlocks [started, started, notStarted] := by
  intro h
  have hlast := Machine.always_iff_exec.mp h _ (List.prefix_refl _) _ rfl
  exact absurd hlast.counts.1 (by decide)

end Slos.Odev.ConsumerStop
