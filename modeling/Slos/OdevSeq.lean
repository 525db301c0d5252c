import Mathlib.Algebra.Group.Nat.Defs
import Slos.BlockCount
import Slos.OdevPut

/-!
# Sequence numbers

The loop of `run_odev_task` in front of `put_to_itab`, the address check of the slave and the pattern in the
memory that is streamed.
-/

namespace Slos.Odev
open Clocked

def oStreamStart : ℕ := 0x18000000
def oStreamBurstSz : ℕ := 0x40
def oStreamStep : ℕ := 0x100
def oStreamWrap : ℕ := 0x1000

section Check

def seqNext (x : ℕ × Bool) (a : BitVec 32) : ℕ × Bool :=
  if x.1 ≠ a.toNat then if a ≠ 0x18000000#32 then (x.1, true) else (0x18000100, x.2) else (x.1 + 256, x.2)

/-- The expected address and the error of the slave, which it clears when it is started. -/
def checker (d : Dev) : ℕ × Bool :=
  if d.slave.state = .idle then (oStreamStart, false) else (d.slave.seqAddr, d.slave.seqErrChkOut)

/-- The address that the slave takes over at an edge. -/
def latchedAt (d : Dev) : List (BitVec 32) :=
  if d.slave.state = .receiving ∧ d.slave.inTrans = true then [d.slave.addr] else []

/-- The address that is offered to the table. -/
def offered (d : Dev) : List (BitVec 32) :=
  if d.slave.state = .writing ∧ d.slave.inTransValid = true then [d.slave.srcAddr] else []

theorem seqCheck_eq (s : Signals) (a : BitVec 32) :
    ((seqCheck s a).seqAddr, (seqCheck s a).seqErrChkOut) = seqNext (s.seqAddr, s.seqErrChkOut) a := by
  unfold seqCheck seqNext
  split
  · split <;> rfl
  · rfl

/-- The check is made when an address is taken over, and started with the slave. -/
theorem slaveProcess_seq {s : Slave} (i : SlavePorts) (hgbl : s.gblStart = true) :
    ((slaveProcess s i).seqAddr, (slaveProcess s i).seqErrChkOut) =
      (if s.state = .receiving ∧ s.inTrans = true then [s.addr] else []).foldl seqNext
        (if s.state = .idle then (oStreamStart, false) else (s.seqAddr, s.seqErrChkOut)) := by
  unfold slaveProcess
  cases hstate : s.state with
  | idle => simp [hgbl, oStreamStart]
  | receiving =>
      cases htrans : s.inTrans with
      | false => simp [hgbl]
      | true => simp [hgbl, seqCheck_eq]
  | warmingup => simp
  | writing => cases htab : i.inTransDone <;> simp [hgbl]
  | doneWriting => cases htrans : s.inTrans <;> simp [hgbl]
  | fullChk1 => cases hfull : i.itabFull <;> simp
  | closing => simp
  | full => cases hfull : i.itabFull <;> simp [hgbl]
  | empty => simp

variable {d : Dev} {p q : Phase} {i : Ports} {w : Option Write}

theorem Next.not_idle {b : Bool} {e : Itab.Entry} (h : Next b e p q) (hq : d.At q) : d.slave.state ≠ .idle := by
  cases h <;> simp_all [Dev.At]

theorem Dev.At.checker_edge (h : d.At p) (hinv : Itab.Inv d.itab) (hgbl : d.slave.gblStart = true)
    (w : Option Write) (i : Ports) : checker (d.edge w i) = (latchedAt d).foldl seqNext (checker d) := by
  obtain ⟨q, hq, hnext, -⟩ := h.edge hinv hgbl w i
  rw [checker, if_neg (hnext.not_idle hq), edge_state]
  exact slaveProcess_seq _ hgbl

/-- What is taken over is offered until the table takes it. -/
theorem Dev.At.offered_edge (h : d.At p) (hinv : Itab.Inv d.itab) (hgbl : d.slave.gblStart = true)
    (w : Option Write) (i : Ports) :
    offered d ++ latchedAt d = (d.acceptedAt i).map Itab.Entry.srcAddr ++ offered (d.edge w i) := by
  obtain ⟨q, hq, hnext, hstored⟩ := h.edge hinv hgbl w i
  rw [hstored]
  cases hnext with
  | offer htrans =>
      have haddr : (d.edge w i).slave.srcAddr = d.slave.addr := (congrArg Itab.Entry.srcAddr hq.2.2.2.2.2.2).symm
      simp_all [Dev.At, offered, latchedAt, Phase.stores]
  | _ => simp_all [Dev.At, offered, latchedAt, Phase.stores]

/-- The address of the `j`-th entry of the stream. -/
def streamAddr (j : ℕ) : BitVec 32 := BitVec.ofNat 32 (oStreamStart + oStreamStep * (j % oStreamWrap))

/-- What the slave expects after `m` entries. -/
def expected : ℕ → ℕ
  | 0 => oStreamStart
  | m + 1 => oStreamStart + oStreamStep * (m % oStreamWrap + 1)

theorem streamAddr_toNat (j : ℕ) : (streamAddr j).toNat = oStreamStart + oStreamStep * (j % oStreamWrap) := by
  have hlt : j % oStreamWrap < oStreamWrap := Nat.mod_lt _ (by decide)
  unfold streamAddr oStreamStart oStreamStep oStreamWrap at *
  rw [BitVec.toNat_ofNat]
  omega

theorem streamAddr_wrap {j : ℕ} (h : j % oStreamWrap = 0) : streamAddr j = 0x18000000#32 := by
  rw [streamAddr, h]
  rfl

theorem seqNext_of_eq {x : ℕ × Bool} {a : BitVec 32} (h : x.1 = a.toNat) : seqNext x a = (x.1 + 256, x.2) :=
  if_neg (not_not.mpr h)

/-- At the wrap-around the expected address is behind the area, and the first address is let through. -/
theorem seqNext_expected (m : ℕ) : seqNext (expected m, false) (streamAddr m) = (expected (m + 1), false) := by
  have hstart : oStreamStart = 0x18000000 := rfl
  have hstep : oStreamStep = 256 := rfl
  have hwrap : oStreamWrap = 4096 := rfl
  have haddr := streamAddr_toNat m
  rw [hstart, hstep, hwrap] at haddr
  cases m with
  | zero =>
      have hexp : expected 0 = 0x18000000 := rfl
      have hexp' : expected (0 + 1) = 0x18000000 + 256 * (0 % 4096 + 1) := by rw [expected, hstart, hstep, hwrap]
      have hlast : expected 0 + 256 = expected (0 + 1) := by simp only [hexp, hexp']
      exact (seqNext_of_eq (hexp.trans haddr.symm)).trans (congrArg (·, false) hlast)
  | succ n =>
      have hexp : expected (n + 1) = 0x18000000 + 256 * (n % 4096 + 1) := by rw [expected, hstart, hstep, hwrap]
      have hexp' : expected (n + 1 + 1) = 0x18000000 + 256 * ((n + 1) % 4096 + 1) := by
        rw [expected, hstart, hstep, hwrap]
      by_cases hfirst : (n + 1) % 4096 = 0
      · rw [seqNext, if_pos (by dsimp only; omega), if_neg (not_not.mpr (streamAddr_wrap hfirst)), hexp', hfirst]
      · exact (seqNext_of_eq (by dsimp only; omega)).trans (congrArg (·, false) (by dsimp only; omega))

/-- The address check follows the stream across its wrap-around. -/
theorem foldl_seqNext (m : ℕ) :
    ((List.range m).map streamAddr).foldl seqNext (oStreamStart, false) = (expected m, false) := by
  induction m with
  | zero => rfl
  | succ m ih =>
      rw [List.range_succ, List.map_append, List.foldl_append, ih, List.map_singleton, List.foldl_cons,
        List.foldl_nil]
      exact seqNext_expected m

end Check

section Loop

/-- The call that the loop makes with the counter at `i`. -/
def streamCall (i : ℕ) : Call := ⟨streamAddr i, BitVec.ofNat 32 oStreamStep, by decide⟩

/-- `run_odev_task` in its loop: the running call, the device and the counter `i`. -/
structure Loop where
  sys : Sys
  i : ℕ

/-- A clock of the loop: whether an access is made, whether the delay after the last call is over. -/
structure LoopClock where
  access : Bool
  begins : Bool
  ports : Ports

def loopClock (l : Loop) (k : LoopClock) : Clock :=
  ⟨k.access, if k.begins then some (streamCall l.i) else none, k.ports⟩

/-- The counter after a call: a call that failed is made again. -/
def nextIndex (i : ℕ) (r : Call × Ret) : ℕ := if r.2 = .zero then (i + 1) % oStreamWrap else i

def loopStep (l : Loop) (k : LoopClock) : Loop :=
  ⟨step l.sys (loopClock l k), (l.sys.returned (loopClock l k)).foldl nextIndex l.i⟩

def loopReturned (l : Loop) (k : LoopClock) : List (Call × Ret) := l.sys.returned (loopClock l k)

/-- The running call is the one of the counter. -/
structure Loop.Inv (l : Loop) : Prop where
  call : ∀ c pc, l.sys.task = some (c, pc) → c = streamCall l.i
  lt : l.i < oStreamWrap

theorem streamCall_mod (j : ℕ) : streamCall (j % oStreamWrap) = streamCall j := by
  simp [streamCall, streamAddr]

theorem Loop.Inv.step {l : Loop} (h : l.Inv) (k : LoopClock) : (loopStep l k).Inv ∧
    (succeeded (loopReturned l k) = [] ∧ (loopStep l k).i = l.i ∨
      succeeded (loopReturned l k) = [streamCall l.i] ∧ (loopStep l k).i = (l.i + 1) % oStreamWrap) := by
  obtain ⟨⟨d, t⟩, i⟩ := l
  have hlt : i < oStreamWrap := h.lt
  match t with
  | none =>
      refine ⟨⟨?_, hlt⟩, Or.inl ⟨rfl, rfl⟩⟩
      intro c pc hc
      change (if k.begins then some (streamCall i) else none).map (·, Pc.readStatus) = some (c, pc) at hc
      cases hbegin : k.begins with
      | false => simp [hbegin] at hc
      | true =>
          rw [hbegin, if_pos rfl] at hc
          exact (congrArg Prod.fst (Option.some.inj hc)).symm
  | some (c, pc) =>
      have hcall : c = streamCall i := h.call c pc rfl
      cases hk : k.access with
      | false =>
          have hstep : loopStep ⟨⟨d, some (c, pc)⟩, i⟩ k = ⟨⟨d.edge none k.ports, some (c, pc)⟩, i⟩ := by
            simp [loopStep, loopClock, Odev.step, Sys.write, Sys.next, Sys.returned, hk]
          rw [hstep]
          exact ⟨⟨h.call, hlt⟩, Or.inl ⟨by simp [loopReturned, loopClock, Sys.returned, hk, succeeded], rfl⟩⟩
      | true =>
          have hret : loopReturned ⟨⟨d, some (c, pc)⟩, i⟩ k = returns c (putToItab c d.slave pc).2 := by
            simp [loopReturned, loopClock, Sys.returned, hk]
          have hstep : loopStep ⟨⟨d, some (c, pc)⟩, i⟩ k =
              ⟨⟨d.edge (putToItab c d.slave pc).1 k.ports, continues c (putToItab c d.slave pc).2⟩,
                (returns c (putToItab c d.slave pc).2).foldl nextIndex i⟩ := by
            simp [loopStep, loopClock, Odev.step, Sys.write, Sys.next, Sys.returned, hk]
          rw [hret, hstep]
          cases (putToItab c d.slave pc).2 with
          | inr pc' =>
              refine ⟨⟨?_, hlt⟩, Or.inl ⟨rfl, rfl⟩⟩
              intro c' pc'' hc
              cases hc
              exact hcall
          | inl r =>
              cases r with
              | zero =>
                  refine ⟨⟨?_, Nat.mod_lt _ (by decide)⟩, Or.inr ⟨congrArg ([·]) hcall, rfl⟩⟩
                  intro c' pc' hc
                  cases hc
              | einval =>
                  refine ⟨⟨?_, hlt⟩, Or.inl ⟨rfl, rfl⟩⟩
                  intro c' pc' hc
                  cases hc

/-- The calls that return 0 are those of the stream, in order, across failed ones and the wrap-around. -/
theorem Loop.Inv.run {l : Loop} (h : l.Inv) {m : ℕ} (hm : l.i = m % oStreamWrap) (ks : List LoopClock) :
    (Clocked.run loopStep l ks).Inv ∧ ∃ n,
      trace loopStep (fun l k => succeeded (loopReturned l k)) l ks = (List.range' m n).map streamCall ∧
      (Clocked.run loopStep l ks).i = (m + n) % oStreamWrap := by
  induction ks generalizing l m with
  | nil => exact ⟨h, 0, rfl, hm⟩
  | cons k ks ih =>
      obtain ⟨hinv, hnext⟩ := h.step k
      rw [run_cons, trace_cons]
      rcases hnext with ⟨hnone, hi⟩ | ⟨hone, hi⟩
      · rw [hnone, List.nil_append]
        exact ih hinv (hi.trans hm)
      · rw [hm, Nat.mod_add_mod] at hi
        obtain ⟨hrun, n, htrace, hlast⟩ := ih hinv hi
        refine ⟨hrun, n + 1, ?_, ?_⟩
        · rw [hone, htrace, hm, streamCall_mod, List.range'_succ, List.map_cons, List.singleton_append]
        · rw [hlast, Nat.add_assoc, Nat.add_comm 1 n]

end Loop

section Pattern

/-- The address of the `n`-th block of the stream. -/
def blockAddr (n : ℕ) : BitVec 32 := BitVec.ofNat 32 (oStreamStart + oStreamBurstSz * (n % intWrapAround))

theorem blockAddr_toNat (n : ℕ) :
    (blockAddr n).toNat = oStreamStart + oStreamBurstSz * (n % intWrapAround) := by
  have hlt : n % intWrapAround < intWrapAround := Nat.mod_lt _ (by decide)
  have hstart : oStreamStart = 0x18000000 := rfl
  have hburst : oStreamBurstSz = 64 := rfl
  have hwrap : intWrapAround = 16384 := rfl
  rw [blockAddr, BitVec.toNat_ofNat]
  exact Nat.mod_eq_of_lt (by rw [hstart, hburst]; omega)

/-- The first loop of `run_odev_task`. -/
def prefill (mem : BitVec 32 → BitVec 32) : BitVec 32 → BitVec 32 :=
  (List.range (oStreamWrap * 4)).foldl (fun m i =>
    Function.update m (BitVec.ofNat 32 (oStreamStart + oStreamBurstSz * i)) (BitVec.ofNat 32 (i + 1))) mem

/-- The words of the blocks at the addresses `bs`. -/
def words (mem : BitVec 32 → BitVec 32) (bs : List (BitVec 32)) : List (BitVec 32) :=
  bs.flatMap fun b => (List.range 16).map fun k => mem (b + BitVec.ofNat 32 (4 * k))

theorem flatMap_range {α : Type*} (f : ℕ → α) (c n : ℕ) :
    (List.range n).flatMap (fun j => (List.range c).map fun k => f (c * j + k)) = (List.range (c * n)).map f := by
  induction n with
  | zero => rfl
  | succ n ih =>
      rw [List.range_succ, List.flatMap_append, ih, Nat.mul_succ, List.range_add, List.map_append]
      simp

theorem ofNat_inj_of_lt {m n : ℕ} (hm : m < 2 ^ 32) (hn : n < 2 ^ 32) (h : BitVec.ofNat 32 m = BitVec.ofNat 32 n) :
    m = n := by
  have htoNat := congrArg BitVec.toNat h
  rwa [BitVec.toNat_ofNat, BitVec.toNat_ofNat, Nat.mod_eq_of_lt hm, Nat.mod_eq_of_lt hn] at htoNat

theorem prefill_upto (mem : BitVec 32 → BitVec 32) {n : ℕ} (hn : n ≤ oStreamWrap * 4) {i : ℕ} (hi : i < n) :
    (List.range n).foldl (fun m i =>
      Function.update m (BitVec.ofNat 32 (oStreamStart + oStreamBurstSz * i)) (BitVec.ofNat 32 (i + 1))) mem
      (BitVec.ofNat 32 (oStreamStart + oStreamBurstSz * i)) = BitVec.ofNat 32 (i + 1) := by
  induction n with
  | zero => omega
  | succ n ih =>
      have hstart : oStreamStart = 0x18000000 := rfl
      have hburst : oStreamBurstSz = 64 := rfl
      have hwrap : oStreamWrap = 4096 := rfl
      rw [List.range_succ, List.foldl_append, List.foldl_cons, List.foldl_nil]
      rcases eq_or_ne i n with rfl | hne
      · exact Function.update_self _ _ _
      · rw [Function.update_of_ne, ih (by omega) (by omega)]
        intro heq
        rw [hstart, hburst] at heq
        have hinj := ofNat_inj_of_lt (by omega) (by omega) heq
        omega

/-- The first word of a block is its number, also after the wrap-around. -/
theorem prefill_block (mem : BitVec 32 → BitVec 32) (n : ℕ) :
    (prefill mem (blockAddr n)).toNat = n % intWrapAround + 1 := by
  have hlt : n % intWrapAround < oStreamWrap * 4 := Nat.mod_lt _ (by decide)
  have hwrap : oStreamWrap * 4 = 16384 := rfl
  rw [prefill, blockAddr, prefill_upto mem le_rfl hlt, BitVec.toNat_ofNat, Nat.mod_eq_of_lt (by omega)]

/-- An entry of the stream has the four blocks of its number. -/
theorem streamEntry_bursts (j : ℕ) :
    (streamCall j).entry.bursts = (List.range 4).map fun k => blockAddr (4 * j + k) := by
  have hstart : oStreamStart = 0x18000000 := rfl
  have hstep : oStreamStep = 256 := rfl
  have hburst : oStreamBurstSz = 64 := rfl
  have hwrap : oStreamWrap = 4096 := rfl
  have hwrap' : intWrapAround = 16384 := rfl
  have hlen : (streamCall j).entry.srcLen.toNat = 256 := rfl
  have hcount : max 1 ((256 + 63) / 64) = 4 := by decide
  rw [Itab.Entry.bursts, hlen, hcount]
  apply List.map_congr_left
  intro k hk
  have hlt : k < 4 := List.mem_range.mp hk
  change streamAddr j + BitVec.ofNat 32 (64 * k) = blockAddr (4 * j + k)
  rw [streamAddr, blockAddr, ← BitVec.ofNat_add]
  congr 1
  rw [hstart, hstep, hburst, hwrap, hwrap']
  omega

theorem words_first {mem : BitVec 32 → BitVec 32} {bs : List (BitVec 32)} {n : ℕ} {w : BitVec 32}
    (h : (words mem bs)[16 * n]? = some w) : ∃ b, bs[n]? = some b ∧ w = mem b := by
  induction bs generalizing n with
  | nil => cases h
  | cons b bs ih =>
      have hcons : words mem (b :: bs) = ((List.range 16).map fun k => mem (b + BitVec.ofNat 32 (4 * k))) ++
        words mem bs := rfl
      rw [hcons] at h
      cases n with
      | zero =>
          refine ⟨b, rfl, ?_⟩
          simpa using (Option.some.inj h).symm
      | succ n =>
          have hlen : ((List.range 16).map fun k => mem (b + BitVec.ofNat 32 (4 * k))).length = 16 := by
            rw [List.length_map, List.length_range]
          have hidx : 16 * (n + 1) - 16 = 16 * n := by omega
          rw [List.getElem?_append_right (by rw [hlen]; omega), hlen, hidx] at h
          exact ih h

end Pattern

section Runs

variable {s : Sys}

theorem Sys.Inv.trace_latched (h : s.Inv) (ks : List Clock) :
    offered s.dev ++ trace Odev.step (fun s _ => latchedAt s.dev) s ks =
      (trace Odev.step accepted s ks).map Itab.Entry.srcAddr ++ offered (Clocked.run Odev.step s ks).dev := by
  have hedge (s : Sys) (k : Clock) (h : s.Inv) : offered s.dev ++ latchedAt s.dev =
      (accepted s k).map Itab.Entry.srcAddr ++ offered (Odev.step s k).dev := by
    obtain ⟨p, hp, -⟩ := h.agrees
    exact hp.offered_edge h.itab h.gblStart _ _
  rw [← trace_map]
  exact trace_conserved (fun s : Sys => offered s.dev) (fun s k h => Sys.Inv.step h k) hedge h ks

theorem Sys.Inv.run_checker (h : s.Inv) (ks : List Clock) : checker (Clocked.run Odev.step s ks).dev =
    (trace Odev.step (fun s _ => latchedAt s.dev) s ks).foldl seqNext (checker s.dev) := by
  have hedge (s : Sys) (k : Clock) (h : s.Inv) :
      checker (Odev.step s k).dev = (latchedAt s.dev).foldl seqNext (checker s.dev) := by
    obtain ⟨p, hp, -⟩ := h.agrees
    exact hp.checker_edge h.itab h.gblStart _ _
  exact trace_foldl (fun s : Sys => checker s.dev) (fun s k h => Sys.Inv.step h k) hedge h ks

theorem pending_of_state {s : Sys} (h : ¬ s.dev.Stored) : pending s = [] := by
  unfold pending
  split
  · rw [if_neg fun hp => h hp.2]
  · rfl

theorem Dev.At.offered_eq_nil {d : Dev} {p : Phase} (h : d.At p) (hp : ∀ e, p ≠ .offered e) : offered d = [] := by
  cases p with
  | offered e => exact absurd rfl (hp e)
  | _ => simp_all [Dev.At, offered]

/-- What is offered is the entry of the running call. -/
theorem Agrees.offered {r : Regs} {e : Itab.Entry} {t : Option (Call × Pc)} (h : Agrees r (.offered e) t) :
    ∃ c pc, t = some (c, pc) ∧ e = c.entry := by
  match t with
  | none => simp [Agrees, Phase.rank] at h
  | some (c, pc) =>
      refine ⟨c, pc, rfl, ?_⟩
      cases pc <;> simp_all [Agrees, Phase.rank]

/-- At most the entry of the running call is stored or offered before the call returns. -/
theorem Sys.Inv.inFlight (h : s.Inv) : (pending s).map Itab.Entry.srcAddr ++ offered s.dev = [] ∨
    ∃ c pc, s.task = some (c, pc) ∧ (pending s).map Itab.Entry.srcAddr ++ offered s.dev = [c.sAddr] := by
  obtain ⟨p, hp, hagrees⟩ := h.agrees
  by_cases hoffer : ∃ e, p = .offered e
  · obtain ⟨e, rfl⟩ := hoffer
    obtain ⟨hstate, -, hvalid, -, -, -, he⟩ := hp
    have hnone : pending s = [] := pending_of_state (by simp [Dev.Stored, hstate, hvalid])
    have hoffered : offered s.dev = [e.srcAddr] := by simp [offered, hstate, hvalid, he]
    obtain ⟨c, pc, htask, rfl⟩ := hagrees.offered
    exact Or.inr ⟨c, pc, htask, by rw [hnone, hoffered]; rfl⟩
  · have hnone : offered s.dev = [] := hp.offered_eq_nil fun e he => hoffer ⟨e, he⟩
    rw [hnone, List.append_nil]
    rcases pending_eq_nil_or s with hnil | ⟨c, pc, htask, hentry⟩
    · exact Or.inl (by rw [hnil, List.map_nil])
    · exact Or.inr ⟨c, pc, htask, by rw [hentry]; rfl⟩

def loopAccepted (l : Loop) (k : LoopClock) : List Itab.Entry := accepted l.sys (loopClock l k)

/-- The loop with nothing running and `i = 0`. -/
def Dev.loop (d : Dev) : Loop := ⟨⟨d, none⟩, 0⟩

/-- The blocks of the entries that the table accepts. -/
def blocks (d : Dev) (ks : List LoopClock) : List (BitVec 32) :=
  (trace loopStep loopAccepted d.loop ks).flatMap Itab.Entry.bursts

/-- The entries of the stream that the table accepts, and those that the slave took over. -/
theorem Started.loop_run {d : Dev} (h : Started d) (ks : List LoopClock) : ∃ m m',
    trace loopStep loopAccepted d.loop ks = (List.range m).map (fun j => (streamCall j).entry) ∧
    checker (Clocked.run loopStep d.loop ks).sys.dev = (expected m', false) := by
  have hfeed (l : Loop) (k : LoopClock) : (loopStep l k).sys = step l.sys (loopClock l k) := rfl
  have hloop : d.loop.Inv := by
    constructor
    · intro c pc hc
      cases (show none = some (c, pc) from hc)
    · exact (by decide : 0 < oStreamWrap)
  obtain ⟨hrun, n, hsucc, hi⟩ := hloop.run (show d.loop.i = 0 % oStreamWrap from rfl) ks
  obtain ⟨cs, hcs⟩ : ∃ cs, cs = trace loopStep (fun l k => [loopClock l k]) d.loop ks := ⟨_, rfl⟩
  have hsys : Clocked.run step ⟨d, none⟩ cs = (Clocked.run loopStep d.loop ks).sys := by
    rw [hcs]
    exact (run_feed hfeed d.loop ks).symm
  have hacc : trace step accepted ⟨d, none⟩ cs = trace loopStep loopAccepted d.loop ks := by
    rw [hcs]
    exact trace_feed hfeed accepted d.loop ks
  have hret : succeeded (trace step Sys.returned ⟨d, none⟩ cs) = (List.range n).map streamCall := by
    rw [hcs, List.range_eq_range', ← hsucc, succeeded, ← trace_flatMap]
    exact trace_feed hfeed (fun s k => succeeded (s.returned k)) d.loop ks
  have hstored := h.inv.trace_accepted cs
  have hlatched := h.inv.trace_latched cs
  have hcheck := h.inv.run_checker cs
  have hinv : (Clocked.run step ⟨d, none⟩ cs).Inv := run_invariant (fun s k h => h.step k) h.inv cs
  have hcall (c : Call) (pc : Pc) (hc : (Clocked.run step ⟨d, none⟩ cs).task = some (c, pc)) : c = streamCall n := by
    rw [hsys] at hc
    rw [hrun.call c pc hc, hi, Nat.zero_add, streamCall_mod]
  have hnone : offered d = [] := by simp [offered, h.state]
  have hstart : checker d = (oStreamStart, false) := if_pos h.state
  rw [show pending ⟨d, none⟩ = [] from rfl, List.nil_append, hacc, hret] at hstored
  rw [show offered (⟨d, none⟩ : Sys).dev = [] from hnone, List.nil_append, hacc, hstored, List.map_append,
    List.map_map, List.map_map, List.append_assoc] at hlatched
  rw [hlatched, hsys, hstart] at hcheck
  have hsucc' {α : Type} (f : ℕ → α) : (List.range n).map f ++ [f n] = (List.range (n + 1)).map f := by
    rw [List.range_succ, List.map_append, List.map_singleton]
  have hentries : ∃ m, trace loopStep loopAccepted d.loop ks = (List.range m).map (fun j => (streamCall j).entry) := by
    rw [hstored, List.map_map]
    rcases pending_eq_nil_or (Clocked.run step ⟨d, none⟩ cs) with hnil | ⟨c, pc, htask, hentry⟩
    · exact ⟨n, by rw [hnil, List.append_nil]; rfl⟩
    · refine ⟨n + 1, ?_⟩
      rw [hentry, hcall c pc htask]
      exact hsucc' fun j => (streamCall j).entry
  obtain ⟨m, hm⟩ := hentries
  rcases hinv.inFlight with hnil | ⟨c, pc, htask, hone⟩
  · rw [hsys] at hnil
    rw [hnil, List.append_nil] at hcheck
    exact ⟨m, n, hm, hcheck.trans (foldl_seqNext n)⟩
  · rw [hcall c pc htask, hsys] at hone
    rw [hone] at hcheck
    refine ⟨m, n + 1, hm, hcheck.trans ?_⟩
    rw [← foldl_seqNext, ← hsucc']
    rfl

/-- The slave never sets its sequence error, the accepted entries are the blocks of the prefilled area in order,
and while their words are delivered in order, both counters expect the number in the first word of each. -/
structure SequenceAgrees (d : Dev) (mem : BitVec 32 → BitVec 32) (ks : List LoopClock) : Prop where
  checker : (Clocked.run loopStep d.loop ks).sys.dev.slave.state ≠ .idle →
    (Clocked.run loopStep d.loop ks).sys.dev.slave.seqErrChkOut = false
  inside : ∀ e ∈ trace loopStep loopAccepted d.loop ks, e.bursts.length = 4 ∧
    ∀ b ∈ e.bursts, ∃ i < oStreamWrap * 4, b.toNat = oStreamStart + oStreamBurstSz * i
  first : ∀ n b, (blocks d ks)[n]? = some b → (prefill mem b).toNat = n % intWrapAround + 1
  rdBuff : ∀ s i is,
    trace (RdBuff.edge true) RdBuff.beat (RdBuff.edge false s i) is <+: words (prefill mem) (blocks d ks) →
      (Clocked.run (RdBuff.edge true) (RdBuff.edge false s i) is).seqErr = false ∧
      ∀ n, (trace (RdBuff.edge true) RdBuff.beat (RdBuff.edge false s i) is).length = 16 * n →
        (Clocked.run (RdBuff.edge true) (RdBuff.edge false s i) is).rdbuffblkcnt = n % intWrapAround + 1
  dataConsumer : ∀ s i is,
    trace (DataConsumer.edge true) DataConsumer.beat (DataConsumer.edge false s i) is <+:
        words (prefill mem) (blocks d ks) →
      (Clocked.run (DataConsumer.edge true) (DataConsumer.edge false s i) is).seqErr = false ∧
      ∀ n, (trace (DataConsumer.edge true) DataConsumer.beat (DataConsumer.edge false s i) is).length = 16 * n →
        (Clocked.run (DataConsumer.edge true) (DataConsumer.edge false s i) is).rdblkcnt = n % intWrapAround + 1

theorem Numbered.of_prefix {bs cs : List (BitVec 32)} (h : Numbered cs) (hbs : bs <+: cs) : Numbered bs := by
  obtain ⟨ds, rfl⟩ := hbs
  exact h.of_append

theorem Counts.block {n idx cnt : ℕ} (h : Counts (16 * n) idx cnt) : cnt = n % intWrapAround + 1 := by
  have hdiv : 16 * n / 16 = n := by omega
  rw [h.2, hdiv]

theorem sequence_agrees {d : Dev} (h : Started d) (mem : BitVec 32 → BitVec 32) (ks : List LoopClock) :
    SequenceAgrees d mem ks := by
  obtain ⟨m, m', hacc, hchecker⟩ := h.loop_run ks
  have hblocks : blocks d ks = (List.range (4 * m)).map blockAddr := by
    rw [blocks, hacc, List.flatMap_map]
    simp only [streamEntry_bursts]
    exact flatMap_range blockAddr 4 m
  have hfirst (n : ℕ) (b : BitVec 32) (hb : (blocks d ks)[n]? = some b) :
      (prefill mem b).toNat = n % intWrapAround + 1 := by
    rw [hblocks, List.getElem?_map] at hb
    obtain ⟨k, hk, rfl⟩ := Option.map_eq_some_iff.mp hb
    obtain ⟨hlt, hkn⟩ := List.getElem?_eq_some_iff.mp hk
    rw [List.getElem_range] at hkn
    rw [hkn]
    exact prefill_block mem k
  have hnum : Numbered (words (prefill mem) (blocks d ks)) := by
    intro n w hw
    obtain ⟨b, hb, hword⟩ := words_first hw
    rw [hword]
    exact hfirst n b hb
  constructor
  · intro hstate
    rw [Odev.checker, if_neg hstate] at hchecker
    exact congrArg Prod.snd hchecker
  · intro e he
    rw [hacc] at he
    obtain ⟨j, -, rfl⟩ := List.mem_map.mp he
    rw [streamEntry_bursts]
    refine ⟨by rw [List.length_map, List.length_range], fun b hb => ?_⟩
    obtain ⟨k, -, rfl⟩ := List.mem_map.mp hb
    exact ⟨_, Nat.mod_lt _ (by decide), blockAddr_toNat _⟩
  · exact hfirst
  · intro s i is hdelivered
    have hinv := RdBuff.inv_run s i is
    refine ⟨hinv.seqErr (hnum.of_prefix hdelivered), fun n hn => ?_⟩
    have hcounts := hinv.counts
    rw [hn] at hcounts
    exact hcounts.block
  · intro s i is hdelivered
    have hinv := DataConsumer.inv_run s i is
    refine ⟨hinv.seqErr (hnum.of_prefix hdelivered), fun n hn => ?_⟩
    have hcounts := hinv.counts
    rw [hn] at hcounts
    exact hcounts.block

/-- The loop with an access at every clock. -/
def busyClocks (n : ℕ) : List LoopClock := List.replicate n ⟨true, true, ⟨false, false, false, false⟩⟩

theorem sequence_agrees_first : SequenceAgrees startedDev (fun _ => 0) (busyClocks 40) ∧
    (blocks startedDev (busyClocks 40)).take 5 =
      [0x18000000, 0x18000040, 0x18000080, 0x180000C0, 0x18000100] :=
  ⟨sequence_agrees startedDev_started (fun _ => 0) (busyClocks 40), by decide +kernel⟩

end Runs

end Slos.Odev
