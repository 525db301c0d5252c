import Slos.Odev

/-!
# Calls of `put_to_itab`

The calls of the one driver task, register access by register access, against the device clock by clock. Any
number of clocks passes before each access; the next access is at least one clock later.
-/

namespace Slos.Odev
open Clocked

/-- The arguments of a call. -/
structure Call where
  sAddr : BitVec 32
  sLen : BitVec 32
  sLen_lt : sLen.toNat < 65536

/-- What `put_to_itab` returns: 0 or `-EINVAL`. -/
inductive Ret where
  | zero | einval
deriving DecidableEq, Repr

/-- The next access of a call. -/
inductive Pc where
  | readStatus | writeAddr | writeLen | readCtrl | writeCtrl (ctrl : BitVec 32)
  | poll | pollCtrl | readCtrlAgain | writeCtrlAgain (ctrl : BitVec 32)
deriving DecidableEq

/-- An access: what is written, and the value that is returned or the access that follows. -/
def putToItab (c : Call) (s : Slave) : Pc → Option Write × (Ret ⊕ Pc)
  | .readStatus => (none, if s.status.word &&& bmItabFull ≠ 0#32 then .inl .einval else .inr .writeAddr)
  | .writeAddr => (some (.addr, c.sAddr), .inr .writeLen)
  | .writeLen => (some (.len, c.sLen), .inr .readCtrl)
  | .readCtrl => (none, .inr (.writeCtrl (s.ctrl ||| bmInTrans)))
  | .writeCtrl ctrl => (some (.ctrl, ctrl), .inr .poll)
  | .poll => (none, .inr (if s.status.word &&& bmTransferDone = 0#32 then .pollCtrl else .readCtrlAgain))
  | .pollCtrl => (none, if s.ctrl &&& bmGblStart = 0#32 then .inl .zero else .inr .poll)
  | .readCtrlAgain => (none, .inr (.writeCtrlAgain (s.ctrl &&& ~~~bmInTrans)))
  | .writeCtrlAgain ctrl => (some (.ctrl, ctrl), .inl .zero)

structure Sys where
  dev : Dev
  task : Option (Call × Pc)

/-- A clock: whether the running call makes its next access, which call begins if none is running. -/
structure Clock where
  access : Bool
  call : Option Call
  ports : Ports

def Sys.write (s : Sys) (k : Clock) : Option Write :=
  match s.task with
  | some (c, pc) => if k.access then (putToItab c s.dev.slave pc).1 else none
  | none => none

/-- What a call returns at an access, and how it goes on. -/
def returns (c : Call) : Ret ⊕ Pc → List (Call × Ret)
  | .inl r => [(c, r)]
  | .inr _ => []

def continues (c : Call) : Ret ⊕ Pc → Option (Call × Pc)
  | .inl _ => none
  | .inr pc => some (c, pc)

def Sys.returned (s : Sys) (k : Clock) : List (Call × Ret) :=
  match s.task with
  | some (c, pc) => if k.access then returns c (putToItab c s.dev.slave pc).2 else []
  | none => []

def Sys.next (s : Sys) (k : Clock) : Option (Call × Pc) :=
  match s.task with
  | some (c, pc) => if k.access then continues c (putToItab c s.dev.slave pc).2 else some (c, pc)
  | none => k.call.map (·, .readStatus)

def step (s : Sys) (k : Clock) : Sys := ⟨s.dev.edge (s.write k) k.ports, s.next k⟩

/-- The device after reset, with the global start bit set. -/
structure Started (d : Dev) : Prop where
  state : d.slave.state = .idle
  trigGStart : d.slave.trigGStart = false
  inTransValid : d.slave.inTransValid = false
  gblStart : d.slave.gblStart = true
  inTrans : d.slave.inTrans = false
  itab : ∃ t i, d.itab = Itab.edge false t i

def accepted (s : Sys) (k : Clock) : List Itab.Entry := s.dev.acceptedAt k.ports

/-- The calls that returned 0. -/
def succeeded (rs : List (Call × Ret)) : List Call := rs.flatMap fun r => if r.2 = .zero then [r.1] else []

def Call.entry (c : Call) : Itab.Entry := ⟨c.sAddr, c.sLen.setWidth 16⟩

/-- `p` is at most `n` clocks away from waiting for a call. -/
def Phase.rank : Phase → ℕ
  | .ready | .full => 0
  | .warmingup | .settling => 1
  | .idle | .done => 2
  | .offered _ | .stored => 3

/-- What the registers and the phase of the slave are at an access of a call. -/
def Agrees (r : Regs) (p : Phase) : Option (Call × Pc) → Prop
  | none => r.inTrans = false ∧ p.rank ≤ 2
  | some (_, .readStatus) => r.inTrans = false ∧ p.rank ≤ 2
  | some (_, .writeAddr) => r.inTrans = false ∧ p.rank ≤ 1
  | some (c, .writeLen) => r.inTrans = false ∧ p.rank = 0 ∧ r.addr = c.sAddr
  | some (c, .readCtrl) => r.inTrans = false ∧ p.rank = 0 ∧ r.entry = c.entry
  | some (c, .writeCtrl v) =>
      r.inTrans = false ∧ p.rank = 0 ∧ r.entry = c.entry ∧ v.getLsbD 0 = true ∧ v.getLsbD 2 = true
  | some (c, .poll) | some (c, .pollCtrl) =>
      r.inTrans = true ∧ r.entry = c.entry ∧ (p.rank = 0 ∨ p = .offered c.entry ∨ p = .stored ∨ p = .done)
  | some (_, .readCtrlAgain) => r.inTrans = true ∧ p = .done
  | some (_, .writeCtrlAgain v) => r.inTrans = true ∧ p = .done ∧ v.getLsbD 0 = true ∧ v.getLsbD 2 = false

structure Sys.Inv (s : Sys) : Prop where
  itab : Itab.Inv s.dev.itab
  gblStart : s.dev.slave.gblStart = true
  agrees : ∃ p, s.dev.At p ∧ Agrees s.dev.slave.toRegs p s.task

section Phases

variable {e : Itab.Entry} {p q : Phase} {r r' : Regs} {c : Call}

theorem Next.rank_le (h : Next false e p q) (hp : p.rank ≤ 2) : q.rank ≤ p.rank - 1 := by
  cases h <;> simp_all [Phase.rank]

/-- Once the transfer is requested, the slave takes the entry and holds the done bit. -/
theorem Next.requested (h : Next true e p q) (hp : p.rank = 0 ∨ p = .offered e ∨ p = .stored ∨ p = .done) :
    q.rank = 0 ∨ q = .offered e ∨ q = .stored ∨ q = .done := by
  cases h <;> simp_all [Phase.rank]

theorem Next.done (h : Next true e .done q) : q = .done := by
  cases h with
  | hold => rfl
  | release h => cases h

/-- A clock without an access. -/
theorem Agrees.wait {t : Option (Call × Pc)} (h : Agrees r p t) (hnext : Next r.inTrans r.entry p q)
    (htrans : r'.inTrans = r.inTrans) (haddr : r'.addr = r.addr) (hlen : r'.len = r.len) : Agrees r' q t := by
  have hentry : r'.entry = r.entry := by rw [Regs.entry, Regs.entry, haddr, hlen]
  have hready (h : r.inTrans = false ∧ p.rank ≤ 2) : r'.inTrans = false ∧ q.rank ≤ 2 := by
    obtain ⟨hno, hp⟩ := h
    rw [hno] at hnext
    exact ⟨htrans.trans hno, (hnext.rank_le hp).trans (by omega)⟩
  rcases t with _ | ⟨c, pc⟩
  · exact hready h
  · cases pc with
    | readStatus => exact hready h
    | writeAddr =>
        obtain ⟨hno, hp⟩ := h
        rw [hno] at hnext
        exact ⟨htrans.trans hno, (hnext.rank_le (by omega)).trans (by omega)⟩
    | writeLen =>
        obtain ⟨hno, hp, ha⟩ := h
        rw [hno] at hnext
        exact ⟨htrans.trans hno, by have := hnext.rank_le (by omega); omega, haddr.trans ha⟩
    | readCtrl =>
        obtain ⟨hno, hp, he⟩ := h
        rw [hno] at hnext
        exact ⟨htrans.trans hno, by have := hnext.rank_le (by omega); omega, hentry.trans he⟩
    | writeCtrl v =>
        obtain ⟨hno, hp, he, hv⟩ := h
        rw [hno] at hnext
        exact ⟨htrans.trans hno, by have := hnext.rank_le (by omega); omega, hentry.trans he, hv⟩
    | poll | pollCtrl =>
        obtain ⟨hyes, he, hp⟩ := h
        rw [hyes, he] at hnext
        exact ⟨htrans.trans hyes, hentry.trans he, hnext.requested hp⟩
    | readCtrlAgain =>
        obtain ⟨hyes, rfl⟩ := h
        rw [hyes] at hnext
        exact ⟨htrans.trans hyes, hnext.done⟩
    | writeCtrlAgain v =>
        obtain ⟨hyes, rfl, hv⟩ := h
        rw [hyes] at hnext
        exact ⟨htrans.trans hyes, hnext.done, hv⟩

/-- The done bit at a poll tells whether the entry is stored. -/
theorem Dev.At.done_iff {d : Dev} (h : d.At p) (hp : p.rank = 0 ∨ p = .offered e ∨ p = .stored ∨ p = .done) :
    d.slave.status.transDone = true ↔ p = .done := by
  cases p <;> simp_all [Phase.rank, Dev.At]

theorem gblStart_word (h : r.gblStart = true) : r.ctrl &&& bmGblStart ≠ 0#32 := by
  intro hzero
  rw [bmGblStart, and_bit_eq_zero_iff _ (by decide)] at hzero
  exact absurd (h.symm.trans hzero) (by decide)

/-- A clock with an access, whose write reaches the registers afterwards. -/
theorem Agrees.access {d : Dev} {pc : Pc} (h : Agrees d.slave.toRegs p (some (c, pc))) (hp : d.At p)
    (hgbl : d.slave.gblStart = true) (hnext : Next d.slave.inTrans d.slave.entry p q)
    (htrans : r'.inTrans = (d.slave.toRegs.write (putToItab c d.slave pc).1).inTrans)
    (haddr : r'.addr = (d.slave.toRegs.write (putToItab c d.slave pc).1).addr)
    (hlen : r'.len = (d.slave.toRegs.write (putToItab c d.slave pc).1).len) :
    Agrees r' q (continues c (putToItab c d.slave pc).2) := by
  have hentry (hw : (putToItab c d.slave pc).1 = none ∨ ∃ v, (putToItab c d.slave pc).1 = some (.ctrl, v)) :
      r'.entry = d.slave.entry := by
    rw [Regs.entry, haddr, hlen]
    rcases hw with hw | ⟨v, hw⟩ <;> rw [hw] <;> rfl
  cases pc with
  | readStatus =>
      obtain ⟨hno, hrank⟩ := h
      rw [hno] at hnext
      have hq := hnext.rank_le hrank
      by_cases hfull : d.slave.status.word &&& bmItabFull ≠ 0#32
      · simp only [putToItab, if_pos hfull, continues]
        exact ⟨htrans.trans hno, by omega⟩
      · simp only [putToItab, if_neg hfull, continues]
        exact ⟨htrans.trans hno, by omega⟩
  | writeAddr =>
      obtain ⟨hno, hrank⟩ := h
      rw [hno] at hnext
      have hq := hnext.rank_le (by omega)
      exact ⟨htrans.trans hno, by omega, haddr⟩
  | writeLen =>
      obtain ⟨hno, hrank, ha⟩ := h
      rw [hno] at hnext
      have hq := hnext.rank_le (by omega)
      refine ⟨htrans.trans hno, by omega, ?_⟩
      rw [Regs.entry, haddr, hlen]
      exact congrArg (Itab.Entry.mk · _) ha
  | readCtrl =>
      obtain ⟨hno, hrank, he⟩ := h
      rw [hno] at hnext
      have hq := hnext.rank_le (by omega)
      refine ⟨htrans.trans hno, by omega, (hentry (Or.inl rfl)).trans he, ?_, ?_⟩
      · rw [bmInTrans, getLsbD_set _ (by decide)]
        exact Bool.or_eq_true_iff.mpr (Or.inl hgbl)
      · rw [bmInTrans, getLsbD_set _ (by decide)]
        exact Bool.or_true _
  | writeCtrl v =>
      obtain ⟨hno, hrank, he, -, hbit⟩ := h
      rw [hno] at hnext
      have hq := hnext.rank_le (by omega)
      exact ⟨htrans.trans hbit, (hentry (Or.inr ⟨v, rfl⟩)).trans he, Or.inl (by omega)⟩
  | poll =>
      obtain ⟨hyes, he, hphase⟩ := h
      rw [hyes, he] at hnext
      by_cases hdone : d.slave.status.word &&& bmTransferDone = 0#32
      · simp only [putToItab, if_pos hdone, continues]
        exact ⟨htrans.trans hyes, (hentry (Or.inl rfl)).trans he, hnext.requested hphase⟩
      · simp only [putToItab, if_neg hdone, continues]
        obtain rfl := (hp.done_iff hphase).mp ((Status.done_iff _).mp hdone)
        exact ⟨htrans.trans hyes, hnext.done⟩
  | pollCtrl =>
      obtain ⟨hyes, he, hphase⟩ := h
      rw [hyes, he] at hnext
      simp only [putToItab, if_neg (gblStart_word hgbl), continues]
      exact ⟨htrans.trans hyes, (hentry (Or.inl rfl)).trans he, hnext.requested hphase⟩
  | readCtrlAgain =>
      obtain ⟨hyes, rfl⟩ := h
      rw [hyes] at hnext
      refine ⟨htrans.trans hyes, hnext.done, ?_, ?_⟩
      · rw [bmInTrans, getLsbD_clear _ (by decide)]
        exact Bool.and_eq_true_iff.mpr ⟨hgbl, rfl⟩
      · rw [bmInTrans, getLsbD_clear _ (by decide)]
        exact Bool.and_false _
  | writeCtrlAgain v =>
      obtain ⟨hyes, rfl, -, hbit⟩ := h
      rw [hyes] at hnext
      obtain rfl := hnext.done
      exact ⟨htrans.trans hbit, by decide⟩

theorem Agrees.write_gblStart {d : Dev} {pc : Pc} (h : Agrees d.slave.toRegs p (some (c, pc)))
    (hgbl : d.slave.gblStart = true) : (d.slave.toRegs.write (putToItab c d.slave pc).1).gblStart = true := by
  cases pc with
  | writeCtrl v => exact h.2.2.2.1
  | writeCtrlAgain v => exact h.2.2.1
  | _ => exact hgbl

end Phases

section Runs

/-- The accesses after the transfer was requested. -/
def Pc.requested : Pc → Bool
  | .poll | .pollCtrl | .readCtrlAgain | .writeCtrlAgain _ => true
  | _ => false

/-- The table has taken the entry and the slave has not let go of it. -/
def Dev.Stored (d : Dev) : Prop :=
  d.slave.state = .doneWriting ∨ d.slave.state = .writing ∧ d.slave.inTransValid = false

instance (d : Dev) : Decidable d.Stored := inferInstanceAs (Decidable (_ ∨ _))

/-- The entry of the running call, once it is stored. -/
def pending (s : Sys) : List Itab.Entry :=
  match s.task with
  | some (c, pc) => if pc.requested ∧ s.dev.Stored then [c.entry] else []
  | none => []

variable {s : Sys}

theorem step_wait {k : Clock} {c : Call} {pc : Pc} (htask : s.task = some (c, pc)) (hk : k.access = false) :
    step s k = ⟨s.dev.edge none k.ports, s.task⟩ := by
  simp [step, Sys.write, Sys.next, htask, hk]

theorem step_idle (htask : s.task = none) (k : Clock) :
    step s k = ⟨s.dev.edge none k.ports, k.call.map (·, .readStatus)⟩ := by
  simp [step, Sys.write, Sys.next, htask]

theorem step_access {k : Clock} {c : Call} {pc : Pc} (htask : s.task = some (c, pc)) (hk : k.access = true) :
    step s k = ⟨s.dev.edge (putToItab c s.dev.slave pc).1 k.ports, continues c (putToItab c s.dev.slave pc).2⟩ := by
  simp [step, Sys.write, Sys.next, htask, hk]

theorem Sys.Inv.step (h : s.Inv) (k : Clock) : (step s k).Inv := by
  obtain ⟨p, hp, hagrees⟩ := h.agrees
  have hwait : Sys.Inv ⟨s.dev.edge none k.ports, s.task⟩ := by
    obtain ⟨q, hq, hnext, -⟩ := hp.edge h.itab h.gblStart none k.ports
    constructor
    · exact edge_itab_inv h.itab _ _
    · exact (edge_ctrl _ _ _ (by decide)).trans h.gblStart
    · exact ⟨q, hq, hagrees.wait hnext (edge_ctrl _ _ _ (by decide)) (edge_addr _ _ _) (edge_len _ _ _)⟩
  match htask : s.task with
  | none =>
      rw [step_idle htask]
      rw [htask] at hwait
      cases hcall : k.call with
      | none => exact hwait
      | some c => exact ⟨hwait.itab, hwait.gblStart, hwait.agrees⟩
  | some (c, pc) =>
      cases hk : k.access with
      | false =>
          rw [step_wait htask hk]
          exact hwait
      | true =>
          rw [step_access htask hk]
          rw [htask] at hagrees
          obtain ⟨q, hq, hnext, -⟩ := hp.edge h.itab h.gblStart (putToItab c s.dev.slave pc).1 k.ports
          constructor
          · exact edge_itab_inv h.itab _ _
          · exact (edge_ctrl _ _ _ (by decide)).trans (hagrees.write_gblStart h.gblStart)
          · exact ⟨q, hq, hagrees.access hp h.gblStart hnext (edge_ctrl _ _ _ (by decide)) (edge_addr _ _ _)
              (edge_len _ _ _)⟩

theorem Dev.At.stored_iff {d : Dev} {p : Phase} (h : d.At p) : d.Stored ↔ p = .stored ∨ p = .done := by
  cases p <;> simp_all [Dev.At, Dev.Stored]

theorem stores_of_rank {p : Phase} (h : p.rank ≤ 2) : p.stores = [] := by
  cases p with
  | offered e => exact absurd h (by simp [Phase.rank])
  | _ => rfl

/-- Until the transfer is requested nothing is pending and nothing is stored. -/
theorem Agrees.rank_le {r : Regs} {p : Phase} {c : Call} {pc : Pc} (h : Agrees r p (some (c, pc)))
    (hpc : pc.requested = false) : p.rank ≤ 2 := by
  cases pc with
  | readStatus => exact h.2
  | writeAddr => exact h.2.trans (by decide)
  | writeLen => exact h.2.1.le.trans (by decide)
  | readCtrl => exact h.2.1.le.trans (by decide)
  | writeCtrl v => exact h.2.1.le.trans (by decide)
  | poll => cases hpc
  | pollCtrl => cases hpc
  | readCtrlAgain => cases hpc
  | writeCtrlAgain v => cases hpc

theorem Next.pending_eq {p q : Phase} {e e' : Itab.Entry} (h : Next true e p q)
    (hp : p.rank = 0 ∨ p = .offered e' ∨ p = .stored ∨ p = .done) :
    (if p = .stored ∨ p = .done then [e'] else []) ++ p.stores = if q = .stored ∨ q = .done then [e'] else [] := by
  cases h <;> simp_all [Phase.rank, Phase.stores]

theorem pending_of_requested {d : Dev} {p : Phase} {c : Call} {pc : Pc} (hp : d.At p) (hpc : pc.requested = true) :
    pending ⟨d, some (c, pc)⟩ = if p = .stored ∨ p = .done then [c.entry] else [] := by
  simp only [pending, hpc, true_and, hp.stored_iff]

theorem pending_of_not_stored {d : Dev} {p : Phase} (hp : d.At p) (hrank : p.rank ≤ 1) (t : Option (Call × Pc)) :
    pending ⟨d, t⟩ = [] := by
  have hno : ¬ d.Stored := by
    rw [hp.stored_iff]
    rintro (rfl | rfl) <;> simp [Phase.rank] at hrank
  match t with
  | none => rfl
  | some (c, pc) => simp [pending, hno]

theorem pending_of_not_requested {d : Dev} {c : Call} {pc : Pc} (hpc : pc.requested = false) :
    pending ⟨d, some (c, pc)⟩ = [] := by
  simp [pending, hpc]

/-- An access before the transfer is requested returns no 0, and nothing is stored at it. -/
theorem Agrees.early {d d' : Dev} {p q : Phase} {c : Call} {pc : Pc} (h : Agrees d.slave.toRegs p (some (c, pc)))
    (hpc : pc.requested = false) (hnext : Next d.slave.inTrans d.slave.entry p q) (hq : d'.At q) :
    succeeded (returns c (putToItab c d.slave pc).2) = [] ∧
      pending ⟨d', continues c (putToItab c d.slave pc).2⟩ = [] := by
  cases pc with
  | readStatus =>
      by_cases hfull : d.slave.status.word &&& bmItabFull ≠ 0#32
      · simp only [putToItab, if_pos hfull]
        exact ⟨rfl, rfl⟩
      · simp only [putToItab, if_neg hfull]
        exact ⟨rfl, pending_of_not_requested rfl⟩
  | writeAddr => exact ⟨rfl, pending_of_not_requested rfl⟩
  | writeLen => exact ⟨rfl, pending_of_not_requested rfl⟩
  | readCtrl => exact ⟨rfl, pending_of_not_requested rfl⟩
  | writeCtrl v =>
      obtain ⟨hno, hrank, -⟩ := h
      rw [hno] at hnext
      have hle := hnext.rank_le (by omega)
      exact ⟨rfl, pending_of_not_stored hq (by omega) _⟩
  | poll => cases hpc
  | pollCtrl => cases hpc
  | readCtrlAgain => cases hpc
  | writeCtrlAgain v => cases hpc

theorem Agrees.requested {r : Regs} {p : Phase} {c : Call} {pc : Pc} (h : Agrees r p (some (c, pc)))
    (hpc : pc.requested = true) :
    r.inTrans = true ∧ (p.rank = 0 ∨ p = .offered c.entry ∨ p = .stored ∨ p = .done) := by
  cases pc with
  | poll => exact ⟨h.1, h.2.2⟩
  | pollCtrl => exact ⟨h.1, h.2.2⟩
  | readCtrlAgain => exact ⟨h.1, Or.inr (Or.inr (Or.inr h.2))⟩
  | writeCtrlAgain v => exact ⟨h.1, Or.inr (Or.inr (Or.inr h.2.1))⟩
  | readStatus => cases hpc
  | writeAddr => cases hpc
  | writeLen => cases hpc
  | readCtrl => cases hpc
  | writeCtrl v => cases hpc

/-- After the transfer is requested, a call returns 0 at its last write, when its entry is stored. -/
theorem Agrees.late {d d' : Dev} {p q : Phase} {c : Call} {pc : Pc} {e : Itab.Entry}
    (h : Agrees d.slave.toRegs p (some (c, pc))) (hpc : pc.requested = true) (hgbl : d.slave.gblStart = true)
    (hnext : Next true e p q) (hq : d'.At q) :
    (if q = .stored ∨ q = .done then [c.entry] else []) =
      (succeeded (returns c (putToItab c d.slave pc).2)).map Call.entry ++
        pending ⟨d', continues c (putToItab c d.slave pc).2⟩ := by
  cases pc with
  | poll =>
      by_cases hdone : d.slave.status.word &&& bmTransferDone = 0#32
      · simp only [putToItab, if_pos hdone]
        exact (pending_of_requested hq rfl).symm
      · simp only [putToItab, if_neg hdone]
        exact (pending_of_requested hq rfl).symm
  | pollCtrl =>
      simp only [putToItab, if_neg (gblStart_word hgbl)]
      exact (pending_of_requested hq rfl).symm
  | readCtrlAgain => exact (pending_of_requested hq rfl).symm
  | writeCtrlAgain v =>
      obtain ⟨-, rfl, -⟩ := h
      obtain rfl := hnext.done
      rfl
  | readStatus => cases hpc
  | writeAddr => cases hpc
  | writeLen => cases hpc
  | readCtrl => cases hpc
  | writeCtrl v => cases hpc

/-- What the table takes is pending until its call returns 0. -/
theorem Sys.Inv.conserved (h : s.Inv) (k : Clock) :
    pending s ++ accepted s k = (succeeded (s.returned k)).map Call.entry ++ pending (Odev.step s k) := by
  obtain ⟨p, hp, hagrees⟩ := h.agrees
  obtain ⟨d, t⟩ := s
  match t with
  | none =>
      obtain ⟨q, -, -, hstored⟩ := hp.edge h.itab h.gblStart none k.ports
      have hnone : accepted ⟨d, none⟩ k = [] := hstored.trans (stores_of_rank hagrees.2)
      rw [hnone, step_idle rfl]
      cases k.call with
      | none => rfl
      | some c => simp [pending, Pc.requested, Sys.returned, succeeded]
  | some (c, pc) =>
      cases hpc : pc.requested with
      | false =>
          obtain ⟨q, hq, hnext, hstored⟩ := hp.edge h.itab h.gblStart (Sys.write ⟨d, some (c, pc)⟩ k) k.ports
          have hnone : accepted ⟨d, some (c, pc)⟩ k = [] := hstored.trans (stores_of_rank (hagrees.rank_le hpc))
          rw [hnone, pending_of_not_requested hpc]
          cases hk : k.access with
          | false =>
              rw [step_wait rfl hk, pending_of_not_requested hpc]
              simp [Sys.returned, hk, succeeded]
          | true =>
              rw [step_access rfl hk]
              have hwrite : Sys.write ⟨d, some (c, pc)⟩ k = (putToItab c d.slave pc).1 := by simp [Sys.write, hk]
              have hret : Sys.returned ⟨d, some (c, pc)⟩ k = returns c (putToItab c d.slave pc).2 := by
                simp [Sys.returned, hk]
              rw [hwrite] at hq
              obtain ⟨hearly, hpending⟩ := hagrees.early hpc hnext hq
              rw [hret, hearly, hpending]
              rfl
      | true =>
          obtain ⟨hyes, hphase⟩ := hagrees.requested hpc
          obtain ⟨q, hq, hnext, hstored⟩ := hp.edge h.itab h.gblStart (Sys.write ⟨d, some (c, pc)⟩ k) k.ports
          rw [show d.slave.inTrans = true from hyes] at hnext
          rw [pending_of_requested hp hpc, show accepted ⟨d, some (c, pc)⟩ k = p.stores from hstored,
            hnext.pending_eq hphase]
          cases hk : k.access with
          | false =>
              have hwrite : Sys.write ⟨d, some (c, pc)⟩ k = none := by simp [Sys.write, hk]
              rw [hwrite] at hq
              rw [step_wait rfl hk, pending_of_requested hq hpc]
              simp [Sys.returned, hk, succeeded]
          | true =>
              have hwrite : Sys.write ⟨d, some (c, pc)⟩ k = (putToItab c d.slave pc).1 := by simp [Sys.write, hk]
              have hret : Sys.returned ⟨d, some (c, pc)⟩ k = returns c (putToItab c d.slave pc).2 := by
                simp [Sys.returned, hk]
              rw [hwrite] at hq
              rw [step_access rfl hk, hret]
              exact hagrees.late hpc h.gblStart hnext hq

theorem Started.inv {d : Dev} (h : Started d) : Sys.Inv ⟨d, none⟩ := by
  constructor
  · obtain ⟨t, i, htab⟩ := h.itab
    rw [htab]
    exact Itab.inv_reset t i
  · exact h.gblStart
  · exact ⟨.idle, ⟨h.state, h.trigGStart, h.inTransValid⟩, h.inTrans, le_rfl⟩

/-- An entry as the arguments it came from. -/
def args (e : Itab.Entry) : BitVec 32 × BitVec 32 := (e.srcAddr, e.srcLen.setWidth 32)

def Call.args (c : Call) : BitVec 32 × BitVec 32 := (c.sAddr, c.sLen)

theorem args_entry (c : Call) : args c.entry = c.args := by
  have hlen : (c.sLen.setWidth 16).setWidth 32 = c.sLen := by
    apply BitVec.eq_of_toNat_eq
    rw [BitVec.toNat_setWidth, BitVec.toNat_setWidth, Nat.mod_eq_of_lt c.sLen_lt, Nat.mod_eq_of_lt c.sLen.isLt]
  exact congrArg (Prod.mk c.sAddr) hlen

/-- What the table takes in a run: the entries of the calls that return 0, and at most that of the running call. -/
structure StoresOnce (s : Sys) (ks : List Clock) : Prop where
  stored : ∃ rest, (trace step accepted s ks).map args =
      (succeeded (trace step Sys.returned s ks)).map Call.args ++ rest ∧
    (rest = [] ∨ ∃ c pc, (run step s ks).task = some (c, pc) ∧ rest = [c.args])
  returned : (run step s ks).task = none →
    (trace step accepted s ks).map args = (succeeded (trace step Sys.returned s ks)).map Call.args
  writing : (run step s ks).dev.slave.state = .writing →
    (run step s ks).dev.itab.inTransDone = true ∨ ∀ k, (step (run step s ks) k).dev.itab.inTransDone = true

theorem Sys.Inv.writing (h : s.Inv) (hstate : s.dev.slave.state = .writing) :
    s.dev.itab.inTransDone = true ∨ ∀ k, (Odev.step s k).dev.itab.inTransDone = true := by
  obtain ⟨p, hp, -⟩ := h.agrees
  cases p with
  | stored => exact Or.inl hp.2.2.2.2
  | offered e =>
      refine Or.inr fun k => ?_
      obtain ⟨q, hq, hnext, -⟩ := hp.edge h.itab h.gblStart (s.write k) k.ports
      cases hnext with
      | store => exact hq.2.2.2.2
  | idle => exact absurd (hstate.symm.trans hp.1) (by decide)
  | warmingup => exact absurd (hstate.symm.trans hp.1) (by decide)
  | ready => exact absurd (hstate.symm.trans hp.1) (by decide)
  | done => exact absurd (hstate.symm.trans hp.1) (by decide)
  | settling => exact absurd (hstate.symm.trans hp.1) (by decide)
  | full => exact absurd (hstate.symm.trans hp.1) (by decide)

theorem Sys.Inv.trace_accepted (h : s.Inv) (ks : List Clock) : pending s ++ trace Odev.step accepted s ks =
    (succeeded (trace Odev.step Sys.returned s ks)).map Call.entry ++ pending (run Odev.step s ks) := by
  have hedge (s : Sys) (k : Clock) (h : s.Inv) : pending s ++ accepted s k =
      (s.returned k).flatMap (fun r => (if r.2 = .zero then [r.1] else []).map Call.entry) ++
        pending (Odev.step s k) := by
    rw [h.conserved k, succeeded, List.map_flatMap]
  rw [trace_conserved pending (fun s k h => Sys.Inv.step h k) hedge h ks, trace_flatMap, succeeded, List.map_flatMap]

theorem pending_eq_nil_or (s : Sys) :
    pending s = [] ∨ ∃ c pc, s.task = some (c, pc) ∧ pending s = [c.entry] := by
  obtain ⟨d, t⟩ := s
  match t with
  | none => exact Or.inl rfl
  | some (c, pc) =>
      by_cases h : pc.requested ∧ d.Stored
      · exact Or.inr ⟨c, pc, rfl, by simp [pending, h]⟩
      · exact Or.inl (by simp [pending, h])

theorem put_stores_once {d : Dev} (h : Started d) (ks : List Clock) : StoresOnce ⟨d, none⟩ ks := by
  have htrace := congrArg (List.map args) (h.inv.trace_accepted ks)
  rw [show pending ⟨d, none⟩ = [] from rfl, List.nil_append, List.map_append, List.map_map,
    show args ∘ Call.entry = Call.args from funext args_entry] at htrace
  have hinv : (run step ⟨d, none⟩ ks).Inv := run_invariant (fun s k h => h.step k) h.inv ks
  constructor
  · refine ⟨_, htrace, ?_⟩
    rcases pending_eq_nil_or (run step ⟨d, none⟩ ks) with hnil | hsome
    · exact Or.inl (by rw [hnil, List.map_nil])
    · obtain ⟨c, pc, htask, hentry⟩ := hsome
      exact Or.inr ⟨c, pc, htask, by rw [hentry, List.map_singleton, args_entry]⟩
  · intro hidle
    rw [htrace, pending, hidle]
    simp
  · exact hinv.writing

/-- The device as `start_odev` leaves it. -/
def startedDev : Dev :=
  ⟨⟨⟨bmGblStart, 0, 0⟩, ⟨Status.zero, .idle, false, 0, 0, false, 0, false⟩⟩,
    ⟨⟨Itab.clearEntry, 0, 0, false⟩, ⟨fun _ => Itab.clearEntry, 0, 0, false⟩, ⟨false, true⟩⟩⟩

def firstCall : Call := ⟨0x18000000, 0x100, by decide⟩

/-- One call, with an access at every clock, while nothing is read from the table. -/
def firstClocks : List Clock := List.replicate 16 ⟨true, some firstCall, ⟨false, false, false, false⟩⟩

theorem startedDev_started : Started startedDev :=
  ⟨rfl, rfl, rfl, by decide, by decide, startedDev.itab, ⟨Itab.clearEntry, false, false⟩, rfl⟩

theorem put_stores_first : StoresOnce ⟨startedDev, none⟩ firstClocks ∧
    (succeeded (trace step Sys.returned ⟨startedDev, none⟩ firstClocks)).map Call.args = [firstCall.args] :=
  ⟨put_stores_once startedDev_started firstClocks, by decide +kernel⟩

end Runs

end Slos.Odev
