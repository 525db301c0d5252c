import Slos.Machine
import Slos.ModcoreRegs

/-!
# How the engine gets its registers

The engine shows a register number for one clock and then waits for the answer. The register file takes the number
only when it is idle and the CPU asks for nothing, and it shows an answer until its next idle clock. So a request is
served exactly if the register file can take it at that clock, with no earlier answer still shown; what the engine has
when it starts to read are then the registers as they were when the start bit was written.
-/

namespace Slos.Modcore

def Engine.State.Preparing (e : Engine.State) : Prop :=
  e.curState = .prep1 ∨ e.curState = .prep2 ∨ e.curState = .prep3

instance (e : Engine.State) : Decidable e.Preparing := inferInstanceAs (Decidable (_ ∨ _))

/-- The request is up, or it is being served, or its answer is shown. -/
def Pending (s : State) : Prop :=
  s.engine.Preparing →
    s.engine.regOutAddrValid = true ∨ s.regs.curState = .regOut1 ∨ s.regs.regOutDataValid = true

/-- What the engine starts to read with. -/
def Fetched (s : State) (i : Ports) : Prop :=
  s.engine.curState = .prep3 → (edge s i).engine.curState = .read1 →
    (edge s i).engine.araddr = (edge s i).started 2 ∧ (edge s i).engine.remainlen = (edge s i).started 3 ∧
      (edge s i).engine.awaddr = (edge s i).started 4

/-- While the engine prepares, the CPU writes other registers than those it fetches. -/
def OtherRegs (s : State) (i : Ports) : Prop :=
  s.engine.Preparing → s.Lands i → s.regs.waddr ≠ 2 ∧ s.regs.waddr ≠ 3 ∧ s.regs.waddr ≠ 4

/-- At the clock of a request the register file is idle, the CPU asks for nothing and no earlier answer is shown. -/
def Served (s : State) (i : Ports) : Prop :=
  s.engine.Preparing → s.control.gReset = false ∧ i.resetn = true → s.engine.regOutAddrValid = true →
    s.regs.curState = .idle ∧ i.cpu.Silent ∧ s.regs.regOutDataValid = false

instance (s : State) : Decidable (Pending s) := inferInstanceAs (Decidable (_ → _))

instance (s : State) (i : Ports) : Decidable (OtherRegs s i) := inferInstanceAs (Decidable (_ → _ → _))

instance (s : State) (i : Ports) : Decidable (Served s i) := inferInstanceAs (Decidable (_ → _ → _))

/-- All registers as the configuration leaves them. -/
def powerUp : State where
  regs :=
    { curState := .idle, regfile := fun _ => 0, waddr := 0, raddr := 0, awready := false, wready := false,
      writeStrobeValid := false, bvalid := false, arready := false, rdata := 0, rvalid := false, regOutData := 0,
      regOutDataValid := false, regCap := 0 }
  control := ⟨false, false, false, false⟩
  pulse := ⟨false, false⟩
  engine := Engine.powerUp
  started := fun _ => 0

section Regfile

variable {s : State} {i : Ports}

theorem edge_regs : (edge s i).regs = Regs.edge s.regs i.resetn s.control.gReset i.cpu s.engine := rfl

theorem edge_engine : (edge s i).engine = Engine.edge s.engine (s.enginePorts i) := rfl

theorem lands_regfile (h : s.Lands i) :
    (edge s i).regs.regfile = Function.update s.regs.regfile s.regs.waddr i.cpu.wdata := by
  obtain ⟨hg, hr, hphase, hstrobe⟩ := h
  simp [edge_regs, Regs.edge, Regs.axiWrite2, hg, hr, hphase, hstrobe]

/-- Where the CPU's word does not land, the register file at most clears the start and acknowledge bits. -/
theorem not_lands_regfile (hin : s.engine.regInDataValid = false) (h : ¬ s.Lands i) :
    (edge s i).regs.regfile = s.regs.regfile ∨
      (edge s i).regs.regfile = Function.update s.regs.regfile 0 (s.regs.regfile 0 &&& ~~~ 0b11#32) := by
  by_cases hreset : s.control.gReset = true ∨ i.resetn = false
  · rw [edge_regs, Regs.edge, if_pos hreset]
    exact Or.inl rfl
  · rw [edge_regs, Regs.edge, if_neg hreset]
    simp only [not_or, Bool.not_eq_true, Bool.not_eq_false] at hreset
    cases hphase : s.regs.curState with
    | idle =>
        simp only [Regs.idle]
        split_ifs <;> simp
    | axiWrite2 =>
        have hstrobe : ¬ s.regs.writeStrobeValid = true := fun hs => h ⟨hreset.1, hreset.2, hphase, hs⟩
        simp [Regs.axiWrite2, hstrobe]
    | axiWrite1 => exact Or.inl rfl
    | axiWrite3 =>
        simp only
        split_ifs <;> simp
    | axiRead1 => exact Or.inl rfl
    | regIn1 => simp [hin]
    | regOut1 => exact Or.inl rfl

theorem not_lands_regfile_of_ne (hin : s.engine.regInDataValid = false) (h : ¬ s.Lands i) {n : ℕ} (hn : n ≠ 0) :
    (edge s i).regs.regfile n = s.regs.regfile n := by
  rcases not_lands_regfile hin h with heq | heq
  · rw [heq]
  · rw [heq, Function.update_of_ne hn]

/-- A bit of register 0 rises only where the CPU writes it. -/
theorem edge_reg0 (hin : s.engine.regInDataValid = false) {b : ℕ}
    (hb : ((edge s i).regs.regfile 0).getLsbD b = true) :
    (s.regs.regfile 0).getLsbD b = true ∨
      s.Lands i ∧ s.regs.waddr = 0 ∧ i.cpu.wdata.getLsbD b = true := by
  by_cases hlands : s.Lands i
  · rw [lands_regfile hlands] at hb
    by_cases haddr : s.regs.waddr = 0
    · rw [haddr, Function.update_self] at hb
      exact Or.inr ⟨hlands, haddr, hb⟩
    · rw [Function.update_of_ne (Ne.symm haddr)] at hb
      exact Or.inl hb
  · rcases not_lands_regfile hin hlands with heq | heq
    · rw [heq] at hb
      exact Or.inl hb
    · rw [heq, Function.update_self, BitVec.getLsbD_and, Bool.and_eq_true] at hb
      exact Or.inl hb.1

theorem lands_axiWrite3 (h : s.Lands i) : (edge s i).regs.curState = .axiWrite3 := by
  obtain ⟨hg, hr, hphase, hstrobe⟩ := h
  simp [edge_regs, Regs.edge, Regs.axiWrite2, hg, hr, hphase, hstrobe]

theorem axiWrite3_next (h : s.regs.curState = .axiWrite3) :
    (edge s i).regs.curState = .axiWrite3 ∨ (edge s i).regs.curState = .idle := by
  simp only [edge_regs, Regs.edge, Regs.reset, h]
  split_ifs <;> simp [h]

theorem idle_next (h : s.regs.curState = .idle) : (edge s i).regs.curState ≠ .axiWrite2 := by
  simp only [edge_regs, Regs.edge, Regs.reset, Regs.idle, h]
  split_ifs <;> simp

end Regfile

/-- Registers 2, 3 and 4 are as they were when the start bit was written. -/
def Fresh (s : State) : Prop := ∀ n, 2 ≤ n → n ≤ 4 → s.regs.regfile n = s.started n

theorem not_lands {s : State} {i : Ports} (h : s.regs.curState ≠ .axiWrite2) : ¬ s.Lands i := fun hl => h hl.2.2.1

theorem Fresh.keeps {s : State} {i : Ports} (h : Fresh s) (hin : s.engine.regInDataValid = false)
    (hother : s.Lands i → s.regs.waddr ≠ 2 ∧ s.regs.waddr ≠ 3 ∧ s.regs.waddr ≠ 4) : Fresh (edge s i) := by
  intro n hlow hhigh
  have hkeep : (edge s i).regs.regfile n = s.regs.regfile n := by
    by_cases hlands : s.Lands i
    · have hne := hother hlands
      rw [lands_regfile hlands, Function.update_of_ne (by omega)]
    · exact not_lands_regfile_of_ne hin hlands (by omega)
  rw [hkeep, edge]
  split_ifs
  · rfl
  · exact h n hlow hhigh

theorem started_fresh {s : State} {i : Ports} (hlands : s.Lands i) (haddr : s.regs.waddr = 0)
    (hstart : i.cpu.wdata.getLsbD 0 = true) : Fresh (edge s i) := by
  intro n hlow hhigh
  rw [lands_regfile hlands, Function.update_of_ne (by omega), edge]
  simp [hlands, haddr, hstart]

/-- How far the start bit has come, and where the register file is then: it has not had the time for another write. -/
structure Starting (s : State) : Prop where
  written : (s.regs.regfile 0).getLsbD 0 = true → s.control.dmaStart = false → Fresh s ∧ s.regs.curState = .axiWrite3
  risen : s.control.dmaStart = true → s.pulse.dmaStart = false →
    Fresh s ∧ (s.regs.curState = .axiWrite3 ∨ s.regs.curState = .idle)
  pulsed : s.pulse.dmaPulse = true → Fresh s ∧ s.regs.curState ≠ .axiWrite2
  resetWritten : (s.regs.regfile 0).getLsbD 2 = true → s.control.gReset2 = false →
    s.regs.curState = .axiWrite3 ∧ ((s.regs.regfile 0).getLsbD 0 = true → Fresh s)
  resetting : s.control.gReset = true → (s.regs.curState = .axiWrite3 ∨ s.regs.curState = .idle) ∧
    ((s.regs.regfile 0).getLsbD 0 = true → Fresh s)

theorem powerUp_starting : Starting powerUp := by
  constructor <;> simp [powerUp, Pulse.dmaPulse, Control.gReset]

section Starting

variable {s : State} {i : Ports}

theorem Fresh.keeps_of_not_lands (h : Fresh s) (hin : s.engine.regInDataValid = false)
    (hphase : s.regs.curState ≠ .axiWrite2) : Fresh (edge s i) :=
  h.keeps hin fun hl => absurd hl (not_lands hphase)

theorem edge_written (hin : s.engine.regInDataValid = false)
    (hbit : ((edge s i).regs.regfile 0).getLsbD 0 = true) (hlow : (edge s i).control.dmaStart = false) :
    Fresh (edge s i) ∧ (edge s i).regs.curState = .axiWrite3 := by
  rcases edge_reg0 hin hbit with hold | ⟨hlands, haddr, hstart⟩
  · exact absurd hold (Bool.eq_false_iff.mp hlow)
  · exact ⟨started_fresh hlands haddr hstart, lands_axiWrite3 hlands⟩

theorem Starting.edge_risen (h : Starting s) (hin : s.engine.regInDataValid = false)
    (hhigh : (edge s i).control.dmaStart = true) (hlow : (edge s i).pulse.dmaStart = false) :
    Fresh (edge s i) ∧ ((edge s i).regs.curState = .axiWrite3 ∨ (edge s i).regs.curState = .idle) := by
  have hbit : (s.regs.regfile 0).getLsbD 0 = true := hhigh
  cases hreset : s.control.gReset with
  | true =>
      obtain ⟨hphase, hfresh⟩ := h.resetting hreset
      refine ⟨(hfresh hbit).keeps_of_not_lands hin ?_, Or.inr ?_⟩
      · rcases hphase with hp | hp <;> simp [hp]
      · simp [edge_regs, Regs.edge, Regs.reset, hreset]
  | false =>
      have hstart : s.control.dmaStart = false := by simpa [edge, Pulse.edge, hreset] using hlow
      obtain ⟨hfresh, hphase⟩ := h.written hbit hstart
      exact ⟨hfresh.keeps_of_not_lands hin (by simp [hphase]), axiWrite3_next hphase⟩

theorem Starting.edge_pulsed (h : Starting s) (hin : s.engine.regInDataValid = false)
    (hpulse : (edge s i).pulse.dmaPulse = true) : Fresh (edge s i) ∧ (edge s i).regs.curState ≠ .axiWrite2 := by
  cases hreset : s.control.gReset with
  | true => simp [edge, Pulse.edge, Pulse.dmaPulse, hreset] at hpulse
  | false =>
      have hrise : s.control.dmaStart = true ∧ s.pulse.dmaStart = false := by
        simpa [edge, Pulse.edge, Pulse.dmaPulse, hreset] using hpulse
      obtain ⟨hfresh, hphase⟩ := h.risen hrise.1 hrise.2
      refine ⟨hfresh.keeps_of_not_lands hin ?_, ?_⟩
      · rcases hphase with hp | hp <;> simp [hp]
      · rcases hphase with hp | hp
        · rcases axiWrite3_next (i := i) hp with hn | hn <;> simp [hn]
        · exact idle_next hp

theorem edge_resetWritten (hin : s.engine.regInDataValid = false)
    (hbit : ((edge s i).regs.regfile 0).getLsbD 2 = true) (hlow : (edge s i).control.gReset2 = false) :
    (edge s i).regs.curState = .axiWrite3 ∧
      (((edge s i).regs.regfile 0).getLsbD 0 = true → Fresh (edge s i)) := by
  rcases edge_reg0 hin hbit with hold | ⟨hlands, haddr, -⟩
  · exact absurd hold (Bool.eq_false_iff.mp hlow)
  · refine ⟨lands_axiWrite3 hlands, fun hstart => ?_⟩
    rw [lands_regfile hlands, haddr, Function.update_self] at hstart
    exact started_fresh hlands haddr hstart

theorem Starting.edge_resetting (h : Starting s) (hin : s.engine.regInDataValid = false)
    (hreset : (edge s i).control.gReset = true) :
    ((edge s i).regs.curState = .axiWrite3 ∨ (edge s i).regs.curState = .idle) ∧
      (((edge s i).regs.regfile 0).getLsbD 0 = true → Fresh (edge s i)) := by
  have hrise : (s.regs.regfile 0).getLsbD 2 = true ∧ s.control.gReset2 = false := by
    simp only [edge, Control.edge, Control.gReset] at hreset
    revert hreset
    cases (s.regs.regfile 0).getLsbD 2 <;> cases s.control.gReset2 <;> simp
  obtain ⟨hphase, hfresh⟩ := h.resetWritten hrise.1 hrise.2
  have hlands : ¬ s.Lands i := not_lands (by simp [hphase])
  refine ⟨axiWrite3_next hphase, fun hbit => ?_⟩
  rcases edge_reg0 hin hbit with hold | ⟨hl, -⟩
  · exact (hfresh hold).keeps_of_not_lands hin (by simp [hphase])
  · exact absurd hl hlands

theorem Starting.keeps (h : Starting s) (hin : s.engine.regInDataValid = false) : Starting (edge s i) where
  written := edge_written hin
  risen := h.edge_risen hin
  pulsed := h.edge_pulsed hin
  resetWritten := edge_resetWritten hin
  resetting := h.edge_resetting hin

end Starting

namespace Engine

variable {e : State} {i : Ports}

theorem edge_eq_prep1 (h : (edge e i).curState = .prep1) : (i.gReset = false ∧ i.resetn = true) ∧
    (e.curState = .idle ∧ i.dmaPulse = true ∨ e.curState = .prep1 ∧ i.regOutDataValid = false) := by
  unfold edge at h
  grind [idle, prep1, prep2, prep3, read1, read2, read3, mdproc1, mdproc2, write1, write2, bresp1]

theorem edge_eq_prep2 (h : (edge e i).curState = .prep2) : (i.gReset = false ∧ i.resetn = true) ∧
    (e.curState = .prep1 ∧ i.regOutDataValid = true ∨ e.curState = .prep2 ∧ i.regOutDataValid = false) := by
  unfold edge at h
  grind [idle, prep1, prep2, prep3, read1, read2, read3, mdproc1, mdproc2, write1, write2, bresp1]

theorem edge_eq_prep3 (h : (edge e i).curState = .prep3) : (i.gReset = false ∧ i.resetn = true) ∧
    (e.curState = .prep2 ∧ i.regOutDataValid = true ∨ e.curState = .prep3 ∧ i.regOutDataValid = false) := by
  unfold edge at h
  grind [idle, prep1, prep2, prep3, read1, read2, read3, mdproc1, mdproc2, write1, write2, bresp1]

theorem edge_regIn (h : e.regInAddrValid = false ∧ e.regInDataValid = false) :
    (edge e i).regInAddrValid = false ∧ (edge e i).regInDataValid = false := by
  unfold edge
  grind [idle, prep1, prep2, prep3, read1, read2, read3, mdproc1, mdproc2, write1, write2, bresp1]

end Engine

/-- Where the request for register `n` is: shown, being served, or answered. -/
def Asking (s : State) (n : ℕ) : Prop :=
  s.engine.regOutAddrValid = true ∧ s.engine.regOutAddr.toNat = n ∨
    s.engine.regOutAddrValid = false ∧ s.regs.curState = .regOut1 ∧ s.regs.raddr = n ∧ s.regs.regOutDataValid = false ∨
    s.engine.regOutAddrValid = false ∧ s.regs.regOutDataValid = true ∧ s.regs.regOutData = s.regs.regfile n

structure Inv (s : State) : Prop where
  regIn : s.engine.regInAddrValid = false ∧ s.engine.regInDataValid = false
  starting : Starting s
  prep1 : s.engine.curState = .prep1 → Fresh s ∧ Asking s 2
  prep2 : s.engine.curState = .prep2 → Fresh s ∧ Asking s 3 ∧ s.engine.araddr = s.started 2
  prep3 : s.engine.curState = .prep3 →
    Fresh s ∧ Asking s 4 ∧ s.engine.araddr = s.started 2 ∧ s.engine.remainlen = s.started 3

theorem powerUp_inv : Inv powerUp where
  regIn := ⟨rfl, rfl⟩
  starting := powerUp_starting
  prep1 := nofun
  prep2 := nofun
  prep3 := nofun

section Steps

variable {s : State} {i : Ports}

theorem Fresh.started_edge (h : Fresh s) {n : ℕ} (hlow : 2 ≤ n) (hhigh : n ≤ 4) :
    (edge s i).started n = s.started n := by
  rw [edge]
  split_ifs
  · exact h n hlow hhigh
  · rfl

/-- A request that is served comes to its answer. -/
theorem Asking.keeps {n : ℕ} (h : Asking s n) (hprep : s.engine.Preparing) (hserved : Served s i)
    (hin : s.engine.regInAddrValid = false) (hreset : s.control.gReset = false ∧ i.resetn = true)
    (hlow : s.regs.regOutDataValid = false) (haddr : (edge s i).engine.regOutAddrValid = false) :
    Asking (edge s i) n := by
  rcases h with ⟨hvalid, hn⟩ | ⟨-, hphase, hn, -⟩ | ⟨-, hshown, -⟩
  · obtain ⟨hphase, ⟨hwrite, hread⟩, -⟩ := hserved hprep hreset hvalid
    refine Or.inr (Or.inl ⟨haddr, ?_⟩)
    simp [edge_regs, Regs.edge, Regs.idle, hreset, hphase, hwrite, hread, hin, hvalid, hn, hlow]
  · refine Or.inr (Or.inr ⟨haddr, ?_⟩)
    simp [edge_regs, Regs.edge, hreset, hphase, hn]
  · exact absurd hshown (Bool.eq_false_iff.mp hlow)

/-- An answer that is taken is the one to the request. -/
theorem Asking.answer {n : ℕ} (h : Asking s n) (hprep : s.engine.Preparing) (hserved : Served s i)
    (hreset : s.control.gReset = false ∧ i.resetn = true) (hhigh : s.regs.regOutDataValid = true) :
    s.regs.regOutData = s.regs.regfile n := by
  rcases h with ⟨hvalid, -⟩ | ⟨-, -, -, hlow⟩ | ⟨-, -, hdata⟩
  · exact absurd hhigh (Bool.eq_false_iff.mp (hserved hprep hreset hvalid).2.2)
  · exact absurd hhigh (Bool.eq_false_iff.mp hlow)
  · exact hdata

theorem Asking.pending {n : ℕ} (h : Asking s n) : Pending s := by
  intro _
  rcases h with ⟨hvalid, -⟩ | ⟨-, hphase, -⟩ | ⟨-, hshown, -⟩
  · exact Or.inl hvalid
  · exact Or.inr (Or.inl hphase)
  · exact Or.inr (Or.inr hshown)

theorem Inv.pending (h : Inv s) : Pending s := by
  intro hprep
  rcases hprep with hp | hp | hp
  · exact (h.prep1 hp).2.pending (Or.inl hp)
  · exact (h.prep2 hp).2.1.pending (Or.inr (Or.inl hp))
  · exact (h.prep3 hp).2.1.pending (Or.inr (Or.inr hp))

theorem Inv.fresh_edge (h : Inv s) (hprep : s.engine.Preparing) (hother : OtherRegs s i) (hfresh : Fresh s) :
    Fresh (edge s i) := hfresh.keeps h.regIn.2 (hother hprep)

theorem Inv.edge_prep1 (h : Inv s) (hother : OtherRegs s i) (hserved : Served s i)
    (hnext : (edge s i).engine.curState = .prep1) : Fresh (edge s i) ∧ Asking (edge s i) 2 := by
  obtain ⟨hreset, ⟨hphase, hpulse⟩ | ⟨hphase, hlow⟩⟩ := Engine.edge_eq_prep1 hnext
  · obtain ⟨hfresh, hregs⟩ := h.starting.pulsed hpulse
    refine ⟨hfresh.keeps_of_not_lands h.regIn.2 hregs, Or.inl ?_⟩
    simp only [edge_engine, Engine.edge, hphase, hreset, Engine.idle, hpulse]
    exact ⟨rfl, rfl⟩
  · have hprep : s.engine.Preparing := Or.inl hphase
    obtain ⟨hfresh, hask⟩ := h.prep1 hphase
    refine ⟨h.fresh_edge hprep hother hfresh, hask.keeps hprep hserved h.regIn.1 hreset hlow ?_⟩
    simp [edge_engine, Engine.edge, hphase, hreset, Engine.prep1, hlow]

theorem Inv.edge_prep2 (h : Inv s) (hother : OtherRegs s i) (hserved : Served s i)
    (hnext : (edge s i).engine.curState = .prep2) :
    Fresh (edge s i) ∧ Asking (edge s i) 3 ∧ (edge s i).engine.araddr = (edge s i).started 2 := by
  obtain ⟨hreset, ⟨hphase, hhigh⟩ | ⟨hphase, hlow⟩⟩ := Engine.edge_eq_prep2 hnext
  · have hprep : s.engine.Preparing := Or.inl hphase
    obtain ⟨hfresh, hask⟩ := h.prep1 hphase
    have hdata := hask.answer hprep hserved hreset hhigh
    refine ⟨h.fresh_edge hprep hother hfresh, Or.inl ?_, ?_⟩
    · simp only [edge_engine, Engine.edge, hphase, hreset, Engine.prep1, hhigh]
      exact ⟨rfl, rfl⟩
    · rw [hfresh.started_edge (n := 2) (by decide) (by decide), ← hfresh 2 (by decide) (by decide), ← hdata]
      simp only [edge_engine, Engine.edge, hphase, hreset, Engine.prep1, hhigh]
      rfl
  · have hprep : s.engine.Preparing := Or.inr (Or.inl hphase)
    obtain ⟨hfresh, hask, hsrc⟩ := h.prep2 hphase
    refine ⟨h.fresh_edge hprep hother hfresh, hask.keeps hprep hserved h.regIn.1 hreset hlow ?_, ?_⟩
    · simp [edge_engine, Engine.edge, hphase, hreset, Engine.prep2, hlow]
    · rw [hfresh.started_edge (n := 2) (by decide) (by decide), ← hsrc]
      simp [edge_engine, Engine.edge, hphase, hreset, Engine.prep2, hlow]

theorem Inv.edge_prep3 (h : Inv s) (hother : OtherRegs s i) (hserved : Served s i)
    (hnext : (edge s i).engine.curState = .prep3) :
    Fresh (edge s i) ∧ Asking (edge s i) 4 ∧ (edge s i).engine.araddr = (edge s i).started 2 ∧
      (edge s i).engine.remainlen = (edge s i).started 3 := by
  obtain ⟨hreset, ⟨hphase, hhigh⟩ | ⟨hphase, hlow⟩⟩ := Engine.edge_eq_prep3 hnext
  · have hprep : s.engine.Preparing := Or.inr (Or.inl hphase)
    obtain ⟨hfresh, hask, hsrc⟩ := h.prep2 hphase
    have hdata := hask.answer hprep hserved hreset hhigh
    have hengine : (edge s i).engine = Engine.prep2 s.engine (s.enginePorts i) := by
      simp [edge_engine, Engine.edge, hphase, hreset]
    rw [hfresh.started_edge (n := 2) (by decide) (by decide), hfresh.started_edge (n := 3) (by decide) (by decide),
      ← hsrc, ← hfresh 3 (by decide) (by decide), ← hdata, hengine, Engine.prep2, if_pos hhigh]
    refine ⟨h.fresh_edge hprep hother hfresh, Or.inl ?_, rfl, rfl⟩
    rw [hengine, Engine.prep2, if_pos hhigh]
    exact ⟨rfl, rfl⟩
  · have hprep : s.engine.Preparing := Or.inr (Or.inr hphase)
    obtain ⟨hfresh, hask, hsrc, hlen⟩ := h.prep3 hphase
    have hengine : (edge s i).engine = { s.engine with regOutAddrValid := false } := by
      simp [edge_engine, Engine.edge, hphase, hreset, Engine.prep3, hlow]
    rw [hfresh.started_edge (n := 2) (by decide) (by decide), hfresh.started_edge (n := 3) (by decide) (by decide),
      hengine]
    exact ⟨h.fresh_edge hprep hother hfresh, hask.keeps hprep hserved h.regIn.1 hreset hlow (by rw [hengine]), hsrc, hlen⟩

theorem Inv.keeps (h : Inv s) (hother : OtherRegs s i) (hserved : Served s i) : Inv (edge s i) where
  regIn := Engine.edge_regIn h.regIn
  starting := h.starting.keeps h.regIn.2
  prep1 := h.edge_prep1 hother hserved
  prep2 := h.edge_prep2 hother hserved
  prep3 := h.edge_prep3 hother hserved

/-- With no earlier answer shown, a request that the register file cannot take is dropped. -/
theorem served_of_pending (hlow : s.regs.regOutDataValid = false) (hin : s.engine.regInAddrValid = false)
    (hphase : s.regs.curState ≠ .regOut1) (hnext : Pending (edge s i)) : Served s i := by
  intro hprep hreset hvalid
  have hengine : (edge s i).engine = { s.engine with regOutAddrValid := false } := by
    rcases hprep with hp | hp | hp <;>
      simp [edge_engine, Engine.edge, State.enginePorts, Engine.prep1, Engine.prep2, Engine.prep3, hp, hreset, hlow]
  have hpending := hnext (by rw [hengine]; exact hprep)
  rw [hengine] at hpending
  rcases hpending with hv | hserving | hshown
  · cases hv
  · revert hserving
    rw [edge_regs, Regs.edge, if_neg (by simp [hreset])]
    grind [Regs.idle, Regs.reset, Regs.axiWrite2, Regs.Ports.Silent]
  · revert hshown
    rw [edge_regs, Regs.edge, if_neg (by simp [hreset])]
    grind [Regs.idle, Regs.reset, Regs.axiWrite2]

theorem Inv.fetched (h : Inv s) (hserved : Served s i) : Fetched s i := by
  intro hphase hnext
  obtain ⟨hfresh, hask, hsrc, hlen⟩ := h.prep3 hphase
  have hrun : ¬ ((s.enginePorts i).gReset = true ∨ (s.enginePorts i).resetn = false) := by
    intro hr
    rw [edge_engine, Engine.edge, if_pos hr] at hnext
    cases hnext
  have hengine : (edge s i).engine = Engine.prep3 s.engine (s.enginePorts i) := by
    rw [edge_engine, Engine.edge, if_neg hrun, hphase]
  have hreset : s.control.gReset = false ∧ i.resetn = true := by
    simpa [State.enginePorts] using hrun
  cases hshown : (s.enginePorts i).regOutDataValid with
  | false =>
      rw [hengine, Engine.prep3, if_neg (Bool.eq_false_iff.mp hshown)] at hnext
      exact absurd (hphase.symm.trans hnext) (by decide)
  | true =>
      have hdata := hask.answer (Or.inr (Or.inr hphase)) hserved hreset hshown
      rw [hfresh.started_edge (n := 2) (by decide) (by decide), hfresh.started_edge (n := 3) (by decide) (by decide),
        hfresh.started_edge (n := 4) (by decide) (by decide), ← hsrc, ← hlen, ← hfresh 4 (by decide) (by decide),
        ← hdata, hengine, Engine.prep3, if_pos hshown]
      exact ⟨rfl, rfl, rfl⟩

end Steps

/-- If every request comes when the register file can take it, none is dropped and the engine starts to read with the
registers as they were when the start bit was written. -/
theorem fetches_registers (is : List Ports)
    (h : Machine.StepsMeet step (fun s i => OtherRegs s i ∧ Served s i) powerUp is) :
    Machine.Always step Pending powerUp is ∧ Machine.StepsMeet step Fetched powerUp is := by
  have hstep : ∀ s i t, Inv s → OtherRegs s i ∧ Served s i → step s i = some t → Inv t := by
    intro s i t hs hc ht
    cases ht
    exact hs.keeps hc.1 hc.2
  constructor
  · exact Machine.always_of_stepsMeet Inv (fun s hs => hs.pending) hstep powerUp_inv h
  · exact Machine.stepsMeet_of_stepsMeet Inv hstep (fun s i _ hs hc _ => hs.fetched hc.2) powerUp_inv h

/-- The CPU asks for nothing, with `BREADY` as given. -/
def silent (bready : Bool) : Regs.Ports := ⟨0, false, 0, 0, false, bready, 0, false⟩

/-- The CPU writes `data` to the register at `addr`. -/
def writing (addr : BitVec 7) (data : BitVec 32) : Regs.Ports := ⟨addr, true, data, 0b1111, true, true, 0, false⟩

def Ports.ofCpu (cpu : Regs.Ports) : Ports := ⟨true, cpu, 0, false, false, 0, false, false, false, false, false⟩

/-- Registers 2, 3 and 4 are written and then the start bit, each in four clocks, the last of them with `BREADY`. -/
def programmed : List Ports :=
  ([(0x08, 0x1000), (0x0c, 0x40), (0x10, 0x2000)].flatMap fun (addr, data) =>
    [writing addr data, writing addr data, writing addr data, silent true]).map Ports.ofCpu ++
  [writing 0 1, writing 0 1, writing 0 1].map Ports.ofCpu

theorem fetches_registers_silent :
    Machine.Always step Pending powerUp (programmed ++ List.replicate 13 (Ports.ofCpu (silent true))) ∧
      Machine.StepsMeet step Fetched powerUp (programmed ++ List.replicate 13 (Ports.ofCpu (silent true))) := by
  apply fetches_registers
  decide +kernel

/-- `BREADY` comes three clocks late for the write of the start bit, and the first request is lost. -/
theorem late_bready_drops :
    Machine.StepsMeet step OtherRegs powerUp
        (programmed ++ List.replicate 3 (Ports.ofCpu (silent false)) ++ [Ports.ofCpu (silent true)]) ∧
      ¬ Machine.Always step Pending powerUp
        (programmed ++ List.replicate 3 (Ports.ofCpu (silent false)) ++ [Ports.ofCpu (silent true)]) := by
  constructor
  · decide +kernel
  · intro h
    have hlast := Machine.always_iff_exec.mp h _ (List.prefix_refl _) _ rfl
    revert hlast
    decide +kernel

end Slos.Modcore
