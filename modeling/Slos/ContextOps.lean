import Slos.ContextSwitch

/-!
# What saving and restoring do

The effect of the pieces of assembly on whole contexts: the entry of an interrupt and its exit, the switch inside an
interrupt and the one of `yieldyi`.
-/

namespace Slos
open Word Arm

theorem map_r0r11 (f : Reg → ℕ) : r0r11.map f = List.ofFn fun i => f (gpr i) := by
  simp [List.ofFn_succ, r0r11, gpr]

theorem u32_words {a k : ℕ} (h : a + k < 2 ^ 30) : u32 (4 * a + 4 * k) = 4 * (a + k) := by
  rw [u32_of_lt (by unfold size; omega)]
  omega

/-- What a piece of code that uses the registers `rs` leaves alone. -/
structure Frame (rs : List Reg) (c c' : Cpu) : Prop where
  reg : ∀ q, q ∉ rs → c'.reg q = c.reg q
  cpsr : c'.cpsr = c.cpsr
  mpidr : c'.mpidr = c.mpidr

section Fpu

/-- The end of a context: s0 to s31, FPSCR, FPEXC. -/
def saveFpu : List Instr := [vstmia .r12, readFpscr .r0, strPost .r0 .r12, readFpexc .r0, str .r0 .r12]

def restoreFpu : List Instr := [vldmia .r12, ldrPost .r0 .r12, writeFpscr .r0, ldr .r0 .r12, writeFpexc .r0]

variable {c : Cpu} {a : ℕ}

theorem saveFpu_mem (ha : c.reg .r12 = 4 * a) (hlt : a + 33 < 2 ^ 30) :
    (exec saveFpu c).mem =
      Function.update (Function.update (storeBlock c.mem a (List.ofFn c.s)) (a + 32) c.fpscr) (a + 33) c.fpexc := by
  have h32 : u32 (4 * a + 4 * 32) = 4 * (a + 32) := u32_words (by omega)
  have h33 : u32 (4 * (a + 32) + 4) = 4 * (a + 33) := u32_words (a := a + 32) (k := 1) (by omega)
  simp [saveFpu, vstmia, readFpscr, strPost, readFpexc, str, Cpu.wordAt, ha, h32, h33]

theorem saveFpu_frame (c : Cpu) : Frame [.r0, .r12] c (exec saveFpu c) := by
  constructor
  · intro q hq
    simp only [List.mem_cons, not_or, List.not_mem_nil] at hq
    simp [saveFpu, vstmia, readFpscr, strPost, readFpexc, str, hq]
  · rfl
  · rfl

theorem restoreFpu_frame (c : Cpu) : Frame [.r0, .r12] c (exec restoreFpu c) := by
  constructor
  · intro q hq
    simp only [List.mem_cons, not_or, List.not_mem_nil] at hq
    simp [restoreFpu, vldmia, ldrPost, writeFpscr, writeFpexc, ldr, hq]
  · rfl
  · rfl

theorem restoreFpu_mem (c : Cpu) : (exec restoreFpu c).mem = c.mem := rfl

theorem restoreFpu_s (ha : c.reg .r12 = 4 * a) : (exec restoreFpu c).s = fun i : Fin 32 => c.mem (a + i) := by
  funext i
  simp [restoreFpu, Cpu.wordAt, ha]

theorem restoreFpu_status (ha : c.reg .r12 = 4 * a) (hlt : a + 33 < 2 ^ 30) :
    (exec restoreFpu c).fpscr = c.mem (a + 32) ∧ (exec restoreFpu c).fpexc = c.mem (a + 33) := by
  have h32 : u32 (4 * a + 4 * 32) = 4 * (a + 32) := u32_words (by omega)
  have h33 : u32 (4 * (a + 32) + 4) = 4 * (a + 33) := u32_words (a := a + 32) (k := 1) (by omega)
  simp [restoreFpu, vldmia, ldrPost, writeFpscr, writeFpexc, ldr, Cpu.wordAt, ha, h32, h33]

end Fpu

section Interrupt

/-- The beginning of `irq_handler`, up to the floating point context. -/
def irqSaveRegs (core : Core) : List Instr :=
  [ movImm .r12 core.contextMem, stmia .r12 r0r11, subImm .r0 .lrExc 4, msrImm (modeSvc ||| iBit ||| fBit),
    movImm .r12 core.contextMemSp, stmia .r12 [.sp, .lr], strPost .r0 .r12, addImm .r12 .r12 4 ]

variable (core : Core) (c : Cpu)

theorem irqSave_eq : irqSave core = irqSaveRegs core ++ saveFpu := rfl

theorem irqSaveRegs_mem (hpc : c.reg .pc < size) : (exec (irqSaveRegs core) (takeIrq c)).mem =
    Function.update (storeBlock (storeBlock c.mem core.contextWord (List.ofFn fun i => c.reg (gpr i)))
      (core.contextWord + 12) [c.reg .sp, c.reg .lr]) (core.contextWord + 14) (c.reg .pc) := by
  have hlt := core.contextWord_lt
  have hret : usub (u32 (c.reg .pc + 4)) 4 = c.reg .pc := by
    unfold usub u32 size at *
    omega
  have h2 : u32 (4 * (core.contextWord + 12) + 4 * 2) = 4 * (core.contextWord + 14) :=
    u32_words (by unfold contextWords at hlt; omega)
  rw [← map_r0r11]
  simp [irqSaveRegs, takeIrq, takeException, r0r11, core.contextMem_eq, core.contextMemSp_eq, Cpu.wordAt, hret,
    h2]

theorem irqSaveRegs_fpu : (exec (irqSaveRegs core) (takeIrq c)).s = c.s ∧
    (exec (irqSaveRegs core) (takeIrq c)).fpscr = c.fpscr ∧ (exec (irqSaveRegs core) (takeIrq c)).fpexc = c.fpexc :=
  ⟨rfl, rfl, rfl⟩

theorem irqSaveRegs_r12 :
    (exec (irqSaveRegs core) (takeIrq c)).reg .r12 = 4 * (core.contextWord + 16) := by
  have hlt := core.contextWord_lt
  unfold contextWords at hlt
  have h14 : u32 (4 * (core.contextWord + 12) + 4 * 2) = 4 * (core.contextWord + 14) := u32_words (by omega)
  have h15 : u32 (4 * (core.contextWord + 14) + 4) = 4 * (core.contextWord + 15) :=
    u32_words (a := core.contextWord + 14) (k := 1) (by omega)
  have h16 : u32 (4 * (core.contextWord + 15) + 4) = 4 * (core.contextWord + 16) :=
    u32_words (a := core.contextWord + 15) (k := 1) (by omega)
  simp [irqSaveRegs, takeIrq, takeException, core.contextMem_eq, core.contextMemSp_eq, h14, h15, h16]

/-- The entry stores the context of the interrupted code in the context memory. -/
theorem irqSave_mem (hpc : c.reg .pc < size) :
    (exec (irqSave core) (takeIrq c)).mem = saveContext c.mem core.contextWord (cpuContext c) := by
  have hlt := core.contextWord_lt
  obtain ⟨hs, hfpscr, hfpexc⟩ := irqSaveRegs_fpu core c
  rw [irqSave_eq, exec_append, saveFpu_mem (irqSaveRegs_r12 core c) (by unfold contextWords at hlt; omega),
    irqSaveRegs_mem core c hpc, hs, hfpscr, hfpexc]
  rfl

theorem irqRestore_eq : irqRestore core =
    movImm .r12 core.contextMemFpu :: (restoreFpu ++ [movImm .r12 core.contextMem, ldmia .r12 (r0r11 ++ [.sp, .lr, .pc])]) :=
  rfl

/-- What the exit path loads; r12 is left behind the words it loads r0 to pc from. -/
structure Restored (c c' : Cpu) : Prop where
  context : cpuContext c' = loadContext c.mem core.contextWord
  r12 : c'.reg .r12 = 4 * (core.contextWord + 15)
  mem : c'.mem = c.mem
  cpsr : c'.cpsr = c.cpsr
  mpidr : c'.mpidr = c.mpidr

theorem gpr_mem (i : Fin 12) : gpr i ∈ r0r11 := List.get_mem ..

theorem idxOf_gpr (i : Fin 12) : (r0r11 ++ [Reg.sp, .lr, .pc]).idxOf (gpr i) = i := by
  revert i
  decide

theorem irqRestore_restored : Restored core c (exec (irqRestore core) c) := by
  have hlt := core.contextWord_lt
  unfold contextWords at hlt
  obtain ⟨d, hd⟩ : ∃ d, d = movImm .r12 core.contextMemFpu c := ⟨_, rfl⟩
  have hr12 : d.reg .r12 = 4 * (core.contextWord + 16) := by
    rw [hd, ← core.contextMemFpu_eq]
    simp
  obtain ⟨e, he⟩ : ∃ e, e = exec restoreFpu d := ⟨_, rfl⟩
  have hmem : e.mem = c.mem := by rw [he, restoreFpu_mem, hd, movImm_mem]
  have hs : e.s = fun i : Fin 32 => c.mem (core.contextWord + 16 + i) := by
    rw [he, restoreFpu_s hr12, hd, movImm_mem]
  obtain ⟨hfpscr, hfpexc⟩ := restoreFpu_status hr12 (by omega)
  have hend : exec (irqRestore core) c =
      ldmia .r12 (r0r11 ++ [.sp, .lr, .pc]) (movImm .r12 core.contextMem e) := by
    rw [irqRestore_eq, exec_cons, exec_append, ← hd, ← he]
    rfl
  have hword : (movImm .r12 core.contextMem e).wordAt .r12 = core.contextWord := by
    simp [Cpu.wordAt, core.contextMem_eq]
  have hload (q : Reg) (hq : q ∈ r0r11 ++ [Reg.sp, .lr, .pc]) :
      (exec (irqRestore core) c).reg q = c.mem (core.contextWord + (r0r11 ++ [Reg.sp, .lr, .pc]).idxOf q) := by
    rw [hend, ldmia_reg]
    dsimp only
    rw [hword, if_pos hq, movImm_mem, hmem]
  rw [← he, hd, movImm_mem] at hfpscr hfpexc
  constructor
  · ext i
    · change (exec (irqRestore core) c).reg (gpr i) = c.mem (core.contextWord + i)
      rw [hload _ (List.mem_append_left _ (gpr_mem i)), idxOf_gpr]
    · exact hload .sp (by simp)
    · exact hload .lr (by simp)
    · exact hload .pc (by simp)
    · change (exec (irqRestore core) c).s i = _
      rw [hend, ldmia_s, movImm_s, hs]
      rfl
    · change (exec (irqRestore core) c).fpscr = _
      rw [hend, ldmia_fpscr, movImm_fpscr, hfpscr]
      rfl
    · change (exec (irqRestore core) c).fpexc = _
      rw [hend, ldmia_fpexc, movImm_fpexc, hfpexc]
      rfl
  · rw [hend, ldmia_reg]
    dsimp only
    rw [if_neg (by decide), if_pos rfl, movImm_reg, Function.update_self, core.contextMem_eq]
    exact u32_words (k := 15) (by omega)
  · rw [hend, ldmia_mem, movImm_mem, hmem]
  · rw [hend, ldmia_cpsr, movImm_cpsr, he, (restoreFpu_frame d).cpsr, hd, movImm_cpsr]
  · rw [hend, ldmia_mpidr, movImm_mpidr, he, (restoreFpu_frame d).mpidr, hd, movImm_mpidr]

end Interrupt

section Copy

/-- The context at word `b` is the one that was at word `a`, the reserved word apart. -/
structure ContextCopied (src dst : Reg) (a b : ℕ) (c c' : Cpu) : Prop where
  mem : ∀ w, c'.mem w = if b ≤ w ∧ w < b + contextWords ∧ w ≠ b + 15 then c.mem (a + (w - b)) else c.mem w
  other : ∀ q, q ∉ [Reg.r2, .r3, src, dst] → c'.reg q = c.reg q
  mpidr : c'.mpidr = c.mpidr

variable {src dst : Reg} {a b : ℕ} {c : Cpu}

theorem copyWord_copied (hnd : [Reg.r3, src, dst, .r2].Nodup) (ha : c.reg src = 4 * a) (hb : c.reg dst = 4 * b)
    (ha' : a + 1 < 2 ^ 30) (hb' : b + 1 < 2 ^ 30) :
    Copied .r3 src dst .r2 a b 1 c (exec [ldrPost .r3 src, strPost .r3 dst] c) := by
  obtain ⟨⟨hts, htd, -⟩, ⟨hsd, -⟩, -⟩ :
      (Reg.r3 ≠ src ∧ Reg.r3 ≠ dst ∧ Reg.r3 ≠ .r2) ∧ (src ≠ dst ∧ src ≠ .r2) ∧ dst ≠ .r2 := by
    simpa using hnd
  have hsrc : u32 (4 * a + 4) = 4 * (a + 1) := u32_words (k := 1) ha'
  have hdst : u32 (4 * b + 4) = 4 * (b + 1) := u32_words (k := 1) hb'
  constructor
  · exact (exec_copyRound hnd ha hb ha' hb').1.mem
  · simp [hsd, hts.symm, ha, hsrc]
  · simp [htd.symm, hsd.symm, hb, hdst]
  · intro q h1 h2 h3 h4
    simp [h1, h2, h3]
  · rfl
  · rfl
  · rfl
  · rfl

theorem copyContext_copied {first second : Reg} (hnd : [Reg.r3, src, dst, .r2].Nodup)
    (hends : first = src ∧ second = dst ∨ first = dst ∧ second = src) (ha : c.reg src = 4 * a) (hb : c.reg dst = 4 * b)
    (hlen : c.reg .r2 = contextMemLen) (ha' : a + contextWords < 2 ^ 30) (hb' : b + contextWords < 2 ^ 30)
    (hapart : a + contextWords ≤ b ∨ b + contextWords ≤ a) :
    ContextCopied src dst a b c (exec (copyContext src dst first second) c) := by
  unfold contextWords at ha' hb' hapart
  obtain ⟨⟨hts, htd, htn⟩, ⟨hsd, hsn⟩, hdn⟩ :
      (Reg.r3 ≠ src ∧ Reg.r3 ≠ dst ∧ Reg.r3 ≠ .r2) ∧ (src ≠ dst ∧ src ≠ .r2) ∧ dst ≠ .r2 := by
    simpa using hnd
  obtain ⟨c₁, hc₁⟩ : ∃ d, d = copyLoop src dst c := ⟨_, rfl⟩
  have h₁ : Copied .r3 src dst .r2 a b 15 c c₁ := by
    rw [hc₁]
    exact loopNe_copyRound (k := 14) hnd (by decide) ha hb hlen (by decide) (by omega) (by omega) (by omega)
  obtain ⟨c₂, hc₂⟩ : ∃ d, d = movImm .r2 32 (addImm second second 4 (addImm first first 4 c₁)) := ⟨_, rfl⟩
  have hsrc₂ : c₂.reg src = 4 * (a + 16) := by
    have hskip : u32 (4 * (a + 15) + 4) = 4 * (a + 16) := u32_words (a := a + 15) (k := 1) (by omega)
    rcases hends with ⟨rfl, rfl⟩ | ⟨rfl, rfl⟩ <;> simp [hc₂, hsn, hsd, hsd.symm, h₁.srcEnd, hskip]
  have hdst₂ : c₂.reg dst = 4 * (b + 16) := by
    have hskip : u32 (4 * (b + 15) + 4) = 4 * (b + 16) := u32_words (a := b + 15) (k := 1) (by omega)
    rcases hends with ⟨rfl, rfl⟩ | ⟨rfl, rfl⟩ <;> simp [hc₂, hdn, hsd, hsd.symm, h₁.dstEnd, hskip]
  have hmem₂ : c₂.mem = c₁.mem := by rw [hc₂]; rfl
  obtain ⟨c₃, hc₃⟩ : ∃ d, d = copyLoop src dst c₂ := ⟨_, rfl⟩
  have h₃ : Copied .r3 src dst .r2 (a + 16) (b + 16) 32 c₂ c₃ := by
    rw [hc₃]
    exact loopNe_copyRound (k := 31) hnd (by decide) hsrc₂ hdst₂ (by simp [hc₂]) (by decide) (by omega) (by omega)
      (by omega)
  obtain ⟨c₄, hc₄⟩ : ∃ d, d = exec [ldrPost .r3 src, strPost .r3 dst] c₃ := ⟨_, rfl⟩
  have h₄ : Copied .r3 src dst .r2 (a + 48) (b + 48) 1 c₃ c₄ := by
    rw [hc₄]
    exact copyWord_copied hnd h₃.srcEnd h₃.dstEnd (by omega) (by omega)
  have h₅ : Copied .r3 src dst .r2 (a + 49) (b + 49) 1 c₄ (exec [ldrPost .r3 src, strPost .r3 dst] c₄) :=
    copyWord_copied hnd h₄.srcEnd h₄.dstEnd (by omega) (by omega)
  have hend : exec (copyContext src dst first second) c = exec [ldrPost .r3 src, strPost .r3 dst] c₄ := by
    simp only [hc₄, hc₃, hc₂, hc₁, copyContext, exec_cons, exec_nil]
  rw [hend]
  constructor
  · intro w
    split
    next hw =>
      obtain ⟨hle, hlt, hne⟩ := hw
      unfold contextWords at hlt
      have hsrc : ∀ x, a ≤ x → x < a + 50 → c₄.mem x = c.mem x ∧ c₃.mem x = c.mem x ∧ c₂.mem x = c.mem x := by
        intro x hx hx'
        rw [h₄.mem_of_out (by omega), h₃.mem_of_out (by omega), hmem₂, h₁.mem_of_out (by omega)]
        exact ⟨rfl, rfl, rfl⟩
      by_cases h49 : w = b + 49
      · rw [h₅.mem_of_in (by omega), (hsrc _ (by omega) (by omega)).1]
        congr 1
        omega
      rw [h₅.mem_of_out (by omega)]
      by_cases h48 : w = b + 48
      · rw [h₄.mem_of_in (by omega), (hsrc _ (by omega) (by omega)).2.1]
        congr 1
        omega
      rw [h₄.mem_of_out (by omega)]
      by_cases h16 : b + 16 ≤ w
      · rw [h₃.mem_of_in (by omega), (hsrc _ (by omega) (by omega)).2.2]
        congr 1
        omega
      · rw [h₃.mem_of_out (by omega), hmem₂, h₁.mem_of_in (by omega)]
    next hw =>
      unfold contextWords at hw
      rw [h₅.mem_of_out (by omega), h₄.mem_of_out (by omega), h₃.mem_of_out (by omega), hmem₂,
        h₁.mem_of_out (by omega)]
  · intro q hq
    simp only [List.mem_cons, not_or, List.not_mem_nil, not_false_eq_true, and_true] at hq
    obtain ⟨h2, h3, hs, hd⟩ := hq
    have hq₂ : c₂.reg q = c₁.reg q := by
      rcases hends with ⟨rfl, rfl⟩ | ⟨rfl, rfl⟩ <;> simp [hc₂, h2, hs, hd]
    rw [h₅.other q h3 hs hd h2, h₄.other q h3 hs hd h2, h₃.other q h3 hs hd h2, hq₂, h₁.other q h3 hs hd h2]
  · have hmpidr : c₂.mpidr = c₁.mpidr := by rw [hc₂]; rfl
    rw [h₅.mpidr, h₄.mpidr, h₃.mpidr, hmpidr, h₁.mpidr]

end Copy

section Switch

theorem loadContext_congr {m m' : ℕ → ℕ} {a b : ℕ} (h : ∀ i < contextWords, i ≠ 15 → m (a + i) = m' (b + i)) :
    loadContext m a = loadContext m' b := by
  unfold contextWords at h
  ext i
  · exact h i (by omega) (by omega)
  · exact h 12 (by omega) (by omega)
  · exact h 13 (by omega) (by omega)
  · exact h 14 (by omega) (by omega)
  · change m (a + 16 + i) = m' (b + 16 + i)
    rw [Nat.add_assoc, Nat.add_assoc]
    exact h (16 + i) (by omega) (by omega)
  · exact h 48 (by omega) (by omega)
  · exact h 49 (by omega) (by omega)

/-- Two contexts that share no word. -/
def Apart (a b : ℕ) : Prop := a + contextWords ≤ b ∨ b + contextWords ≤ a

theorem Apart.symm {a b : ℕ} (h : Apart a b) : Apart b a := Or.symm h

/-- The `n` words from `a` on are outside the context at `x`. -/
def Clear (a n x : ℕ) : Prop := a + n ≤ x ∨ x + contextWords ≤ a

theorem loadContext_saveContext_other (mem : ℕ → ℕ) {a b : ℕ} (x : Context) (h : Apart b a) :
    loadContext (saveContext mem a x) b = loadContext mem b := by
  apply loadContext_congr
  intro i hi _
  unfold Apart at h
  exact saveContext_other mem x (by omega)

theorem loadContext_storeBlock (mem : ℕ → ℕ) {a x : ℕ} {ws : List ℕ} (h : Clear a ws.length x) :
    loadContext (storeBlock mem a ws) x = loadContext mem x := by
  apply loadContext_congr
  intro i hi _
  unfold Clear at h
  exact storeBlock_of_notMem mem (by omega)

variable {src dst : Reg} {a b x : ℕ} {c c' : Cpu}

theorem ContextCopied.load (h : ContextCopied src dst a b c c') : loadContext c'.mem b = loadContext c.mem a := by
  apply loadContext_congr
  intro i hi hne
  rw [h.mem, if_pos (by omega), Nat.add_sub_cancel_left]

theorem ContextCopied.load_other (h : ContextCopied src dst a b c c') (hx : Apart x b) :
    loadContext c'.mem x = loadContext c.mem x := by
  apply loadContext_congr
  intro i hi _
  unfold Apart at hx
  rw [h.mem, if_neg (by omega)]

/-- The core whose number the processor reads. -/
def RunsOn (core : Core) (c : Cpu) : Prop := c.mpidr &&& 3 = match core with | .cpu0 => 0 | .cpu1 => 1

/-- The words that `do_switch_context` pushes its registers to. -/
def pushedAt (c : Cpu) : ℕ := usub (c.reg .sp) (4 * 7) / 4

structure Selected (core : Core) (c c' : Cpu) : Prop where
  r0 : c'.reg .r0 = c.reg .r5
  r1 : c'.reg .r1 = c.reg .r1
  r2 : c'.reg .r2 = contextMemLen
  r4 : c'.reg .r4 = 4 * core.contextWord
  r12 : c'.reg .r12 = 4 * core.contextWord
  mem : c'.mem = c.mem
  mpidr : c'.mpidr = c.mpidr

theorem selectContextMem_selected {core : Core} (hcore : RunsOn core c) (ret : ℕ) :
    Selected core c (selectContextMem ret c) := by
  cases core with
  | cpu0 =>
      unfold selectContextMem
      rw [if_neg (by simp [smpProcessorId, cmpImm, setFlags, show c.mpidr &&& 3 = 0 from hcore])]
      constructor <;> simp [smpProcessorId, cmpImm, setFlags, Core.contextMem, Core.contextWord]
  | cpu1 =>
      unfold selectContextMem
      rw [if_pos (by simp [smpProcessorId, cmpImm, setFlags, show c.mpidr &&& 3 = 1 from hcore])]
      constructor <;> simp [smpProcessorId, cmpImm, setFlags, Core.contextMem, Core.contextWord]

/-- What `do_switch_context` needs: the addresses of two tasks whose contexts are apart from each other and from the
context memory, and a stack that is apart from all of them. -/
structure Switchable (core : Core) (cur next : ℕ) (c : Cpu) : Prop where
  runs : RunsOn core c
  r0 : c.reg .r0 = 4 * cur
  r1 : c.reg .r1 = 4 * next
  cur_lt : cur + contextWords < 2 ^ 30
  next_lt : next + contextWords < 2 ^ 30
  cur_apart : Apart cur core.contextWord
  next_apart : Apart next core.contextWord
  apart : next = cur ∨ Apart next cur

/-- The context memory is stored as the one task's context and filled with the other's. -/
structure Switched (core : Core) (cur next : ℕ) (m m' : ℕ → ℕ) : Prop where
  saved : loadContext m' cur = loadContext m core.contextWord
  loaded : loadContext m' core.contextWord =
    if next = cur then loadContext m core.contextWord else loadContext m next
  other : ∀ x, Apart x cur → Apart x core.contextWord → loadContext m' x = loadContext m x

theorem doSwitchContext_switched {core : Core} {cur next : ℕ} (ret : ℕ) (h : Switchable core cur next c) :
    Switched core cur next (storeBlock c.mem (pushedAt c) ([.r0, .r1, .r2, .r3, .r4, .r5, .lr].map c.reg))
      (exec (doSwitchContext ret) c).mem ∧ (exec (doSwitchContext ret) c).mpidr = c.mpidr := by
  obtain ⟨hcore, hr0, hr1, hcur, hnext, hcurApart, hnextApart, hboth⟩ := h
  have hlt := core.contextWord_lt
  obtain ⟨c₁, hc₁⟩ : ∃ d, d = movReg .r5 .r0 (push [.r0, .r1, .r2, .r3, .r4, .r5, .lr] c) := ⟨_, rfl⟩
  have hmem₁ : c₁.mem = storeBlock c.mem (pushedAt c) ([.r0, .r1, .r2, .r3, .r4, .r5, .lr].map c.reg) := by
    rw [hc₁, movReg_mem, push_mem]
    rfl
  obtain ⟨c₂, hc₂⟩ : ∃ d, d = selectContextMem ret c₁ := ⟨_, rfl⟩
  have hcore₁ : RunsOn core c₁ := by
    unfold RunsOn at hcore ⊢
    rwa [hc₁, movReg_mpidr, push_mpidr]
  have hsel : Selected core c₁ c₂ := by
    rw [hc₂]
    exact selectContextMem_selected hcore₁ ret
  have hr0₂ : c₂.reg .r0 = 4 * cur := by rw [hsel.r0, hc₁, movReg_reg, Function.update_self]; simpa using hr0
  have hr1₂ : c₂.reg .r1 = 4 * next := by rw [hsel.r1, hc₁]; simpa using hr1
  obtain ⟨c₃, hc₃⟩ : ∃ d, d = exec (copyContext .r4 .r0 .r0 .r4) c₂ := ⟨_, rfl⟩
  have hsave : ContextCopied .r4 .r0 core.contextWord cur c₂ c₃ := by
    rw [hc₃]
    exact copyContext_copied (by decide) (Or.inr ⟨rfl, rfl⟩) hsel.r4 hr0₂ hsel.r2 hlt hcur hcurApart.symm
  obtain ⟨c₄, hc₄⟩ : ∃ d, d = movReg .r4 .r12 (movImm .r2 contextMemLen c₃) := ⟨_, rfl⟩
  have hr4₄ : c₄.reg .r4 = 4 * core.contextWord := by
    rw [hc₄]
    simpa [hsave.other .r12 (by decide)] using hsel.r12
  have hr1₄ : c₄.reg .r1 = 4 * next := by
    rw [hc₄]
    simpa [hsave.other .r1 (by decide)] using hr1₂
  have hmem₄ : c₄.mem = c₃.mem := by rw [hc₄, movReg_mem, movImm_mem]
  obtain ⟨c₅, hc₅⟩ : ∃ d, d = exec (copyContext .r1 .r4 .r4 .r1) c₄ := ⟨_, rfl⟩
  have hrestore : ContextCopied .r1 .r4 next core.contextWord c₄ c₅ := by
    rw [hc₅]
    exact copyContext_copied (by decide) (Or.inr ⟨rfl, rfl⟩) hr1₄ hr4₄ (by simp [hc₄]) hnext hlt hnextApart
  have hend : exec (doSwitchContext ret) c = pop [.r0, .r1, .r2, .r3, .r4, .r5, .pc] c₅ := by
    rw [hc₅, hc₄, hc₃, hc₂, hc₁]
    simp only [doSwitchContext, exec_append, exec_cons, exec_nil]
  have hmpidr : c₅.mpidr = c.mpidr := by
    rw [hrestore.mpidr, hc₄, movReg_mpidr, movImm_mpidr, hsave.mpidr, hsel.mpidr, hc₁, movReg_mpidr, push_mpidr]
  rw [hend, pop, ldmia_mem, ldmia_mpidr, ← hmem₁, ← hsel.mem]
  refine ⟨⟨?_, ?_, ?_⟩, hmpidr⟩
  · rw [hrestore.load_other hcurApart, hmem₄, hsave.load]
  · rw [hrestore.load, hmem₄]
    split
    next heq => rw [heq, hsave.load]
    next hne => rw [hsave.load_other (hboth.resolve_left hne)]
  · intro x hx hx'
    rw [hrestore.load_other hx', hmem₄, hsave.load_other hx]

end Switch

section Yield

/-- The beginning of `switch_context_yieldyi`, up to the floating point context. -/
def yieldSaveRegs : List Instr :=
  [movReg .r12 .r0, stmia .r12 r0r11, strPost .sp .r12, strPost .lr .r12, strPost .lr .r12, addImm .r12 .r12 4]

/-- Its end, from the floating point context on. -/
def yieldLoadRegs : List Instr :=
  [movReg .r12 .r1, ldmia .r12 r0r11, ldrPost .sp .r12, ldrPost .lr .r12, mrs .r1, bicImm .r1 .r1 ifBit, msrReg .r1,
    ldr .pc .r12]

theorem switchContextYieldyi_eq : switchContextYieldyi =
    yieldSaveRegs ++ saveFpu ++ [addImm .r12 .r1 cpuContextSz] ++ restoreFpu ++ yieldLoadRegs := rfl

/-- The context that a yielding task leaves: it goes on after the call. -/
def yieldContext (c : Cpu) : Context := { cpuContext c with pc := c.reg .lr }

variable {c : Cpu} {cur next : ℕ}

theorem storeBlock_pair (mem : ℕ → ℕ) (a x y : ℕ) :
    storeBlock mem a [x, y] = Function.update (Function.update mem a x) (a + 1) y := by
  funext w
  by_cases h1 : w = a + 1
  · subst h1
    simp [storeBlock]
  · by_cases h0 : w = a
    · subst h0
      simp [storeBlock]
    · rw [storeBlock_of_notMem _ (by simp only [List.length_cons, List.length_nil]; omega),
        Function.update_of_ne h1, Function.update_of_ne h0]

theorem yieldSaveRegs_mem (hr0 : c.reg .r0 = 4 * cur) (hcur : cur + contextWords < 2 ^ 30) :
    (exec yieldSaveRegs c).mem =
      Function.update (storeBlock (storeBlock c.mem cur (List.ofFn fun i => c.reg (gpr i))) (cur + 12)
        [c.reg .sp, c.reg .lr]) (cur + 14) (c.reg .lr) ∧
    (exec yieldSaveRegs c).reg .r12 = 4 * (cur + 16) := by
  unfold contextWords at hcur
  have h12 : u32 (4 * cur + 4 * 12) = 4 * (cur + 12) := u32_words (by omega)
  have h13 : u32 (4 * (cur + 12) + 4) = 4 * (cur + 13) := u32_words (a := cur + 12) (k := 1) (by omega)
  have h14 : u32 (4 * (cur + 13) + 4) = 4 * (cur + 14) := u32_words (a := cur + 13) (k := 1) (by omega)
  have h15 : u32 (4 * (cur + 14) + 4) = 4 * (cur + 15) := u32_words (a := cur + 14) (k := 1) (by omega)
  have h16 : u32 (4 * (cur + 15) + 4) = 4 * (cur + 16) := u32_words (a := cur + 15) (k := 1) (by omega)
  rw [← map_r0r11, storeBlock_pair]
  constructor
  · simp [yieldSaveRegs, r0r11, Cpu.wordAt, hr0, h12, h13, h14]
  · simp [yieldSaveRegs, r0r11, hr0, h12, h13, h14, h15, h16]

/-- What a yield does: the context is saved, and the other one loaded but for r1, which holds the status register. -/
structure Yielded (cur next : ℕ) (c c' : Cpu) : Prop where
  mem : c'.mem = saveContext c.mem cur (yieldContext c)
  context : cpuContext c' = { loadContext c'.mem next with
    r := Function.update (loadContext c'.mem next).r 1 (c.cpsr &&& (0xFFFFFFFF ^^^ ifBit)) }
  cpsr : c'.cpsr = c.cpsr / 256 * 256 + (c.cpsr &&& (0xFFFFFFFF ^^^ ifBit)) % 256
  mpidr : c'.mpidr = c.mpidr

theorem yieldLoadRegs_reg (hr1 : c.reg .r1 = 4 * next) (hnext : next + contextWords < 2 ^ 30) :
    (∀ i : Fin 12, (exec yieldLoadRegs c).reg (gpr i) =
      if i = 1 then c.cpsr &&& (0xFFFFFFFF ^^^ ifBit) else c.mem (next + i)) ∧
    (exec yieldLoadRegs c).reg .sp = c.mem (next + 12) ∧ (exec yieldLoadRegs c).reg .lr = c.mem (next + 13) ∧
    (exec yieldLoadRegs c).reg .pc = c.mem (next + 14) := by
  unfold contextWords at hnext
  have h12 : u32 (4 * next + 4 * 12) = 4 * (next + 12) := u32_words (by omega)
  have h13 : u32 (4 * (next + 12) + 4) = 4 * (next + 13) := u32_words (a := next + 12) (k := 1) (by omega)
  have h14 : u32 (4 * (next + 13) + 4) = 4 * (next + 14) := u32_words (a := next + 13) (k := 1) (by omega)
  have hidx : ∀ i : Fin 12, r0r11.idxOf (gpr i) = i := by decide
  refine ⟨fun i => ?_, ?_, ?_, ?_⟩
  · have hout : gpr i ≠ .r12 ∧ gpr i ≠ .sp ∧ gpr i ≠ .lr ∧ gpr i ≠ .pc ∧ (gpr i = .r1 ↔ i = 1) := by
      revert i
      decide
    simp [yieldLoadRegs, Cpu.wordAt, hr1, hout, Function.update_apply, gpr_mem, hidx]
  · simp [yieldLoadRegs, r0r11, Cpu.wordAt, hr1, h12]
  · simp [yieldLoadRegs, r0r11, Cpu.wordAt, hr1, h12, h13]
  · simp [yieldLoadRegs, r0r11, Cpu.wordAt, hr1, h12, h13, h14]

theorem switchContextYieldyi_yielded (hr0 : c.reg .r0 = 4 * cur) (hr1 : c.reg .r1 = 4 * next)
    (hcur : cur + contextWords < 2 ^ 30) (hnext : next + contextWords < 2 ^ 30) :
    Yielded cur next c (exec switchContextYieldyi c) := by
  obtain ⟨hmem₁, hr12₁⟩ := yieldSaveRegs_mem hr0 hcur
  obtain ⟨c₁, hc₁⟩ : ∃ d, d = exec yieldSaveRegs c := ⟨_, rfl⟩
  rw [← hc₁] at hmem₁ hr12₁
  have hr1₁ : c₁.reg .r1 = 4 * next := by
    rw [hc₁]
    simpa [yieldSaveRegs] using hr1
  have hfpu₁ : c₁.s = c.s ∧ c₁.fpscr = c.fpscr ∧ c₁.fpexc = c.fpexc ∧ c₁.cpsr = c.cpsr ∧ c₁.mpidr = c.mpidr := by
    rw [hc₁]
    exact ⟨rfl, rfl, rfl, rfl, rfl⟩
  obtain ⟨hs₁, hfpscr₁, hfpexc₁, hcpsr₁, hmpidr₁⟩ := hfpu₁
  obtain ⟨c₂, hc₂⟩ : ∃ d, d = exec saveFpu c₁ := ⟨_, rfl⟩
  have hframe₂ : Frame [.r0, .r12] c₁ c₂ := hc₂ ▸ saveFpu_frame c₁
  have hmem₂ : c₂.mem = saveContext c.mem cur (yieldContext c) := by
    rw [hc₂, saveFpu_mem hr12₁ (by unfold contextWords at hcur; omega), hmem₁, hs₁, hfpscr₁, hfpexc₁]
    rfl
  obtain ⟨c₃, hc₃⟩ : ∃ d, d = addImm .r12 .r1 cpuContextSz c₂ := ⟨_, rfl⟩
  have hr12₃ : c₃.reg .r12 = 4 * (next + 16) := by
    rw [hc₃, addImm_reg, Function.update_self, hframe₂.reg .r1 (by decide), hr1₁]
    exact u32_words (k := 16) (by unfold contextWords at hnext; omega)
  have hmem₃ : c₃.mem = c₂.mem := by rw [hc₃, addImm_mem]
  obtain ⟨hfpscr₄, hfpexc₄⟩ := restoreFpu_status hr12₃ (by unfold contextWords at hnext; omega)
  have hs₄ := restoreFpu_s hr12₃
  have hmem₄ := restoreFpu_mem c₃
  have hframe₄ := restoreFpu_frame c₃
  obtain ⟨c₄, hc₄⟩ : ∃ d, d = exec restoreFpu c₃ := ⟨_, rfl⟩
  rw [← hc₄] at hfpscr₄ hfpexc₄ hs₄ hmem₄ hframe₄
  have hr1₄ : c₄.reg .r1 = 4 * next := by
    rw [hframe₄.reg .r1 (by decide), hc₃]
    simpa [hframe₂.reg .r1 (by decide)] using hr1₁
  have hcpsr₄ : c₄.cpsr = c.cpsr := by rw [hframe₄.cpsr, hc₃, addImm_cpsr, hframe₂.cpsr, hcpsr₁]
  obtain ⟨hr, hsp, hlr, hpc⟩ := yieldLoadRegs_reg hr1₄ hnext
  have hend : exec switchContextYieldyi c = exec yieldLoadRegs c₄ := by
    rw [switchContextYieldyi_eq, exec_append, exec_append, exec_append, exec_append, ← hc₁, ← hc₂, hc₄, hc₃]
    rfl
  have hmem : (exec switchContextYieldyi c).mem = c₄.mem := by
    rw [hend]
    rfl
  rw [hcpsr₄] at hr
  constructor
  · rw [hmem, hmem₄, hmem₃, hmem₂]
  · rw [hmem]
    ext i
    · change (exec switchContextYieldyi c).reg (gpr i) = Function.update (loadContext c₄.mem next).r 1 _ i
      rw [hend, hr, Function.update_apply]
      rfl
    · change (exec switchContextYieldyi c).reg .sp = _
      rw [hend, hsp]
      rfl
    · change (exec switchContextYieldyi c).reg .lr = _
      rw [hend, hlr]
      rfl
    · change (exec switchContextYieldyi c).reg .pc = _
      rw [hend, hpc]
      rfl
    · change (exec switchContextYieldyi c).s i = _
      rw [hend]
      exact (congrFun hs₄ i).trans (by rw [hmem₄]; rfl)
    · change (exec switchContextYieldyi c).fpscr = _
      rw [hend]
      exact hfpscr₄.trans (by rw [hmem₄]; rfl)
    · change (exec switchContextYieldyi c).fpexc = _
      rw [hend]
      exact hfpexc₄.trans (by rw [hmem₄]; rfl)
  · rw [hend, ← hcpsr₄]
    simp [yieldLoadRegs]
  · rw [hend]
    exact hframe₄.mpidr.trans (by rw [hc₃, addImm_mpidr, hframe₂.mpidr, hmpidr₁])

end Yield

end Slos
