import Slos.TaskSwitch

/-!
# Returning from interrupts

Interrupts at every instruction at which they are enabled, those of the exit path included. The exit path starts at
`base`. The code that is interrupted is a task's or the exit path itself; `frames` keeps the processor as each
interrupt found it until the interrupted code continues.
-/

namespace Slos.IrqReturn
open Word Arm TaskSwitch
open Machine (Always StepsMeet always_of_stepsMeet)

/-- `place` is where in the exit path the processor is. -/
structure State (τ : Type*) where
  cpu : Cpu
  current : τ
  place : Option ℕ
  frames : τ → List Cpu
  continued : List (Cpu × Cpu)

/-- An interrupt gives the processor as the handler leaves it and, if the handler switches to another task, as it is
at the call of `do_switch_context`. -/
inductive Label (τ : Type*) where
  | code (c : Cpu)
  | exit
  | irq (switch : Option (Cpu × τ)) (left : Cpu)

variable {core : Core} {τ : Type*} (L : Layout core τ) (base ret : ℕ)

/-- The place in the exit path that an address is of. -/
def placeOf (pc : ℕ) : Option ℕ :=
  if base ≤ pc ∧ pc < base + 32 ∧ (pc - base) % 4 = 0 then some ((pc - base) / 4) else none

/-- The processor that an interrupt finds. -/
def State.found (s : State τ) : Cpu :=
  match s.place with
  | none => s.cpu
  | some j => s.cpu.set .pc (base + 4 * j)

/-- The last instruction of the exit path: the code of the current task that was interrupted last continues. -/
def State.resume [DecidableEq τ] (s : State τ) (c : Cpu) : State τ :=
  { s with
    cpu := c
    place := placeOf base (c.reg .pc)
    frames := Function.update s.frames s.current (s.frames s.current).tail
    continued := s.continued ++ ((s.frames s.current).head?.map fun f => (f, c)).toList }

/-- The processor at the exit path of an interrupt whose handler does not switch. -/
def afterIsr (c left : Cpu) : Cpu := exec irqEnable (L.keep (exec (irqSave core) (takeIrq c)) left)

/-- Interrupts are enabled, and the code is a task's outside the exit path or the exit path. -/
def State.CanInterrupt (s : State τ) : Prop :=
  irqMasked s.cpu.cpsr = false ∧ (s.found base).reg .pc < size ∧
    (s.place = none → placeOf base (s.cpu.reg .pc) = none)

instance (s : State τ) : Decidable (s.CanInterrupt base) := inferInstanceAs (Decidable (_ ∧ _ ∧ _))

def step [DecidableEq τ] (s : State τ) : Label τ → Option (State τ)
  | .code c => if s.place = none then some { s with cpu := L.keep s.cpu c } else none
  | .exit => match s.place with
    | none => none
    | some j => ((irqRestore core)[j]?).map fun i =>
        if j + 1 < (irqRestore core).length then { s with cpu := i s.cpu, place := some (j + 1) }
        else s.resume base (i s.cpu)
  | .irq switch left =>
      let c := s.found base
      let frames := Function.update s.frames s.current (c :: s.frames s.current)
      if s.CanInterrupt base then
        match switch with
        | none => some { s with cpu := afterIsr L c left, place := some 0, frames := frames }
        | some (call, next) =>
            -- a task that was never interrupted starts outside the exit path
            if L.StackClear (L.atCall c call s.current next) ∧
                (frames next = [] → placeOf base (loadContext s.cpu.mem (L.addr next)).pc = none) then
              some { s with
                cpu := L.afterHandler ret c call left s.current next
                current := next
                place := some 0
                frames := frames }
            else none
      else none

/-- Interrupted code continues with all its registers and its flags. -/
structure Same (found now : Cpu) : Prop where
  context : cpuContext now = cpuContext found
  r12 : now.reg .r12 = found.reg .r12
  flags : nzcv now.cpsr = nzcv found.cpsr

def Transparent (s : State τ) : Prop := ∀ p ∈ s.continued, Same p.1 p.2

/-- The task whose code the interrupt leads to. -/
def Label.next (switch : Option (Cpu × τ)) (cur : τ) : τ := (switch.map (·.2)).getD cur

/-- An interrupt that is not taken in the exit path, of code that has the end of the context memory in r12, and whose
handler leaves the flags of the code that continues. -/
def Unharmed [DecidableEq τ] (core : Core) (s : State τ) : Label τ → Prop
  | .irq switch left =>
      s.place = none ∧ s.cpu.reg .r12 = 4 * (core.contextWord + 15) ∧
        ∀ f ∈ (Function.update s.frames s.current [s.cpu] (Label.next switch s.current)).head?,
          nzcv left.cpsr = nzcv f.cpsr
  | _ => True

instance [DecidableEq τ] (s : State τ) : ∀ i, Decidable (Unharmed core s i)
  | .irq _ _ => inferInstanceAs (Decidable (_ ∧ _ ∧ _))
  | .code _ | .exit => isTrue trivial

section Invariant

/-- A processor that the exit path gives back unharmed. -/
structure Kept (core : Core) (f : Cpu) : Prop where
  r12 : f.reg .r12 = 4 * (core.contextWord + 15)
  place : placeOf base (f.reg .pc) = none

/-- A task that was interrupted has the context that the interrupt found, or it never ran. -/
def Waiting (mem : ℕ → ℕ) (frames : τ → List Cpu) (t : τ) : Prop :=
  frames t = [] ∨ ∃ f, frames t = [f] ∧ Kept base core f ∧ loadContext mem (L.addr t) = cpuContext f

/-- What the exit path, entered with the processor `c`, gives to the current task. -/
def Loads (core : Core) (c : Cpu) (frames : List Cpu) : Prop :=
  frames = [] ∧ placeOf base (loadContext c.mem core.contextWord).pc = none ∨
    ∃ f, frames = [f] ∧ Kept base core f ∧ loadContext c.mem core.contextWord = cpuContext f ∧
      nzcv c.cpsr = nzcv f.cpsr

/-- The processor is at place `j` of the exit path, which it entered as `c`. -/
structure Leaving (s : State τ) (j : ℕ) (c : Cpu) : Prop where
  lt : j < (irqRestore core).length
  cpu : s.cpu = exec ((irqRestore core).take j) c
  runs : RunsOn core c
  loads : Loads base core c (s.frames s.current)
  waiting : ∀ t, t ≠ s.current → Waiting L base c.mem s.frames t

/-- The processor runs the code of a task. -/
structure Running (s : State τ) : Prop where
  runs : RunsOn core s.cpu
  frames : s.frames s.current = []
  waiting : ∀ t, t ≠ s.current → Waiting L base s.cpu.mem s.frames t

structure Inv (s : State τ) : Prop where
  transparent : Transparent s
  running : s.place = none → Running L base s
  leaving : ∀ j, s.place = some j → ∃ c, Leaving L base s j c

variable {L} {base} {s t : State τ} {c : Cpu}

theorem Waiting.congr {m m' : ℕ → ℕ} {frames frames' : τ → List Cpu} {t : τ} (h : Waiting L base m frames t)
    (hframes : frames' t = frames t) (hload : loadContext m' (L.addr t) = loadContext m (L.addr t)) :
    Waiting L base m' frames' t := by
  unfold Waiting
  rw [hframes, hload]
  exact h

theorem nzcv_irqEnable (c : Cpu) : nzcv (exec irqEnable c).cpsr = nzcv c.cpsr := by
  simp only [irqEnable, exec_cons, exec_nil, msrReg_cpsr, bicImm_cpsr, mrs_cpsr, nzcv]
  omega

theorem exit_cpu {j : ℕ} {i : Instr} (hi : (irqRestore core)[j]? = some i) (c : Cpu) :
    i (exec ((irqRestore core).take j) c) = exec ((irqRestore core).take (j + 1)) c := by
  rw [List.take_add_one, hi, exec_append]
  rfl

theorem Inv.code (h : Inv L base s) (hplace : s.place = none) (d : Cpu) :
    Inv L base { s with cpu := L.keep s.cpu d } := by
  obtain ⟨hruns, hframes, hwaiting⟩ := h.running hplace
  refine ⟨h.transparent, fun _ => ⟨hruns, hframes, fun t ht => ?_⟩, fun j hj => ?_⟩
  · exact (hwaiting t ht).congr rfl (L.keep_load _ _ _)
  · cases hplace.symm.trans hj

theorem Inv.resume [DecidableEq τ] {c' : Cpu} (h : Inv L base s) (hruns : RunsOn core c)
    (hloads : Loads base core c (s.frames s.current))
    (hwaiting : ∀ t, t ≠ s.current → Waiting L base c.mem s.frames t) (hrestored : Restored core c c') :
    Inv L base (s.resume base c') := by
  have hpc : c'.reg .pc = (loadContext c.mem core.contextWord).pc := congrArg Context.pc hrestored.context
  have hrunning (hnone : (s.frames s.current).tail = []) : Running L base (s.resume base c') := by
    refine ⟨?_, ?_, fun t ht => ?_⟩
    · exact (congrArg (· &&& 3) hrestored.mpidr).trans hruns
    · exact (Function.update_self ..).trans hnone
    · apply (hwaiting t ht).congr
      · exact Function.update_of_ne ht _ _
      · exact congrArg (fun m => loadContext m (L.addr t)) hrestored.mem
  rcases hloads with ⟨hnone, hplace⟩ | ⟨f, hframes, hkept, hload, hflags⟩
  · refine ⟨fun p hp => h.transparent p ?_, fun _ => hrunning (by rw [hnone]; rfl), fun j hj => ?_⟩
    · simpa [State.resume, hnone] using hp
    · rw [← hpc] at hplace
      cases hplace.symm.trans hj
  · have hsame : Same f c' :=
      ⟨hrestored.context.trans hload, hrestored.r12.trans hkept.r12.symm, hrestored.cpsr ▸ hflags⟩
    refine ⟨fun p hp => ?_, fun _ => hrunning (by rw [hframes]; rfl), fun j hj => ?_⟩
    · have hp' : p ∈ s.continued ∨ p = (f, c') := by simpa [State.resume, hframes] using hp
      rcases hp' with hold | rfl
      · exact h.transparent p hold
      · exact hsame
    · have hplace : placeOf base (c'.reg .pc) = none := by
        rw [hpc, hload]
        exact hkept.place
      cases hplace.symm.trans hj

theorem Inv.exit [DecidableEq τ] (h : Inv L base s) (hstep : step L base ret s .exit = some t) : Inv L base t := by
  cases hplace : s.place with
  | none =>
      simp only [step, hplace] at hstep
      cases hstep
  | some j =>
      obtain ⟨c, hlt, hcpu, hruns, hloads, hwaiting⟩ := h.leaving j hplace
      simp only [step, hplace] at hstep
      obtain ⟨i, hi, ht⟩ := Option.map_eq_some_iff.mp hstep
      have hnext : i s.cpu = exec ((irqRestore core).take (j + 1)) c := by rw [hcpu, exit_cpu hi]
      split at ht
      next hmore =>
        subst ht
        refine ⟨h.transparent, fun hno => absurd hno (by simp), fun k hk => ?_⟩
        obtain rfl := Option.some.inj hk
        exact ⟨c, hmore, hnext, hruns, hloads, hwaiting⟩
      next hlast =>
        rw [List.take_of_length_le (not_lt.mp hlast)] at hnext
        have hrestored := irqRestore_restored core c
        rw [← hnext] at hrestored
        subst ht
        exact h.resume hruns hloads hwaiting hrestored

/-- A handler that does not switch keeps the context memory and the contexts. -/
theorem afterIsr_load (L : Layout core τ) (left : Cpu) (hpc : c.reg .pc < size) :
    loadContext (afterIsr L c left).mem core.contextWord = cpuContext c ∧
      ∀ t, loadContext (afterIsr L c left).mem (L.addr t) = loadContext c.mem (L.addr t) := by
  have hmem : (afterIsr L c left).mem = (L.keep (exec (irqSave core) (takeIrq c)) left).mem := rfl
  constructor
  · rw [hmem, L.keep_loadMem, irqSave_mem core c hpc]
    exact loadContext_saveContext _ _ _
  · intro t
    rw [hmem, L.keep_load, irqSave_mem core c hpc]
    exact loadContext_saveContext_other _ _ (L.apart t)

section Handled

variable [DecidableEq τ] {frames : τ → List Cpu} {cur next : τ} {c' : Cpu}

/-- The next task has been interrupted once, at the latest now, or it never ran. -/
theorem handled_loads (h : Handled L cur next c c') (hkept : Kept base core c)
    (hwaiting : ∀ t, t ≠ cur → Waiting L base c.mem frames t)
    (hfresh : Function.update frames cur [c] next = [] → placeOf base (loadContext c.mem (L.addr next)).pc = none)
    (hflags : ∀ f, (Function.update frames cur [c] next).head? = some f → nzcv c'.cpsr = nzcv f.cpsr) :
    Loads base core c' (Function.update frames cur [c] next) := by
  have hloaded := h.loaded
  by_cases hnext : next = cur
  · rw [if_pos hnext] at hloaded
    rw [hnext, Function.update_self] at hflags ⊢
    exact Or.inr ⟨c, rfl, hkept, hloaded, hflags c rfl⟩
  · rw [if_neg hnext] at hloaded
    rw [Function.update_of_ne hnext] at hfresh hflags ⊢
    rcases hwaiting next hnext with hnone | ⟨f, hf, hkept', hload⟩
    · exact Or.inl ⟨hnone, by rw [hloaded]; exact hfresh hnone⟩
    · exact Or.inr ⟨f, hf, hkept', hloaded.trans hload, hflags f (by rw [hf]; rfl)⟩

theorem handled_waiting (h : Handled L cur next c c') (hkept : Kept base core c)
    (hwaiting : ∀ t, t ≠ cur → Waiting L base c.mem frames t) {u : τ} :
    Waiting L base c'.mem (Function.update frames cur [c]) u := by
  by_cases hu : u = cur
  · refine Or.inr ⟨c, ?_, hkept, ?_⟩
    · rw [hu, Function.update_self]
    · rw [hu, h.saved]
  · exact (hwaiting u hu).congr (Function.update_of_ne hu _ _) (h.other u hu)

end Handled

theorem Inv.irq [DecidableEq τ] {switch : Option (Cpu × τ)} {left : Cpu} (h : Inv L base s)
    (hunharmed : Unharmed core s (.irq switch left)) (hstep : step L base ret s (.irq switch left) = some t) :
    Inv L base t := by
  obtain ⟨hplace, hr12, hflags⟩ := hunharmed
  obtain ⟨hruns, hframes, hwaiting⟩ := h.running hplace
  have hfound : s.found base = s.cpu := by rw [State.found, hplace]
  simp only [step, hfound] at hstep
  split at hstep
  next hcan =>
    obtain ⟨-, hpc, hout⟩ := hcan
    rw [hfound] at hpc
    have hkept : Kept base core s.cpu := ⟨hr12, hout hplace⟩
    rw [hframes] at hstep
    cases switch with
    | none =>
        obtain rfl := Option.some.inj hstep
        obtain ⟨hloaded, hother⟩ := afterIsr_load L left hpc
        refine ⟨h.transparent, fun hno => absurd hno (by simp), fun j hj => ⟨afterIsr L s.cpu left, ?_⟩⟩
        obtain rfl := Option.some.inj hj
        refine ⟨Nat.zero_lt_succ _, rfl, hruns, Or.inr ⟨s.cpu, Function.update_self .., hkept, hloaded, ?_⟩, fun u hu => ?_⟩
        · rw [afterIsr, nzcv_irqEnable]
          exact hflags s.cpu (by simp [Label.next])
        · exact (hwaiting u hu).congr (Function.update_of_ne hu _ _) (hother u)
    | some p =>
        obtain ⟨call, next⟩ := p
        dsimp only at hstep
        split at hstep
        next hguard =>
          obtain ⟨hclear, hfresh⟩ := hguard
          have hhandled : Handled L s.current next s.cpu (L.afterHandler ret s.cpu call left s.current next) :=
            L.afterHandler_handled ret hruns hpc hclear
          have hleft : nzcv (L.afterHandler ret s.cpu call left s.current next).cpsr = nzcv left.cpsr := by
            rw [Layout.afterHandler, nzcv_irqEnable, Layout.keep]
          obtain ⟨d, hd⟩ : ∃ d, d = L.afterHandler ret s.cpu call left s.current next := ⟨_, rfl⟩
          rw [← hd] at hhandled hleft hstep
          obtain rfl := Option.some.inj hstep
          refine ⟨h.transparent, fun hno => absurd hno (by simp), fun j hj => ⟨d, ?_⟩⟩
          obtain rfl := Option.some.inj hj
          refine ⟨Nat.zero_lt_succ _, rfl, hhandled.runs, ?_, fun u hu => handled_waiting hhandled hkept hwaiting⟩
          exact handled_loads hhandled hkept hwaiting hfresh fun f hf => hleft.trans (hflags f hf)
        next => cases hstep
  next => cases hstep

/-- The first task runs; the contexts of tasks that never ran are in the memory. -/
def start (core : Core) (c : Cpu) (first : τ) : State τ := ⟨{ c with mpidr := mpidr core }, first, none, fun _ => [], []⟩

theorem inv_start (L : Layout core τ) (base : ℕ) (c : Cpu) (first : τ) : Inv L base (start core c first) := by
  refine ⟨fun p hp => absurd hp List.not_mem_nil, fun _ => ⟨?_, rfl, fun _ _ => Or.inl rfl⟩, fun j hj => by cases hj⟩
  cases core <;> simp [RunsOn, start, mpidr]

/-- In a run whose interrupts all meet the condition, interrupted code continues as it was. -/
theorem irq_transparent [DecidableEq τ] (L : Layout core τ) (base ret : ℕ) (c : Cpu) (first : τ)
    {is : List (Label τ)} (h : StepsMeet (step L base ret) (Unharmed core) (start core c first) is) :
    Always (step L base ret) Transparent (start core c first) is := by
  apply always_of_stepsMeet (Inv L base) (fun s h => h.transparent) _ (inv_start L base c first) h
  intro s i t h hunharmed hstep
  cases i with
  | code d =>
      simp only [step] at hstep
      split at hstep
      next hplace =>
        obtain rfl := Option.some.inj hstep
        exact h.code hplace d
      next => cases hstep
  | exit => exact h.exit ret hstep
  | irq switch left => exact h.irq ret hunharmed hstep

end Invariant

section Example

/-- The first task, with the end of the context memory in r12, is interrupted twice. -/
theorem irq_transparent_twice :
    Always (step twoTasks 0xC0101300 0x100230) Transparent
      (start .cpu0 { sevenInR1 0x13 with reg := Function.update (sevenInR1 0x13).reg .r12 0x403C } false)
      ([.irq none (sevenInR1 0xD3)] ++ List.replicate 8 .exit ++ [.irq none (sevenInR1 0xD3)]) :=
  irq_transparent _ _ _ _ _ (by decide +kernel)

/-- Code that continued with another r12 or other flags. -/
def State.harmed (s : State τ) : Bool :=
  s.continued.any fun p => p.1.reg .r12 != p.2.reg .r12 || nzcv p.1.cpsr != nzcv p.2.cpsr

theorem not_transparent {s : State Bool} {is : List (Label Bool)}
    (h : (Machine.exec (step twoTasks base ret) s is).any State.harmed = true) :
    ¬ Always (step twoTasks base ret) Transparent s is := by
  intro halways
  cases ht : Machine.exec (step twoTasks base ret) s is with
  | none =>
      rw [ht] at h
      cases h
  | some t =>
      rw [ht] at h
      obtain ⟨p, hp, hne⟩ := List.any_eq_true.mp h
      have hsame := Machine.always_iff_exec.mp halways is List.prefix_rfl t ht p hp
      simp [hsame.r12, hsame.flags] at hne

/-- A task is interrupted, once with 0 in r12 and once with the Z flag set, and the handler returns with Z clear. -/
theorem r12_and_flags_lost :
    ¬ Always (step twoTasks 0xC0101300 0x100230) Transparent (start .cpu0 (sevenInR1 0x13) false)
      (.irq none (sevenInR1 0xD3) :: List.replicate 8 .exit) ∧
    ¬ Always (step twoTasks 0xC0101300 0x100230) Transparent
      (start .cpu0 { sevenInR1 0x40000013 with reg := Function.update (sevenInR1 0x13).reg .r12 0x403C } false)
      (.irq none (sevenInR1 0xD3) :: List.replicate 8 .exit) := by
  constructor
  · exact not_transparent _ _ (by decide +kernel)
  · exact not_transparent _ _ (by decide +kernel)

end Example

end Slos.IrqReturn
