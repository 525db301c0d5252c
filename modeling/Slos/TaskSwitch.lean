import Slos.ContextOps
import Slos.Machine
import Slos.MemLayout
import Slos.Tasks

/-!
# Switching between tasks

One core on which tasks run, are interrupted and yield. A step is the code of the current task, an interrupt whose
handler switches to another task, a yield, or the creation of a task. The handler and the tasks may do anything but
write into a saved context.
-/

namespace Slos.TaskSwitch
open Word Arm
open Machine (Always StepsMeet always_iff_stepsMeet)

/-- Where the contexts of the tasks are. -/
structure Layout (core : Core) (τ : Type*) where
  addr : τ → ℕ
  held : ℕ → Bool
  lt : ∀ t, addr t + contextWords < 2 ^ 30
  apart : ∀ t, Apart (addr t) core.contextWord
  distinct : ∀ t u, t ≠ u → Apart (addr t) (addr u)
  held_context : ∀ t, ∀ i < contextWords, held (addr t + i) = true
  held_contextMem : ∀ i < contextWords, held (core.contextWord + i) = true

/-- How a task that does not run came to its context. -/
inductive Kind where
  | interrupted | yielded | forked
deriving DecidableEq

structure Suspended where
  kind : Kind
  context : Context

/-- A task that goes on: how it was suspended, and the context it goes on with. -/
structure Resumed where
  suspended : Suspended
  now : Context

structure State (τ : Type*) where
  cpu : Cpu
  current : τ
  taskCreatedNum : ℕ
  suspended : τ → Option Suspended
  resumed : List Resumed

/-- `code c` leaves the processor as in `c`. An interrupt gives the processor as it is when the handler calls
`do_switch_context` and when the handler returns. -/
inductive Label (τ : Type*) where
  | code (c : Cpu)
  | irq (call exit : Cpu) (next : τ)
  | yield (next : τ)
  | fork (task : τ) (entry lr : ℕ)

variable {core : Core} {τ : Type*} (L : Layout core τ)

/-- What other code makes of the processor; saved contexts and the number of the core stay. -/
def Layout.keep (c d : Cpu) : Cpu := { d with mem := fun w => if L.held w then c.mem w else d.mem w, mpidr := c.mpidr }

/-- A call with the addresses of two tasks. -/
def Layout.call (c : Cpu) (cur next : τ) : Cpu := (c.set .r0 (4 * L.addr cur)).set .r1 (4 * L.addr next)

/-- The stack of `do_switch_context` is not in a saved context. -/
def Layout.StackClear (c : Cpu) : Prop := ∀ k < 7, L.held (pushedAt c + k) = false

instance (c : Cpu) : Decidable (L.StackClear c) := Nat.decidableBallLT 7 _

/-- What `forkyi` writes into a context. -/
def forkMem (mem : ℕ → ℕ) (a sp lr entry : ℕ) : ℕ → ℕ :=
  let m := Function.update mem (a + 12) sp
  let m := Function.update m (a + 13) lr
  let m := Function.update m (a + 14) entry
  let m := Function.update m (a + 48) 0
  Function.update m (a + 49) 0x40000000

def stackBase : Core → ℕ
  | .cpu0 => svcStackBase
  | .cpu1 => secSvcStackBase

def forkContext (mem : ℕ → ℕ) (a sp lr entry : ℕ) : Context :=
  { loadContext mem a with sp := sp, lr := lr, pc := entry, fpscr := 0, fpexc := 0x40000000 }

/-- The current task is suspended and `next` goes on, with the processor as in `c`. -/
def State.resume [DecidableEq τ] (s : State τ) (kind : Kind) (left : Context) (next : τ) (c : Cpu) : Option (State τ) :=
  let suspended := Function.update s.suspended s.current (some ⟨kind, left⟩)
  (suspended next).map fun e =>
    { s with
      cpu := c
      current := next
      suspended := Function.update suspended next none
      resumed := s.resumed ++ [⟨e, cpuContext c⟩] }

variable (ret : ℕ)

/-- The processor when the handler calls `do_switch_context`. -/
def Layout.atCall (c call : Cpu) (cur next : τ) : Cpu :=
  L.call (L.keep (exec (irqSave core) (takeIrq c)) call) cur next

/-- The processor at the exit path of an interrupt whose handler switches. -/
def Layout.afterHandler (c call exit : Cpu) (cur next : τ) : Cpu :=
  exec irqEnable (L.keep (exec (doSwitchContext ret) (L.atCall c call cur next)) exit)

def Layout.afterIrq (c call exit : Cpu) (cur next : τ) : Cpu :=
  exec (irqRestore core) (L.afterHandler ret c call exit cur next)

def Layout.step [DecidableEq τ] (s : State τ) : Label τ → Option (State τ)
  | .code c => some { s with cpu := L.keep s.cpu c }
  | .irq call exit next =>
      if irqMasked s.cpu.cpsr = false ∧ s.cpu.reg .pc < size ∧ L.StackClear (L.atCall s.cpu call s.current next) then
        s.resume .interrupted (cpuContext s.cpu) next (L.afterIrq ret s.cpu call exit s.current next)
      else none
  | .yield next =>
      s.resume .yielded (yieldContext (L.call s.cpu s.current next)) next
        (exec switchContextYieldyi (L.call s.cpu s.current next))
  | .fork task entry lr =>
      if task = s.current ∨ s.suspended task ≠ none ∨ s.taskCreatedNum = maxTask then none
      else
        let sp := usub (stackBase core) (taskStackGap * (s.taskCreatedNum + 1))
        some { s with
          cpu := s.cpu.setMem (forkMem s.cpu.mem (L.addr task) sp lr entry)
          taskCreatedNum := s.taskCreatedNum + 1
          suspended := Function.update s.suspended task
            (some ⟨.forked, forkContext s.cpu.mem (L.addr task) sp lr entry⟩) }

/-- A task goes on as it was left: all of it if it was interrupted, what a call leaves if it yielded. -/
structure Resumed.Right (e : Resumed) : Prop where
  sp : e.now.sp = e.suspended.context.sp
  lr : e.now.lr = e.suspended.context.lr
  pc : e.now.pc = e.suspended.context.pc
  s : e.now.s = e.suspended.context.s
  fpscr : e.now.fpscr = e.suspended.context.fpscr
  fpexc : e.now.fpexc = e.suspended.context.fpexc
  interrupted : e.suspended.kind = .interrupted → e.now.r = e.suspended.context.r
  yielded : e.suspended.kind = .yielded → ∀ i : Fin 12, 4 ≤ i → e.now.r i = e.suspended.context.r i

/-- Every task that went on did so as it was left, and the others' contexts are as they were left. -/
structure Paired (s : State τ) : Prop where
  resumed : ∀ e ∈ s.resumed, e.Right
  suspended : ∀ t e, s.suspended t = some e → loadContext s.cpu.mem (L.addr t) = e.context

/-- A yield to an interrupted task finds the status register, without its interrupt masks, in the r1 saved for it. -/
def R1Kept (s : State τ) : Label τ → Prop
  | .yield next => ∀ e, next ≠ s.current → s.suspended next = some e → e.kind = .interrupted →
      e.context.r 1 = s.cpu.cpsr &&& (0xFFFFFFFF ^^^ ifBit)
  | _ => True

section Interrupt

variable {L}

theorem Layout.keep_load (L : Layout core τ) (c d : Cpu) (t : τ) :
    loadContext (L.keep c d).mem (L.addr t) = loadContext c.mem (L.addr t) :=
  loadContext_congr fun i hi _ => if_pos (L.held_context t i hi)

theorem Layout.keep_loadMem (L : Layout core τ) (c d : Cpu) :
    loadContext (L.keep c d).mem core.contextWord = loadContext c.mem core.contextWord :=
  loadContext_congr fun i hi _ => if_pos (L.held_contextMem i hi)

theorem Layout.addr_inj {t u : τ} : L.addr t = L.addr u ↔ t = u := by
  constructor
  · intro heq
    by_contra hne
    have hapart := L.distinct t u hne
    unfold Apart contextWords at hapart
    omega
  · exact fun heq => congrArg L.addr heq

theorem Layout.clear_of_stackClear {c : Cpu} (h : L.StackClear c) {x : ℕ}
    (hx : ∀ i < contextWords, L.held (x + i) = true) : Clear (pushedAt c) 7 x := by
  by_contra hno
  unfold Clear contextWords at *
  have hfree := h (x - pushedAt c) (by omega)
  have hheld := hx (pushedAt c - x) (by omega)
  have hsame : pushedAt c + (x - pushedAt c) = x + (pushedAt c - x) := by omega
  rw [hsame, hheld] at hfree
  cases hfree

variable {c call exit : Cpu} {cur next : τ}

theorem Layout.atCall_switchable (L : Layout core τ) (hruns : RunsOn core c) (call : Cpu) (cur next : τ) :
    Switchable core (L.addr cur) (L.addr next) (L.atCall c call cur next) := by
  constructor
  · exact hruns
  · simp [Layout.atCall, Layout.call]
  · simp [Layout.atCall, Layout.call]
  · exact L.lt cur
  · exact L.lt next
  · exact L.apart cur
  · exact L.apart next
  · by_cases hnext : next = cur
    · exact Or.inl (congrArg L.addr hnext)
    · exact Or.inr (L.distinct next cur hnext)

theorem Layout.atCall_load (L : Layout core τ) (call : Cpu) (cur next : τ) (hpc : c.reg .pc < size) :
    (∀ t, loadContext (L.atCall c call cur next).mem (L.addr t) = loadContext c.mem (L.addr t)) ∧
      loadContext (L.atCall c call cur next).mem core.contextWord = cpuContext c := by
  have hmem : (L.atCall c call cur next).mem = (L.keep (exec (irqSave core) (takeIrq c)) call).mem := by
    rw [Layout.atCall, Layout.call, Cpu.set_mem, Cpu.set_mem]
  constructor
  · intro t
    rw [hmem, L.keep_load, irqSave_mem core c hpc]
    exact loadContext_saveContext_other _ _ (L.apart t)
  · rw [hmem, L.keep_loadMem, irqSave_mem core c hpc]
    exact loadContext_saveContext _ _ _

/-- What the context memory and the contexts of the tasks hold at the exit path. -/
structure Handled [DecidableEq τ] (L : Layout core τ) (cur next : τ) (c c' : Cpu) : Prop where
  loaded : loadContext c'.mem core.contextWord =
    if next = cur then cpuContext c else loadContext c.mem (L.addr next)
  saved : loadContext c'.mem (L.addr cur) = cpuContext c
  other : ∀ t, t ≠ cur → loadContext c'.mem (L.addr t) = loadContext c.mem (L.addr t)
  runs : RunsOn core c'

theorem Layout.afterHandler_handled [DecidableEq τ] (hruns : RunsOn core c) (hpc : c.reg .pc < size)
    (hclear : L.StackClear (L.atCall c call cur next)) :
    Handled L cur next c (L.afterHandler ret c call exit cur next) := by
  obtain ⟨hload, hloadMem⟩ := L.atCall_load call cur next hpc
  obtain ⟨hswitched, hmpidr⟩ := doSwitchContext_switched ret (L.atCall_switchable hruns call cur next)
  have hpushed {x : ℕ} (hx : ∀ i < contextWords, L.held (x + i) = true) :
      loadContext (storeBlock (L.atCall c call cur next).mem (pushedAt (L.atCall c call cur next))
        ([Reg.r0, .r1, .r2, .r3, .r4, .r5, .lr].map (L.atCall c call cur next).reg)) x =
      loadContext (L.atCall c call cur next).mem x :=
    loadContext_storeBlock _ (L.clear_of_stackClear hclear hx)
  obtain ⟨d, hd⟩ : ∃ d, d = exec (doSwitchContext ret) (L.atCall c call cur next) := ⟨_, rfl⟩
  rw [← hd] at hswitched hmpidr
  obtain ⟨e, he⟩ : ∃ e, e = L.afterHandler ret c call exit cur next := ⟨_, rfl⟩
  have hmem : e.mem = (L.keep d exit).mem := by
    rw [he, Layout.afterHandler, ← hd]
    rfl
  have hsame : e.mpidr = d.mpidr := by
    rw [he, Layout.afterHandler, ← hd]
    rfl
  rw [← he]
  constructor
  · rw [hmem, L.keep_loadMem, hswitched.loaded, hpushed L.held_contextMem, hloadMem, hpushed (L.held_context next), hload]
    exact if_congr L.addr_inj rfl rfl
  · rw [hmem, L.keep_load, hswitched.saved, hpushed L.held_contextMem, hloadMem]
  · intro t ht
    rw [hmem, L.keep_load, hswitched.other _ (L.distinct t cur ht) (L.apart t), hpushed (L.held_context t), hload]
  · unfold RunsOn at hruns ⊢
    rw [hsame, hmpidr]
    exact hruns

/-- An interrupt that switches: the current task's context is stored and the next one's goes on. -/
structure Preempted [DecidableEq τ] (L : Layout core τ) (cur next : τ) (c c' : Cpu) : Prop where
  context : cpuContext c' = if next = cur then cpuContext c else loadContext c.mem (L.addr next)
  saved : loadContext c'.mem (L.addr cur) = cpuContext c
  other : ∀ t, t ≠ cur → loadContext c'.mem (L.addr t) = loadContext c.mem (L.addr t)
  runs : RunsOn core c'

theorem Layout.afterIrq_preempted [DecidableEq τ] (hruns : RunsOn core c) (hpc : c.reg .pc < size)
    (hclear : L.StackClear (L.atCall c call cur next)) :
    Preempted L cur next c (L.afterIrq ret c call exit cur next) := by
  have hhandled : Handled L cur next c (L.afterHandler ret c call exit cur next) :=
    L.afterHandler_handled ret hruns hpc hclear
  have hrestored := irqRestore_restored core (L.afterHandler ret c call exit cur next)
  constructor
  · exact hrestored.context.trans hhandled.loaded
  · rw [Layout.afterIrq, hrestored.mem, hhandled.saved]
  · intro t ht
    rw [Layout.afterIrq, hrestored.mem, hhandled.other t ht]
  · exact (congrArg (· &&& 3) hrestored.mpidr).trans hhandled.runs

end Interrupt

section Run

variable {L} {s t : State τ} {c : Cpu} {kind : Kind} {left : Context} {next : τ}

/-- The suspended task that goes on, and what the switch leaves of the others. -/
theorem Paired.of_resume [DecidableEq τ] (h : Paired L s) (hsaved : loadContext c.mem (L.addr s.current) = left)
    (hother : ∀ u, u ≠ s.current → loadContext c.mem (L.addr u) = loadContext s.cpu.mem (L.addr u))
    (hresume : s.resume kind left next c = some t) :
    ∃ e, t.cpu = c ∧ t.resumed = s.resumed ++ [⟨e, cpuContext c⟩] ∧
      (next = s.current → e = ⟨kind, left⟩) ∧ (next ≠ s.current → s.suspended next = some e) ∧
      e.context = (if next = s.current then left else loadContext s.cpu.mem (L.addr next)) ∧
      ∀ u x, t.suspended u = some x → loadContext c.mem (L.addr u) = x.context := by
  obtain ⟨e, he, rfl⟩ := Option.map_eq_some_iff.mp hresume
  refine ⟨e, rfl, rfl, ?_, ?_, ?_, ?_⟩
  · rintro rfl
    rw [Function.update_self] at he
    exact (Option.some.inj he).symm
  · intro hne
    rwa [Function.update_of_ne hne] at he
  · split
    next heq =>
      rw [heq, Function.update_self] at he
      exact congrArg Suspended.context (Option.some.inj he).symm
    next hne =>
      rw [Function.update_of_ne hne] at he
      exact (h.suspended next e he).symm
  · intro u x hx
    have hnext : u ≠ next := by
      rintro rfl
      exact absurd hx (by simp)
    have hx' : Function.update (Function.update s.suspended s.current (some ⟨kind, left⟩)) next none u = some x := hx
    rw [Function.update_of_ne hnext] at hx'
    by_cases hcur : u = s.current
    · rw [hcur, Function.update_self] at hx'
      rw [hcur, hsaved, ← Option.some.inj hx']
    · rw [Function.update_of_ne hcur] at hx'
      rw [hother u hcur, h.suspended u x hx']

theorem Paired.of_resumed (h : Paired L s) {e : Resumed} (hlog : t.resumed = s.resumed ++ [e]) (he : e.Right)
    (hsuspended : ∀ u x, t.suspended u = some x → loadContext t.cpu.mem (L.addr u) = x.context) : Paired L t := by
  refine ⟨fun e' he' => ?_, hsuspended⟩
  rw [hlog, List.mem_append, List.mem_singleton] at he'
  rcases he' with hold | rfl
  · exact h.resumed e' hold
  · exact he

theorem Resumed.right_of_eq {e : Suspended} {x : Context} (hx : x = e.context) : Resumed.Right ⟨e, x⟩ := by
  subst hx
  exact ⟨rfl, rfl, rfl, rfl, rfl, rfl, fun _ => rfl, fun _ _ _ => rfl⟩

/-- A context that goes on with another r1. -/
theorem Resumed.right_iff {e : Suspended} {x : Context} {v : ℕ}
    (hx : x = { e.context with r := Function.update e.context.r 1 v }) :
    Resumed.Right ⟨e, x⟩ ↔ (e.kind = .interrupted → e.context.r 1 = v) := by
  subst hx
  constructor
  · intro h hkind
    have hr := congrFun (h.interrupted hkind) 1
    exact hr.symm.trans (Function.update_self 1 v e.context.r)
  · intro h
    refine ⟨rfl, rfl, rfl, rfl, rfl, rfl, fun hkind => ?_, fun _ i hi => ?_⟩
    · change Function.update e.context.r 1 v = e.context.r
      rw [← h hkind, Function.update_eq_self]
    · have hne : i ≠ 1 := by
        rintro rfl
        exact absurd hi (by decide)
      exact Function.update_of_ne hne _ _

structure Inv (L : Layout core τ) (s : State τ) : Prop where
  paired : Paired L s
  runs : RunsOn core s.cpu

theorem Inv.code (h : Inv L s) (d : Cpu) : Inv L { s with cpu := L.keep s.cpu d } := by
  refine ⟨⟨h.paired.resumed, fun u x hx => ?_⟩, h.runs⟩
  rw [L.keep_load, h.paired.suspended u x hx]

variable [DecidableEq τ]

theorem Inv.irq {call exit : Cpu} (h : Inv L s) (hstep : L.step ret s (.irq call exit next) = some t) : Inv L t := by
  rw [Layout.step] at hstep
  split at hstep
  next hguard =>
    obtain ⟨-, hpc, hclear⟩ := hguard
    have hpre : Preempted L s.current next s.cpu (L.afterIrq ret s.cpu call exit s.current next) :=
      L.afterIrq_preempted ret h.runs hpc hclear
    obtain ⟨e, hcpu, hlog, -, -, hcontext, hsuspended⟩ := h.paired.of_resume hpre.saved hpre.other hstep
    have hright : Resumed.Right ⟨e, cpuContext (L.afterIrq ret s.cpu call exit s.current next)⟩ :=
      Resumed.right_of_eq (hpre.context.trans hcontext.symm)
    refine ⟨h.paired.of_resumed hlog hright ?_, ?_⟩
    · rwa [hcpu]
    · rw [hcpu]
      exact hpre.runs
  next => cases hstep

theorem Inv.yield (h : Inv L s) (hstep : L.step ret s (.yield next) = some t) :
    RunsOn core t.cpu ∧ (Paired L t ↔ R1Kept s (.yield next)) := by
  have hr0 : (L.call s.cpu s.current next).reg .r0 = 4 * L.addr s.current := by simp [Layout.call]
  have hr1 : (L.call s.cpu s.current next).reg .r1 = 4 * L.addr next := by simp [Layout.call]
  have hy := switchContextYieldyi_yielded hr0 hr1 (L.lt _) (L.lt _)
  have hmem : (L.call s.cpu s.current next).mem = s.cpu.mem := by rw [Layout.call, Cpu.set_mem, Cpu.set_mem]
  have hcpsr : (L.call s.cpu s.current next).cpsr = s.cpu.cpsr := by rw [Layout.call, Cpu.set_cpsr, Cpu.set_cpsr]
  have hmpidr : (L.call s.cpu s.current next).mpidr = s.cpu.mpidr := by
    rw [Layout.call, Cpu.set_mpidr, Cpu.set_mpidr]
  obtain ⟨c, hc⟩ : ∃ d, d = exec switchContextYieldyi (L.call s.cpu s.current next) := ⟨_, rfl⟩
  rw [← hc] at hy
  have hsaved : loadContext c.mem (L.addr s.current) = yieldContext (L.call s.cpu s.current next) := by
    rw [hy.mem]
    exact loadContext_saveContext _ _ _
  have hother : ∀ u, u ≠ s.current → loadContext c.mem (L.addr u) = loadContext s.cpu.mem (L.addr u) := by
    intro u hu
    rw [hy.mem, hmem]
    exact loadContext_saveContext_other _ _ (L.distinct u _ hu)
  rw [Layout.step, ← hc] at hstep
  obtain ⟨e, hcpu, hlog, hself, hnext, hcontext, hsuspended⟩ := h.paired.of_resume hsaved hother hstep
  have hload : loadContext c.mem (L.addr next) = e.context := by
    rw [hcontext]
    split
    next heq => exact (congrArg (fun u => loadContext c.mem (L.addr u)) heq).trans hsaved
    next hne => exact hother next hne
  have hnow := hy.context
  rw [hload, hcpsr] at hnow
  have hright := Resumed.right_iff hnow
  constructor
  · rw [hcpu]
    exact (congrArg (· &&& 3) (hy.mpidr.trans hmpidr)).trans h.runs
  constructor
  · intro hpaired e' hne he' hkind
    obtain rfl : e' = e := Option.some.inj (he'.symm.trans (hnext hne))
    exact hright.mp (hpaired.resumed _ (by simp [hlog])) hkind
  · intro hkept
    apply h.paired.of_resumed hlog (hright.mpr ?_) (by rwa [hcpu])
    intro hkind
    apply hkept e _ (hnext _) hkind
    all_goals
      intro heq
      rw [hself heq] at hkind
      cases hkind

theorem forkMem_other (mem : ℕ → ℕ) {a w : ℕ} (sp lr entry : ℕ) (h : w < a + 12 ∨ a + 14 < w)
    (h' : w < a + 48 ∨ a + 49 < w) : forkMem mem a sp lr entry w = mem w := by
  unfold forkMem
  rw [Function.update_of_ne (by omega), Function.update_of_ne (by omega), Function.update_of_ne (by omega),
    Function.update_of_ne (by omega), Function.update_of_ne (by omega)]

theorem loadContext_forkMem (mem : ℕ → ℕ) (a sp lr entry : ℕ) :
    loadContext (forkMem mem a sp lr entry) a = forkContext mem a sp lr entry := by
  ext i
  · exact forkMem_other mem sp lr entry (by omega) (by omega)
  · simp [loadContext, forkMem, forkContext, Function.update_apply]
  · simp [loadContext, forkMem, forkContext, Function.update_apply]
  · simp [loadContext, forkMem, forkContext, Function.update_apply]
  · exact forkMem_other mem sp lr entry (by omega) (by omega)
  · simp [loadContext, forkMem, forkContext, Function.update_apply]
  · simp [loadContext, forkMem, forkContext, Function.update_apply]

theorem loadContext_forkMem_other (mem : ℕ → ℕ) {a x : ℕ} (sp lr entry : ℕ) (h : Apart x a) :
    loadContext (forkMem mem a sp lr entry) x = loadContext mem x := by
  apply loadContext_congr
  intro i hi _
  unfold Apart contextWords at *
  exact forkMem_other mem sp lr entry (by omega) (by omega)

theorem Inv.fork {task : τ} {entry lr : ℕ} (h : Inv L s) (hstep : L.step ret s (.fork task entry lr) = some t) :
    Inv L t := by
  rw [Layout.step] at hstep
  split at hstep
  next => cases hstep
  next hguard =>
    cases hstep
    refine ⟨⟨h.paired.resumed, fun u x hx => ?_⟩, h.runs⟩
    by_cases hu : u = task
    · subst hu
      dsimp only at hx
      rw [Function.update_self] at hx
      obtain rfl := Option.some.inj hx
      exact loadContext_forkMem _ _ _ _ _
    · have hx' : s.suspended u = some x := by
        rw [← hx]
        exact (Function.update_of_ne hu _ _).symm
      exact (loadContext_forkMem_other _ _ _ _ (L.distinct u task hu)).trans (h.paired.suspended u x hx')

/-- The value that the core reads as its number. -/
def mpidr : Core → ℕ
  | .cpu0 => 0x80000000
  | .cpu1 => 0x80000001

/-- The first task runs on the core and no other exists. -/
def start (core : Core) (c : Cpu) (first : τ) : State τ := ⟨{ c with mpidr := mpidr core }, first, 1, fun _ => none, []⟩

omit [DecidableEq τ] in
theorem inv_start (L : Layout core τ) (c : Cpu) (first : τ) : Inv L (start core c first) := by
  refine ⟨⟨fun _ he => absurd he List.not_mem_nil, fun _ _ hx => by cases hx⟩, ?_⟩
  cases core <;> simp [RunsOn, start, mpidr]

/-- Suspended tasks go on as they were left in every run exactly if every yield to an interrupted task finds the
status register in its r1. -/
theorem paired_iff (L : Layout core τ) (c : Cpu) (first : τ) (is : List (Label τ)) :
    Always (L.step ret) (Paired L) (start core c first) is ↔ StepsMeet (L.step ret) R1Kept (start core c first) is := by
  apply always_iff_stepsMeet (Inv L) (fun s h => h.paired) _ _ (inv_start L c first)
  · intro s i t h hkept hstep
    cases i with
    | code d => cases hstep; exact h.code d
    | irq call exit next => exact h.irq ret hstep
    | yield next =>
        obtain ⟨hruns', hiff⟩ := h.yield ret hstep
        exact ⟨hiff.mpr hkept, hruns'⟩
    | fork task entry lr => exact h.fork ret hstep
  · intro s i t h hstep hpaired
    cases i with
    | yield next => exact (h.yield ret hstep).2.mp hpaired
    | code d => trivial
    | irq call exit next => trivial
    | fork task entry lr => trivial

end Run

section Example

def twoAddr (b : Bool) : ℕ := if b then 0x31000440 else 0x31000400

def twoHeld (w : ℕ) : Bool :=
  decide (0x1000 ≤ w ∧ w < 0x1032) || decide (0x31000400 ≤ w ∧ w < 0x31000432) ||
    decide (0x31000440 ≤ w ∧ w < 0x31000472)

theorem twoAddr_lt (b : Bool) : twoAddr b + contextWords < 2 ^ 30 := by
  cases b <;> decide

theorem twoAddr_apart (b : Bool) : Apart (twoAddr b) Core.cpu0.contextWord := by
  cases b <;> simp [twoAddr, Apart, contextWords, Core.contextWord]

theorem twoAddr_distinct (b d : Bool) (h : b ≠ d) : Apart (twoAddr b) (twoAddr d) := by
  cases b <;> cases d <;> simp_all [twoAddr, Apart, contextWords]

theorem twoHeld_context (b : Bool) (i : ℕ) (h : i < contextWords) : twoHeld (twoAddr b + i) = true := by
  unfold contextWords at h
  cases b <;> simp [twoHeld, twoAddr] <;> omega

theorem twoHeld_contextMem (i : ℕ) (h : i < contextWords) : twoHeld (Core.cpu0.contextWord + i) = true := by
  unfold contextWords Core.contextWord at *
  simp [twoHeld]
  omega

/-- Two tasks on the first core. -/
def twoTasks : Layout .cpu0 Bool where
  addr := twoAddr
  held := twoHeld
  lt := twoAddr_lt
  apart := twoAddr_apart
  distinct := twoAddr_distinct
  held_context := twoHeld_context
  held_contextMem := twoHeld_contextMem

/-- A processor in SVC mode with 7 in r1. -/
def sevenInR1 (cpsr : ℕ) : Cpu where
  reg q := match q with
    | .r1 => 7
    | .sp => 0x314000
    | .pc => 0x110000
    | _ => 0
  s _ := 0
  fpscr := 0
  fpexc := 0x40000000
  cpsr := cpsr
  mpidr := 0
  mem _ := 0

theorem Layout.afterIrq_cpsr {core : Core} {τ : Type*} (L : Layout core τ) (c call exit : Cpu) (cur next : τ) :
    (L.afterIrq ret c call exit cur next).cpsr =
      exit.cpsr / 256 * 256 + (exit.cpsr &&& (0xFFFFFFFF ^^^ (iBit ||| fBit))) % 256 := by
  rw [Layout.afterIrq, (irqRestore_restored core _).cpsr]
  simp [Layout.afterHandler, irqEnable, Layout.keep]

theorem stackClear_sevenInR1 (c : Cpu) (cpsr : ℕ) (cur next : Bool) :
    twoTasks.StackClear (twoTasks.atCall c (sevenInR1 cpsr) cur next) := by
  have hpushed : pushedAt (twoTasks.atCall c (sevenInR1 cpsr) cur next) = 0xC4FF9 := by
    simp [pushedAt, Layout.atCall, Layout.call, Layout.keep, sevenInR1, usub, size]
  rw [Layout.StackClear, hpushed]
  decide

/-- The first task is interrupted with 7 in r1 for the second one, which then yields to it. -/
theorem yielded_to_interrupted : ¬ Always (twoTasks.step 0x100230) (Paired twoTasks) (start .cpu0 (sevenInR1 0x13) false)
    [.fork true 0x120000 0, .irq (sevenInR1 0xD3) (sevenInR1 0xD3) true, .yield false] := by
  intro h
  have h₀ := inv_start twoTasks (sevenInR1 0x13) false
  obtain ⟨s₀, hs₀⟩ : ∃ u, u = start .cpu0 (sevenInR1 0x13) false := ⟨_, rfl⟩
  rw [← hs₀] at h h₀
  obtain ⟨s₁, hs₁⟩ : ∃ u, twoTasks.step 0x100230 s₀ (.fork true 0x120000 0) = some u := by
    simp [Layout.step, hs₀, start, maxTask]
  have h₁ := h₀.fork _ hs₁
  have hfork : s₁.current = false ∧ s₁.cpu.reg = (sevenInR1 0x13).reg ∧ s₁.cpu.cpsr = 0x13 ∧
      s₁.suspended true ≠ none := by
    rw [hs₀, Layout.step, if_neg (by simp [start, maxTask])] at hs₁
    obtain rfl := Option.some.inj hs₁
    exact ⟨rfl, rfl, rfl, by simp⟩
  obtain ⟨hcur₁, hreg₁, hcpsr₁, hnew⟩ := hfork
  obtain ⟨e₁, he₁⟩ := Option.ne_none_iff_exists'.mp hnew
  obtain ⟨c₂, hc₂⟩ : ∃ d, d = twoTasks.afterIrq 0x100230 s₁.cpu (sevenInR1 0xD3) (sevenInR1 0xD3) false true := ⟨_, rfl⟩
  have hcpsr₂ : c₂.cpsr = 0x13 := by
    rw [hc₂, Layout.afterIrq_cpsr]
    rfl
  obtain ⟨s₂, hs₂⟩ : ∃ u : State Bool, u = { s₁ with
      cpu := c₂
      current := true
      suspended := Function.update (Function.update s₁.suspended false (some ⟨.interrupted, cpuContext s₁.cpu⟩)) true none
      resumed := s₁.resumed ++ [⟨e₁, cpuContext c₂⟩] } := ⟨_, rfl⟩
  have hirq : twoTasks.step 0x100230 s₁ (.irq (sevenInR1 0xD3) (sevenInR1 0xD3) true) = some s₂ := by
    have hguard : irqMasked s₁.cpu.cpsr = false ∧ s₁.cpu.reg .pc < size ∧
        twoTasks.StackClear (twoTasks.atCall s₁.cpu (sevenInR1 0xD3) s₁.current true) := by
      refine ⟨?_, ?_, stackClear_sevenInR1 _ _ _ _⟩
      · rw [hcpsr₁]
        decide
      · rw [hreg₁]
        decide
    rw [Layout.step, if_pos hguard, State.resume, hcur₁, ← hc₂, Function.update_of_ne (by decide), he₁, hs₂]
    rfl
  have h₂ := h₁.irq _ hirq
  have hleft : s₂.suspended false = some ⟨.interrupted, cpuContext s₁.cpu⟩ := by
    rw [hs₂]
    dsimp only
    rw [Function.update_of_ne (by decide), Function.update_self]
  obtain ⟨s₃, hs₃⟩ : ∃ u, twoTasks.step 0x100230 s₂ (.yield false) = some u := by
    rw [Layout.step, State.resume]
    have hcur₂ : s₂.current = true := by rw [hs₂]
    rw [hcur₂, Function.update_of_ne (by decide), hleft]
    exact ⟨_, rfl⟩
  have hkept : R1Kept s₂ (.yield false) :=
    (h₂.yield _ hs₃).2.mp ((((h.2 s₁ hs₁).2 s₂ hirq).2 s₃ hs₃).start)
  have heq := hkept _ (by rw [hs₂]; simp) hleft rfl
  have hcpsr : s₂.cpu.cpsr = 0x13 := by rw [hs₂, hcpsr₂]
  rw [hcpsr] at heq
  have hr1 : (cpuContext s₁.cpu).r 1 = 7 := congrFun hreg₁ .r1
  rw [hr1] at heq
  exact absurd heq (by decide)

end Example

end Slos.TaskSwitch
