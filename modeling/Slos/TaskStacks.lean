import Slos.TaskList

/-!
# The stacks of the tasks

`forkyi` puts the stack of a task below the stack base of the core, by the number of tasks there, the idle task and the new one
included. `MAX_TASK` is the distance from `SVC_STACK_BASE` to `SYS_STACK_BASE` in stacks: it admits one task whose
stack is the one of the SYS mode.
-/

namespace Slos.TaskStacks
open Machine TaskList TaskSwitch

variable {τ : Type}

/-- The 4 KiB below `a` and those below `b`. -/
def StackApart (a b : ℕ) : Prop := a ≤ b - taskStackGap ∨ b ≤ a - taskStackGap

instance (a b : ℕ) : Decidable (StackApart a b) := inferInstanceAs (Decidable (_ ∨ _))

/-- The stacks of the SYS, IRQ, FIQ, ABT and UNDEF modes. -/
def modeStackBases : Core → List ℕ
  | .cpu0 => [sysStackBase, irqStackBase, fiqStackBase, abtStackBase, undefStackBase]
  | .cpu1 => [secSysStackBase, secIrqStackBase, secFiqStackBase, secAbtStackBase, secUndefStackBase]

/-- The tasks that `forkyi` created, the first one being the idle task. -/
def createdTasks (s : Run τ) (core : Core) : List τ := (s.tasks core).tail

structure StacksDisjoint (s : Run τ) : Prop where
  created : ∀ core core', ∀ t ∈ createdTasks s core, ∀ u ∈ createdTasks s core', t ≠ u →
    StackApart (s.kernel.sp t) (s.kernel.sp u)
  idle : ∀ core core', ∀ t ∈ createdTasks s core, StackApart (s.kernel.sp t) (stackBase core')
  modes : ∀ core core', ∀ t ∈ createdTasks s core, ∀ base ∈ modeStackBases core', StackApart (s.kernel.sp t) base

/-- No call asks for the sixteenth task of a core, the idle task included, unless its priority is refused. -/
def Room (s : Run τ) : Step τ → Prop
  | .forkyi core _ _ a => ∀ d, s.kernel.cpu core = some d → d.taskCreatedNum = 15 →
      a.type = .cfsTask ∧ priDivShift a.pri = none
  | _ => True

/-- The stack `i` of a core, the first one being that of the first created task. -/
def stackAt (core : Core) (i : ℕ) : ℕ := stackBase core - taskStackGap * (i + 2)

theorem stackAt_apart (core : Core) {i j : ℕ} (hj : j < 15) (hne : i ≠ j) :
    StackApart (stackAt core i) (stackAt core j) := by
  have hbase : 0x20000 ≤ stackBase core := by cases core <;> decide
  unfold StackApart stackAt taskStackGap
  omega

theorem stackAt_apart_other {core core' : Core} {i j : ℕ} (hi : i < 15) (hj : j < 15) (hne : core ≠ core') :
    StackApart (stackAt core i) (stackAt core' j) := by
  have h0 : stackBase .cpu0 = 0x314FFC := rfl
  have h1 : stackBase .cpu1 = 0x354FFC := rfl
  unfold StackApart stackAt taskStackGap
  cases core <;> cases core'
  · exact absurd rfl hne
  · omega
  · omega
  · exact absurd rfl hne

theorem stackAt_apart_base (core core' : Core) {i : ℕ} (hi : i < 15) : StackApart (stackAt core i) (stackBase core') := by
  have h0 : stackBase .cpu0 = 0x314FFC := rfl
  have h1 : stackBase .cpu1 = 0x354FFC := rfl
  unfold StackApart stackAt taskStackGap
  cases core <;> cases core' <;> omega

/-- Fourteen created tasks leave the stacks of the modes alone. -/
theorem stackAt_apart_mode (core core' : Core) {i base : ℕ} (hi : i < 14) (hbase : base ∈ modeStackBases core') :
    StackApart (stackAt core i) base := by
  have h0 : stackBase .cpu0 = 0x314FFC := rfl
  have h1 : stackBase .cpu1 = 0x354FFC := rfl
  have hrange : 0x300FFC ≤ base ∧ base ≤ 0x304FFC ∨ 0x340FFC ≤ base ∧ base ≤ 0x344FFC := by
    cases core' <;> revert base <;> decide
  unfold StackApart stackAt taskStackGap
  cases core <;> omega

theorem stackAt_last (core : Core) : stackAt core 14 ∈ modeStackBases core := by
  cases core <;> decide

theorem not_stackApart_self {a : ℕ} (h : taskStackGap ≤ a) : ¬ StackApart a a := by
  unfold StackApart taskStackGap at *
  omega

theorem sp_eq_stackAt {s : Run τ} (h : Listed s) {core : Core} {t : τ} (ht : t ∈ createdTasks s core) :
    ∃ i, i + 1 < (s.tasks core).length ∧ (createdTasks s core)[i]? = some t ∧ s.kernel.sp t = stackAt core i := by
  obtain ⟨i, hi, rfl⟩ := List.mem_iff_getElem.mp ht
  cases hcpu : s.kernel.cpu core with
  | none =>
      have hnil : createdTasks s core = [] := congrArg List.tail (h.before core hcpu)
      rw [hnil] at hi
      exact absurd hi (Nat.not_lt_zero _)
  | some d =>
      obtain ⟨created, htasks, hlist⟩ := h.lists core d hcpu
      have hget : (createdTasks s core)[i]? = some (createdTasks s core)[i] := List.getElem?_eq_getElem hi
      have hcreated : createdTasks s core = created := congrArg List.tail htasks
      refine ⟨i, ?_, hget, hlist.sp i _ (hcreated ▸ hget)⟩
      rw [htasks, List.length_cons, ← hcreated]
      exact Nat.succ_lt_succ hi

/-- The stacks are disjoint as long as no core has all of its `MAX_TASK` tasks. -/
theorem stacksDisjoint_iff {s : Run τ} (h : Listed s) : StacksDisjoint s ↔ ∀ core, (s.tasks core).length ≠ maxTask := by
  constructor
  · intro hs core hlen
    have hlen' : (createdTasks s core).length = 15 := by
      rw [createdTasks, List.length_tail, hlen]
      rfl
    have hlt : 14 < (createdTasks s core).length := hlen' ▸ Nat.lt_succ_self 14
    cases hcpu : s.kernel.cpu core with
    | none =>
        rw [h.before core hcpu] at hlen
        cases hlen
    | some d =>
        obtain ⟨created, htasks, hlist⟩ := h.lists core d hcpu
        have hcreated : createdTasks s core = created := congrArg List.tail htasks
        have hget : created[14]? = some (createdTasks s core)[14] := hcreated ▸ List.getElem?_eq_getElem hlt
        have hapart := hs.modes core core _ (List.getElem_mem hlt) _ (stackAt_last core)
        rw [hlist.sp 14 _ hget] at hapart
        exact not_stackApart_self (by cases core <;> decide) hapart
  · intro hroom
    have hlt : ∀ {core i}, i + 1 < (s.tasks core).length → i < 14 := by
      intro core i hi
      have hle := h.length_le core
      have hne := hroom core
      have hmax : maxTask = 16 := rfl
      omega
    constructor
    · intro core core' t ht u hu htu
      obtain ⟨i, hi, hti, hsp⟩ := sp_eq_stackAt h ht
      obtain ⟨j, hj, huj, hsp'⟩ := sp_eq_stackAt h hu
      rw [hsp, hsp']
      by_cases hcore : core = core'
      · subst hcore
        apply stackAt_apart core ((hlt hj).trans (by decide))
        rintro rfl
        exact htu (Option.some.inj (hti.symm.trans huj))
      · exact stackAt_apart_other ((hlt hi).trans (by decide)) ((hlt hj).trans (by decide)) hcore
    · intro core core' t ht
      obtain ⟨i, hi, -, hsp⟩ := sp_eq_stackAt h ht
      rw [hsp]
      exact stackAt_apart_base core core' ((hlt hi).trans (by decide))
    · intro core core' t ht base hbase
      obtain ⟨i, hi, -, hsp⟩ := sp_eq_stackAt h ht
      rw [hsp]
      exact stackAt_apart_mode core core' (hlt hi) hbase

theorem length_forkyi [DecidableEq τ] {s t : Run τ} {core : Core} {pt : τ} {lr : ℕ} {a : ForkArgs} {d : CpuTasks τ}
    (h : Listed s) (hcpu : s.kernel.cpu core = some d) (hrefused : ¬ Refused d a)
    (hstep : step s (.forkyi core pt lr a) = some t) :
    (t.tasks core).length = d.taskCreatedNum + 1 ∧ ∀ c, c ≠ core → t.tasks c = s.tasks c := by
  obtain ⟨e, hcpu', ht⟩ := Option.bind_eq_some_iff.mp hstep
  cases hcpu.symm.trans hcpu'
  rw [forkyi_admitted hrefused] at ht
  obtain ⟨-, ht⟩ := Option.ite_none_left_eq_some.mp ht
  cases ht
  obtain ⟨created, htasks, hlist⟩ := h.lists core d hcpu
  constructor
  · change (Function.update s.tasks core (s.tasks core ++ [pt]) core).length = _
    rw [Function.update_self, htasks, List.length_append, hlist.count]
    rfl
  · exact fun c hc => Function.update_of_ne hc _ _

/-- What a step makes of the number of tasks of a core. -/
theorem length_step [DecidableEq τ] {s t : Run τ} {i : Step τ} (h : Listed s) (hstep : step s i = some t) (core : Core) :
    (t.tasks core).length = (s.tasks core).length ∨
      (s.tasks core).length = 0 ∧ (t.tasks core).length = 1 ∨
      ∃ pt lr a d, i = .forkyi core pt lr a ∧ s.kernel.cpu core = some d ∧ ¬ Refused d a ∧
        (t.tasks core).length = d.taskCreatedNum + 1 := by
  cases i with
  | initIdletask c pt =>
      obtain ⟨hguard, ht⟩ := Option.ite_none_left_eq_some.mp hstep
      rw [not_or, Option.not_isSome_iff_eq_none] at hguard
      cases ht
      rcases eq_or_ne core c with rfl | hne
      · right
        left
        constructor
        · rw [h.before core hguard.1]
          rfl
        · exact congrArg List.length (Function.update_self core [pt] s.tasks)
      · left
        exact congrArg List.length (Function.update_of_ne hne [pt] s.tasks)
  | schedule c next =>
      obtain ⟨-, ht⟩ := Option.ite_none_right_eq_some.mp hstep
      obtain ⟨d, -, rfl⟩ := Option.map_eq_some_iff.mp ht
      exact .inl rfl
  | forkyi c pt lr a =>
      obtain ⟨d, hcpu, ht⟩ := Option.bind_eq_some_iff.mp hstep
      by_cases hrefused : Refused d a
      · rw [forkyi_refused hrefused] at ht
        cases ht
        exact .inl rfl
      · obtain ⟨hlen, hothers⟩ := length_forkyi h hcpu hrefused hstep
        rcases eq_or_ne core c with rfl | hne
        · exact .inr (.inr ⟨pt, lr, a, d, rfl, hcpu, hrefused, hlen⟩)
        · exact .inl (congrArg List.length (hothers core hne))

/-- In every run on the two cores the stacks are disjoint, exactly as long as no sixteenth task is created on a core. -/
theorem stacks_disjoint_iff [DecidableEq τ] (task : τ → Task τ) (node : τ → TaskNode τ) (is : List (Step τ)) :
    Always step StacksDisjoint (start task node) is ↔ StepsMeet step Room (start task node) is := by
  apply always_iff_stepsMeet fun s => Listed s ∧ StacksDisjoint s
  · exact fun s h => h.2
  · rintro s i t ⟨h, hs⟩ hroom hstep
    have ht := listed_step i h hstep
    refine ⟨ht, (stacksDisjoint_iff ht).mpr fun core => ?_⟩
    rcases length_step h hstep core with hlen | ⟨-, hlen⟩ | ⟨pt, lr, a, d, rfl, hcpu, hrefused, hlen⟩
    · rw [hlen]
      exact (stacksDisjoint_iff h).mp hs core
    · rw [hlen]
      decide
    · intro hfull
      have hnum : d.taskCreatedNum = 15 := Nat.succ.inj (hlen.symm.trans hfull)
      exact hrefused (.inl (hroom d hcpu hnum))
  · rintro s i t ⟨h, -⟩ hstep ht
    cases i with
    | initIdletask => trivial
    | schedule => trivial
    | forkyi core pt lr a =>
        intro d hcpu hnum
        by_contra hpri
        have hrefused : ¬ Refused d a := by
          rintro (h' | h')
          · exact hpri h'
          · rw [hnum] at h'
            exact absurd h' (by decide)
        apply (stacksDisjoint_iff (listed_step _ h hstep)).mp ht core
        rw [(length_forkyi h hcpu hrefused hstep).1, hnum]
        rfl
  · refine ⟨listed_start task node, (stacksDisjoint_iff (listed_start task node)).mpr fun core => ?_⟩
    exact (by decide : 0 ≠ maxTask)

/-- Memory that holds zeros. -/
def zeroNode : TaskNode ℕ where
  ct := { r := fun _ => 0, sp := 0, lr := 0, pc := 0, s := fun _ => 0, fpscr := 0, fpexc := 0 }
  entry := 0
  name := fun _ => 0
  timeinterval := 0
  next := none
  prev := none

def rtArgs : ForkArgs where
  name := ⟨[114, 116], by decide, by decide⟩
  fn := 0x100000
  type := .rtTask
  pri := 0

/-- `init_idletask` on core 0, and fifteen tasks. -/
def fifteenTasks : List (Step ℕ) := .initIdletask .cpu0 0 :: (List.range 15).map fun i => .forkyi .cpu0 (i + 1) 0 rtArgs

theorem fifteenTasks_exec : (exec step (start (fun _ => rawTask) fun _ => zeroNode) fifteenTasks).map
    (fun s => (s.kernel.sp 15, decide (15 ∈ createdTasks s .cpu0))) = some (sysStackBase, true) := by
  decide

/-- The stack of the fifteenth task is the stack of the SYS mode. -/
theorem last_stack_is_sys : ¬ Always step StacksDisjoint (start (fun _ => rawTask) fun _ => zeroNode) fifteenTasks := by
  intro h
  obtain ⟨s, hexec, hs⟩ := Option.map_eq_some_iff.mp fifteenTasks_exec
  obtain ⟨hsp, hmem⟩ := Prod.mk.inj hs
  have hdisjoint := always_iff_exec.mp h fifteenTasks List.prefix_rfl s hexec
  have hapart := hdisjoint.modes .cpu0 .cpu0 15 (of_decide_eq_true hmem) sysStackBase List.mem_cons_self
  rw [hsp] at hapart
  exact not_stackApart_self (by decide) hapart

end Slos.TaskStacks
