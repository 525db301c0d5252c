import Slos.LinkedRing
import Slos.TaskSwitch

/-!
# The task list

`forkyi` and `init_idletask` with the pointers they write: the list from `first` over `task.next`, and `print_task_stat`, which
follows it. A task is where `kmalloc` put it. The machine takes the calls on both cores one at a time; its
`tasks` are the idle task of a core and those that `forkyi` returned there, in this order.
-/

namespace Slos.TaskList
open Word LinkedRing Machine TaskSwitch

/-- A string of fewer than 32 characters. -/
structure TaskName where
  chars : List ℕ
  short : chars.length < 32
  noNul : 0 ∉ chars

/-- What `Task` leaves out of `struct task_struct`. -/
structure TaskNode (τ : Type) where
  ct : Context
  entry : ℕ
  name : ℕ → ℕ
  timeinterval : ℕ
  next : Option τ
  prev : Option τ

/-- The data of a core, from `init_idletask` on. -/
structure CpuTasks (τ : Type) where
  first : τ
  last : τ
  current : τ
  idleTask : τ
  taskCreatedNum : ℕ

structure Forks (τ : Type) where
  task : τ → Task τ
  node : τ → TaskNode τ
  cpu : Core → Option (CpuTasks τ)
  pid : ℕ

structure ForkArgs where
  name : TaskName
  fn : ℕ
  type : TaskType
  pri : ℕ

/-- The loop over `name[i]`, and the `'\0'` behind it. -/
def copyName (dst : ℕ → ℕ) : ℕ → List ℕ → ℕ → ℕ
  | i, [] => Function.update dst i 0
  | i, c :: cs => copyName (Function.update dst i c) (i + 1) cs

variable {τ : Type} [DecidableEq τ]

def setNext (node : τ → TaskNode τ) (p q : τ) : τ → TaskNode τ := Function.update node p { node p with next := some q }

@[simp] theorem setNext_next (node : τ → TaskNode τ) (p q r : τ) :
    (setNext node p q r).next = if r = p then some q else (node r).next := by
  by_cases h : r = p <;> simp [setNext, h]

@[simp] theorem setNext_prev (node : τ → TaskNode τ) (p q r : τ) : (setNext node p q r).prev = (node r).prev := by
  by_cases h : r = p <;> simp [setNext, h]

@[simp] theorem setNext_ct (node : τ → TaskNode τ) (p q r : τ) : (setNext node p q r).ct = (node r).ct := by
  by_cases h : r = p <;> simp [setNext, h]

def setPrev (node : τ → TaskNode τ) (p q : τ) : τ → TaskNode τ := Function.update node p { node p with prev := some q }

@[simp] theorem setPrev_prev (node : τ → TaskNode τ) (p q r : τ) :
    (setPrev node p q r).prev = if r = p then some q else (node r).prev := by
  by_cases h : r = p <;> simp [setPrev, h]

@[simp] theorem setPrev_next (node : τ → TaskNode τ) (p q r : τ) : (setPrev node p q r).next = (node r).next := by
  by_cases h : r = p <;> simp [setPrev, h]

@[simp] theorem setPrev_ct (node : τ → TaskNode τ) (p q r : τ) : (setPrev node p q r).ct = (node r).ct := by
  by_cases h : r = p <;> simp [setPrev, h]

def smpProcessorId : Core → ℕ
  | .cpu0 => 0
  | .cpu1 => 1

def idleName : Core → List ℕ
  | .cpu0 => "idle task".toList.map Char.toNat
  | .cpu1 => "idle task secondary".toList.map Char.toNat

def initIdletask (k : Forks τ) (core : Core) (pt : τ) : Forks τ :=
  { k with
    task := Function.update k.task pt (Slos.initIdletask (k.task pt) (smpProcessorId core))
    node := Function.update k.node pt
      { k.node pt with name := copyName (k.node pt).name 0 (idleName core), next := none, prev := none }
    cpu := Function.update k.cpu core
      (some { first := pt, last := pt, current := pt, idleTask := pt, taskCreatedNum := 1 }) }

/-- What `forkyi` does once it has the memory `pt`; `lr` is its register `r14`. -/
def fork (k : Forks τ) (core : Core) (d : CpuTasks τ) (pt : τ) (lr : ℕ) (a : ForkArgs) : Forks τ :=
  let num := u32 (d.taskCreatedNum + 1)
  let ct := { (k.node pt).ct with
    sp := usub (stackBase core) (taskStackGap * num), lr := lr, pc := a.fn, fpscr := 0, fpexc := 0x40000000 }
  let node := Function.update k.node pt
    { k.node pt with ct := ct, entry := a.fn, name := copyName (k.node pt).name 0 a.name.chars }
  let node := setNext node d.last pt
  let node := setPrev node pt d.last
  let node := setNext node pt d.first
  let node := setPrev node d.first pt
  { task := Function.update k.task pt
      (forkTask (k.task pt) k.pid a.type a.pri ((priDivShift a.pri).getD 0) d.current)
    node := node
    cpu := Function.update k.cpu core (some { d with last := pt, taskCreatedNum := num })
    pid := u32 (k.pid + 1) }

/-- The pointer that is returned, and the state. -/
def forkyi (k : Forks τ) (core : Core) (d : CpuTasks τ) (pt : τ) (lr : ℕ) (a : ForkArgs) : Option τ × Forks τ :=
  if a.type = .cfsTask ∧ priDivShift a.pri = none then (none, k)
  else if d.taskCreatedNum = maxTask then (none, k)
  else (some pt, fork k core d pt lr a)

/-- A name as it is printed. -/
def cString (name : ℕ → ℕ) : List ℕ := ((List.range 32).map name).takeWhile (· ≠ 0)

inductive Stat
  | cfs (name : List ℕ) (pid : ℕ) (state : TaskState) (priority jiffiesVruntime jiffiesConsumed : ℕ)
  | rt (name : List ℕ) (pid : ℕ) (state : TaskState) (timeinterval missedCnt : ℕ)

/-- Nothing is printed of a oneshot task. -/
def Forks.stat (k : Forks τ) (pcur : τ) : Option Stat :=
  let t := k.task pcur
  let name := cString (k.node pcur).name
  match t.type with
  | .cfsTask => some (.cfs name t.pid t.state t.se.priority t.se.jiffiesVruntime t.se.jiffiesConsumed)
  | .rtTask => some (.rt name t.pid t.state (k.node pcur).timeinterval t.missedCnt)
  | .oneshotTask => none

def Forks.next (k : Forks τ) (p : τ) : Option τ := (k.node p).next

def Forks.prev (k : Forks τ) (p : τ) : Option τ := (k.node p).prev

def Forks.sp (k : Forks τ) (p : τ) : ℕ := (k.node p).ct.sp

def Forks.pidOf (k : Forks τ) (p : τ) : ℕ := (k.task p).pid

/-- The tasks the loop comes to, each with what is printed of it. -/
def printTaskStat (k : Forks τ) (thisFirst : τ) (fuel : ℕ) : Option (List (τ × Option Stat)) :=
  (tour k.next thisFirst fuel thisFirst).map fun ts => ts.map fun t => (t, k.stat t)

structure Run (τ : Type) where
  kernel : Forks τ
  tasks : Core → List τ

def Run.objects (s : Run τ) : List τ := s.tasks .cpu0 ++ s.tasks .cpu1

inductive Step (τ : Type)
  | initIdletask (core : Core) (pt : τ)
  | schedule (core : Core) (next : τ)
  | forkyi (core : Core) (pt : τ) (lr : ℕ) (a : ForkArgs)

/-- `kmalloc` returns fresh objects, and `init_idletask` is called once on a core, before `forkyi`. -/
def step (s : Run τ) : Step τ → Option (Run τ)
  | .initIdletask core pt =>
      if (s.kernel.cpu core).isSome ∨ pt ∈ s.objects then none
      else some ⟨initIdletask s.kernel core pt, Function.update s.tasks core [pt]⟩
  | .schedule core next =>
      if next ∈ s.tasks core then (s.kernel.cpu core).map fun d =>
        { s with kernel := { s.kernel with cpu := Function.update s.kernel.cpu core (some { d with current := next }) } }
      else none
  | .forkyi core pt lr a => (s.kernel.cpu core).bind fun d =>
      match forkyi s.kernel core d pt lr a with
      | (none, k) => some { s with kernel := k }
      | (some t, k) =>
          if t ∈ s.objects then none else some ⟨k, Function.update s.tasks core (s.tasks core ++ [t])⟩

/-- Before the first `init_idletask`, with any memory. -/
def start (task : τ → Task τ) (node : τ → TaskNode τ) : Run τ :=
  { kernel := { task := task, node := node, cpu := fun _ => none, pid := 2 }, tasks := fun _ => [] }

variable {k : Forks τ} {core : Core} {d : CpuTasks τ} {pt : τ} {lr : ℕ} {a : ForkArgs}

theorem fork_next (q : τ) : (fork k core d pt lr a).next q =
    if q = pt then some d.first else if q = d.last then some pt else k.next q := by
  by_cases h : q = pt <;> simp [Forks.next, fork, h]

theorem fork_prev (q : τ) : (fork k core d pt lr a).prev q =
    if q = d.first then some pt else if q = pt then some d.last else k.prev q := by
  by_cases h : q = pt <;> simp [Forks.prev, fork, h]

theorem fork_sp (q : τ) : (fork k core d pt lr a).sp q =
    if q = pt then usub (stackBase core) (taskStackGap * u32 (d.taskCreatedNum + 1)) else k.sp q := by
  by_cases h : q = pt <;> simp [Forks.sp, fork, h]

theorem fork_pidOf (q : τ) : (fork k core d pt lr a).pidOf q = if q = pt then k.pid else k.pidOf q := by
  by_cases h : q = pt <;> simp [Forks.pidOf, fork, forkTask, h]

theorem initIdletask_next (q : τ) : (initIdletask k core pt).next q = if q = pt then none else k.next q := by
  by_cases h : q = pt <;> simp [Forks.next, initIdletask, h]

theorem initIdletask_prev (q : τ) : (initIdletask k core pt).prev q = if q = pt then none else k.prev q := by
  by_cases h : q = pt <;> simp [Forks.prev, initIdletask, h]

theorem initIdletask_sp (q : τ) : (initIdletask k core pt).sp q = k.sp q := by
  by_cases h : q = pt <;> simp [Forks.sp, initIdletask, h]

theorem initIdletask_pidOf (q : τ) :
    (initIdletask k core pt).pidOf q = if q = pt then smpProcessorId core else k.pidOf q := by
  by_cases h : q = pt <;> simp [Forks.pidOf, initIdletask, Slos.initIdletask, h]

/-- The list of a core with the idle task `d.first` and the tasks `created`. -/
structure CpuList (k : Forks τ) (core : Core) (d : CpuTasks τ) (created : List τ) : Prop where
  linked : LinkedRing.Linked k.next k.prev d.first created
  last : d.last = created.getLastD d.first
  ring : created ≠ [] → k.next d.last = some d.first ∧ k.prev d.first = some d.last
  count : d.taskCreatedNum = created.length + 1
  bound : created.length + 1 ≤ maxTask
  sp : ∀ i t, created[i]? = some t → k.sp t = stackBase core - taskStackGap * (i + 2)
  idlePid : k.pidOf d.first = smpProcessorId core
  pids : ∀ t ∈ created, 2 ≤ k.pidOf t ∧ k.pidOf t < k.pid
  increasing : created.Pairwise fun t u => k.pidOf t < k.pidOf u

omit [DecidableEq τ] in
theorem CpuList.last_mem {created : List τ} (h : CpuList k core d created) : d.last ∈ d.first :: created := by
  rw [h.last]
  exact List.getLastD_mem_cons

/-- The links, the stack pointer and the pid of a task are as they were. -/
structure SameTask (k k' : Forks τ) (q : τ) : Prop where
  next : k'.next q = k.next q
  prev : k'.prev q = k.prev q
  sp : k'.sp q = k.sp q
  pidOf : k'.pidOf q = k.pidOf q

omit [DecidableEq τ] in
/-- Other code that leaves the tasks of this core as they are. -/
theorem CpuList.frame {k' : Forks τ} {created : List τ} (h : CpuList k core d created) (hnd : (d.first :: created).Nodup)
    (hsame : ∀ q ∈ d.first :: created, SameTask k k' q) (hle : k.pid ≤ k'.pid) : CpuList k' core d created := by
  have hidle := hsame d.first List.mem_cons_self
  have hcreated : ∀ t ∈ created, SameTask k k' t := fun t ht => hsame t (List.mem_cons_of_mem _ ht)
  constructor
  · exact h.linked.congr (fun q hq _ => (hsame q hq).next) (fun q hq => (hcreated q hq).prev) hnd
  · exact h.last
  · intro hne
    rw [(hsame _ h.last_mem).next, hidle.prev]
    exact h.ring hne
  · exact h.count
  · exact h.bound
  · intro i t ht
    rw [(hcreated t (List.mem_of_getElem? ht)).sp]
    exact h.sp i t ht
  · rw [hidle.pidOf]
    exact h.idlePid
  · intro t ht
    rw [(hcreated t ht).pidOf]
    exact ⟨(h.pids t ht).1, (h.pids t ht).2.trans_le hle⟩
  · apply h.increasing.imp_of_mem
    intro t u ht hu hlt
    rw [(hcreated t ht).pidOf, (hcreated u hu).pidOf]
    exact hlt

theorem stackBase_sub {n : ℕ} (h : n ≤ maxTask) :
    usub (stackBase core) (taskStackGap * n) = stackBase core - taskStackGap * n := by
  have hn : n ≤ 16 := h
  apply usub_of_le
  · cases core <;> decide
  · have hbase : 0x314FFC ≤ stackBase core := by cases core <;> decide
    unfold taskStackGap
    omega

/-- One more task at the end of the list. -/
theorem CpuList.push {created : List τ} (h : CpuList k core d created) (hnd : (d.first :: created).Nodup)
    (hpt : pt ∉ d.first :: created) (hnum : d.taskCreatedNum ≠ maxTask) (hpid : 2 ≤ k.pid) (hsize : k.pid + 1 < size) :
    CpuList (fork k core d pt lr a) core { d with last := pt, taskCreatedNum := u32 (d.taskCreatedNum + 1) }
      (created ++ [pt]) := by
  have hne : ∀ q ∈ d.first :: created, q ≠ pt := fun q hq he => hpt (he ▸ hq)
  have hin : ∀ {t}, t ∈ created → t ∈ d.first :: created := fun ht => List.mem_cons_of_mem _ ht
  have hlast : created.getLastD d.first ≠ pt := h.last ▸ hne _ h.last_mem
  have hlt : created.length + 1 < maxTask := by
    have hbound := h.bound
    rw [h.count] at hnum
    omega
  have hcount : u32 (d.taskCreatedNum + 1) = created.length + 2 := by
    rw [h.count]
    exact u32_of_lt (lt_of_le_of_lt hlt (by decide))
  have hpidSucc : (fork k core d pt lr a).pid = k.pid + 1 := u32_of_lt hsize
  have hring : LinkedRing.Linked (fork k core d pt lr a).next (fork k core d pt lr a).prev d.first
      (created ++ [pt] ++ [d.first]) := by
    apply h.linked.insert hnd
    · rw [fork_next, if_neg hlast, if_pos h.last.symm]
    · rw [fork_next, if_pos rfl]
    · rw [fork_prev, if_neg (hne _ List.mem_cons_self).symm, if_pos rfl, h.last]
    · rw [fork_prev, if_pos rfl]
    · intro q hq hql
      rw [fork_next, if_neg (hne q hq), if_neg (h.last ▸ hql)]
    · intro q hq
      have hqf : q ≠ d.first := fun he => (List.nodup_cons.mp hnd).1 (he ▸ hq)
      rw [fork_prev, if_neg hqf, if_neg (hne q (hin hq))]
  obtain ⟨hlinked, hnext, hprev⟩ := linked_snoc.mp hring
  rw [List.getLastD_concat] at hnext hprev
  have hpids : ∀ t ∈ created ++ [pt], 2 ≤ (fork k core d pt lr a).pidOf t ∧ (fork k core d pt lr a).pidOf t < k.pid + 1 := by
    intro t ht
    rw [fork_pidOf]
    rcases List.mem_append.mp ht with ht | ht
    · rw [if_neg (hne t (hin ht))]
      exact ⟨(h.pids t ht).1, (h.pids t ht).2.trans (Nat.lt_succ_self _)⟩
    · rw [if_pos (List.mem_singleton.mp ht)]
      exact ⟨hpid, Nat.lt_succ_self _⟩
  constructor
  · exact hlinked
  · exact List.getLastD_concat.symm
  · exact fun _ => ⟨hnext, hprev⟩
  · change u32 (d.taskCreatedNum + 1) = _
    rw [hcount, List.length_append, List.length_singleton]
  · rw [List.length_append, List.length_singleton]
    exact hlt
  · intro i t ht
    rw [fork_sp]
    rcases lt_or_ge i created.length with hi | hi
    · rw [List.getElem?_append_left hi] at ht
      rw [if_neg (hne t (hin (List.mem_of_getElem? ht)))]
      exact h.sp i t ht
    · rw [List.getElem?_append_right hi] at ht
      obtain ⟨hi0, htpt⟩ := Option.ite_none_right_eq_some.mp (List.getElem?_singleton.symm.trans ht)
      have hi' : i = created.length := by omega
      rw [if_pos (Option.some.inj htpt).symm, hcount, stackBase_sub hlt, hi']
  · rw [fork_pidOf, if_neg (hne _ List.mem_cons_self)]
    exact h.idlePid
  · rw [hpidSucc]
    exact hpids
  · apply List.pairwise_append.mpr
    constructor
    · apply h.increasing.imp_of_mem
      intro t u ht hu hlt
      rw [fork_pidOf, fork_pidOf, if_neg (hne t (hin ht)), if_neg (hne u (hin hu))]
      exact hlt
    · refine ⟨List.pairwise_singleton _ _, ?_⟩
      intro t ht u hu
      rw [fork_pidOf, fork_pidOf, if_neg (hne t (hin ht)), if_pos (List.mem_singleton.mp hu)]
      exact (h.pids t ht).2

theorem copyName_of_lt (dst : ℕ → ℕ) {i j : ℕ} (cs : List ℕ) (h : j < i) : copyName dst i cs j = dst j := by
  induction cs generalizing dst i with
  | nil => exact Function.update_of_ne h.ne _ _
  | cons c cs ih => rw [copyName, ih _ (h.trans (Nat.lt_succ_self i)), Function.update_of_ne h.ne]

theorem copyName_getElem (dst : ℕ → ℕ) (i : ℕ) {j : ℕ} (cs : List ℕ) (h : j ≤ cs.length) :
    copyName dst i cs (i + j) = cs.getD j 0 := by
  induction cs generalizing dst i j with
  | nil =>
      obtain rfl := Nat.le_zero.mp h
      exact Function.update_self _ _ _
  | cons c cs ih =>
      cases j with
      | zero => rw [Nat.add_zero, copyName, copyName_of_lt _ _ (Nat.lt_succ_self i), Function.update_self, List.getD_cons_zero]
      | succ j =>
          rw [copyName, List.getD_cons_succ, ← ih (Function.update dst i c) (i + 1) (Nat.le_of_succ_le_succ h)]
          congr 1
          omega

theorem copyName_of_gt (dst : ℕ → ℕ) {i j : ℕ} (cs : List ℕ) (h : i + cs.length < j) : copyName dst i cs j = dst j := by
  induction cs generalizing dst i with
  | nil => exact Function.update_of_ne (Nat.ne_of_gt h) _ _
  | cons c cs ih =>
      rw [List.length_cons] at h
      rw [copyName, ih _ (by omega), Function.update_of_ne (by omega)]

/-- A name of fewer than 32 characters stays in `name[32]`, and is printed as it was given. -/
theorem copyName_field (dst : ℕ → ℕ) (n : TaskName) :
    (∀ j, 32 ≤ j → copyName dst 0 n.chars j = dst j) ∧ cString (copyName dst 0 n.chars) = n.chars := by
  have hshort := n.short
  constructor
  · intro j hj
    exact copyName_of_gt dst n.chars (by omega)
  · have hsplit : List.range 32 = List.range n.chars.length ++ List.range' n.chars.length (32 - n.chars.length) := by
      have happend := @List.range'_append_1 0 n.chars.length (32 - n.chars.length)
      rw [Nat.zero_add, Nat.add_sub_cancel' hshort.le] at happend
      rw [List.range_eq_range', List.range_eq_range', happend]
    have hchars : (List.range n.chars.length).map (copyName dst 0 n.chars) = n.chars := by
      apply List.ext_getElem
      · rw [List.length_map, List.length_range]
      · intro j hj hj'
        have hcopy := copyName_getElem dst 0 n.chars hj'.le
        rw [Nat.zero_add] at hcopy
        rw [List.getElem_map, List.getElem_range, hcopy, List.getD_eq_getElem _ _ hj']
    obtain ⟨m, hm⟩ : ∃ m, 32 - n.chars.length = m + 1 := ⟨31 - n.chars.length, by omega⟩
    have hend := copyName_getElem dst 0 n.chars le_rfl
    rw [Nat.zero_add, List.getD_eq_default _ _ le_rfl] at hend
    rw [cString, hsplit, List.map_append, hchars, hm, List.range'_succ, List.map_cons, hend, List.takeWhile_append_of_pos]
    · simp
    · intro c hc
      have hne : c ≠ 0 := fun he => n.noNul (he ▸ hc)
      simpa using hne

/-- On each core no task before `init_idletask`, and a list from then on. -/
structure Listed (s : Run τ) : Prop where
  nodup : s.objects.Nodup
  before : ∀ core, s.kernel.cpu core = none → s.tasks core = []
  lists : ∀ core d, s.kernel.cpu core = some d →
    ∃ created, s.tasks core = d.first :: created ∧ CpuList s.kernel core d created
  pid : 2 ≤ s.kernel.pid
  pidLe : s.kernel.pid ≤ 2 + s.objects.length

omit [DecidableEq τ] in
theorem mem_objects {s : Run τ} {core : Core} {t : τ} (h : t ∈ s.tasks core) : t ∈ s.objects := by
  cases core
  · exact List.mem_append_left _ h
  · exact List.mem_append_right _ h

omit [DecidableEq τ] in
theorem tasks_disjoint {s : Run τ} (h : s.objects.Nodup) {core core' : Core} (hne : core ≠ core') {t : τ}
    (ht : t ∈ s.tasks core) : t ∉ s.tasks core' := by
  have hdisj := List.disjoint_of_nodup_append h
  cases core <;> cases core'
  · exact absurd rfl hne
  · exact hdisj ht
  · exact fun ht' => hdisj ht' ht
  · exact absurd rfl hne

omit [DecidableEq τ] in
theorem Listed.tasks_nodup {s : Run τ} (h : Listed s) (core : Core) : (s.tasks core).Nodup := by
  cases core
  · exact h.nodup.of_append_left
  · exact h.nodup.of_append_right

omit [DecidableEq τ] in
theorem Listed.length_le {s : Run τ} (h : Listed s) (core : Core) : (s.tasks core).length ≤ maxTask := by
  cases hcpu : s.kernel.cpu core with
  | none =>
      rw [h.before core hcpu]
      exact Nat.zero_le _
  | some d =>
      obtain ⟨created, htasks, hlist⟩ := h.lists core d hcpu
      rw [htasks]
      exact hlist.bound

omit [DecidableEq τ] in
theorem Listed.pid_lt {s : Run τ} (h : Listed s) : s.kernel.pid + 1 < size := by
  have h0 := h.length_le .cpu0
  have h1 := h.length_le .cpu1
  have hle := h.pidLe
  rw [Run.objects, List.length_append] at hle
  have hmax : maxTask = 16 := rfl
  have hsize : size = 4294967296 := rfl
  omega

omit [DecidableEq τ] in
theorem objects_push (s : Run τ) (core : Core) (pt : τ) (k : Forks τ) :
    (Run.mk k (Function.update s.tasks core (s.tasks core ++ [pt]))).objects.Perm (pt :: s.objects) := by
  cases core
  · simp [Run.objects, List.perm_middle]
  · simp [Run.objects, ← List.append_assoc]

omit [DecidableEq τ] in
/-- One more object on a core, whose list now also has it. -/
theorem Listed.push {s : Run τ} (h : Listed s) {k' : Forks τ} {d' : CpuTasks τ} {created : List τ} (hfresh : pt ∉ s.objects)
    (hcpu : k'.cpu = Function.update s.kernel.cpu core (some d')) (htasks : s.tasks core ++ [pt] = d'.first :: created)
    (hlist : CpuList k' core d' created)
    (hkeep : ∀ q, q ≠ pt → q ∉ s.tasks core → SameTask s.kernel k' q)
    (hle : s.kernel.pid ≤ k'.pid) (hle' : k'.pid ≤ s.kernel.pid + 1) :
    Listed ⟨k', Function.update s.tasks core (s.tasks core ++ [pt])⟩ := by
  have hperm := objects_push s core pt k'
  constructor
  · exact hperm.nodup_iff.mpr (List.nodup_cons.mpr ⟨hfresh, h.nodup⟩)
  · intro c hc
    change k'.cpu c = none at hc
    rcases eq_or_ne c core with rfl | hne
    · rw [hcpu, Function.update_self] at hc
      cases hc
    · rw [hcpu, Function.update_of_ne hne] at hc
      change Function.update s.tasks core _ c = []
      rw [Function.update_of_ne hne]
      exact h.before c hc
  · intro c e hc
    change k'.cpu c = some e at hc
    change ∃ created, Function.update s.tasks core _ c = e.first :: created ∧ CpuList k' c e created
    rcases eq_or_ne c core with rfl | hne
    · rw [hcpu, Function.update_self] at hc
      cases hc
      rw [Function.update_self]
      exact ⟨created, htasks, hlist⟩
    · rw [hcpu, Function.update_of_ne hne] at hc
      rw [Function.update_of_ne hne]
      obtain ⟨others, hothers, hlist'⟩ := h.lists c e hc
      have hsame : ∀ q ∈ e.first :: others, SameTask s.kernel k' q := by
        intro q hq
        rw [← hothers] at hq
        apply hkeep q
        · rintro rfl
          exact hfresh (mem_objects hq)
        · exact tasks_disjoint h.nodup hne hq
      have hnd : (e.first :: others).Nodup := hothers ▸ h.tasks_nodup c
      exact ⟨others, hothers, hlist'.frame hnd hsame hle⟩
  · exact h.pid.trans hle
  · change k'.pid ≤ 2 + _
    rw [hperm.length_eq, List.length_cons]
    have hbound := h.pidLe
    omega

theorem listed_initIdletask {s : Run τ} (h : Listed s) (hcpu : s.kernel.cpu core = none) (hfresh : pt ∉ s.objects) :
    Listed ⟨initIdletask s.kernel core pt, Function.update s.tasks core [pt]⟩ := by
  have htasks := h.before core hcpu
  have hpush : Listed ⟨initIdletask s.kernel core pt, Function.update s.tasks core (s.tasks core ++ [pt])⟩ := by
    have hcreated : s.tasks core ++ [pt] = [pt] := by rw [htasks, List.nil_append]
    apply h.push hfresh rfl hcreated
    · constructor
      · trivial
      · rfl
      · exact fun hne => absurd rfl hne
      · rfl
      · exact (by decide : 0 + 1 ≤ maxTask)
      · intro i t ht
        cases ht
      · rw [initIdletask_pidOf, if_pos rfl]
      · exact fun t ht => absurd ht List.not_mem_nil
      · exact List.Pairwise.nil
    · intro q hq _
      constructor
      · rw [initIdletask_next, if_neg hq]
      · rw [initIdletask_prev, if_neg hq]
      · exact initIdletask_sp q
      · rw [initIdletask_pidOf, if_neg hq]
    · exact le_rfl
    · exact Nat.le_succ _
  rw [htasks] at hpush
  exact hpush

theorem listed_fork {s : Run τ} (h : Listed s) (hcpu : s.kernel.cpu core = some d) (hnum : d.taskCreatedNum ≠ maxTask)
    (hfresh : pt ∉ s.objects) :
    Listed ⟨fork s.kernel core d pt lr a, Function.update s.tasks core (s.tasks core ++ [pt])⟩ := by
  obtain ⟨created, htasks, hlist⟩ := h.lists core d hcpu
  have hnd : (d.first :: created).Nodup := htasks ▸ h.tasks_nodup core
  have hpt : pt ∉ d.first :: created := fun hmem => hfresh (mem_objects (htasks ▸ hmem))
  have hpid : (fork s.kernel core d pt lr a).pid = s.kernel.pid + 1 := u32_of_lt h.pid_lt
  apply h.push hfresh rfl
  · rw [htasks]
    rfl
  · exact hlist.push hnd hpt hnum h.pid h.pid_lt
  · intro q hq hmem
    have hfirst : q ≠ d.first := by
      rintro rfl
      exact hmem (htasks ▸ List.mem_cons_self)
    have hlast : q ≠ d.last := by
      rintro rfl
      exact hmem (htasks ▸ hlist.last_mem)
    constructor
    · rw [fork_next, if_neg hq, if_neg hlast]
    · rw [fork_prev, if_neg hfirst, if_neg hq]
    · rw [fork_sp, if_neg hq]
    · rw [fork_pidOf, if_neg hq]
  · rw [hpid]
    exact Nat.le_succ _
  · exact hpid.le

omit [DecidableEq τ] in
/-- The list of a core goes over its tasks, whichever is current there. -/
theorem CpuList.scheduled {created : List τ} (h : CpuList k core d created) (cpu : Core → Option (CpuTasks τ)) (next : τ) :
    CpuList { k with cpu := cpu } core { d with current := next } created :=
  ⟨h.linked, h.last, h.ring, h.count, h.bound, h.sp, h.idlePid, h.pids, h.increasing⟩

omit [DecidableEq τ] in
theorem listed_schedule {s : Run τ} (h : Listed s) (hcpu : s.kernel.cpu core = some d) (next : τ) :
    Listed { s with kernel := { s.kernel with cpu := Function.update s.kernel.cpu core (some { d with current := next }) } } := by
  constructor
  · exact h.nodup
  · intro c hc
    change Function.update s.kernel.cpu core _ c = none at hc
    rcases eq_or_ne c core with rfl | hne
    · rw [Function.update_self] at hc
      cases hc
    · rw [Function.update_of_ne hne] at hc
      exact h.before c hc
  · intro c e hc
    change Function.update s.kernel.cpu core _ c = some e at hc
    rcases eq_or_ne c core with rfl | hne
    · rw [Function.update_self] at hc
      cases hc
      obtain ⟨created, htasks, hlist⟩ := h.lists c d hcpu
      exact ⟨created, htasks, hlist.scheduled _ next⟩
    · rw [Function.update_of_ne hne] at hc
      obtain ⟨created, htasks, hlist⟩ := h.lists c e hc
      exact ⟨created, htasks, hlist.scheduled _ e.current⟩
  · exact h.pid
  · exact h.pidLe

/-- The checks `forkyi` makes before it takes memory. -/
def Refused (d : CpuTasks τ) (a : ForkArgs) : Prop :=
  (a.type = .cfsTask ∧ priDivShift a.pri = none) ∨ d.taskCreatedNum = maxTask

theorem forkyi_refused (h : Refused d a) : forkyi k core d pt lr a = (none, k) := by
  unfold forkyi
  rcases h with h | h
  · rw [if_pos h]
  · rw [if_pos h, ite_self]

theorem forkyi_admitted (h : ¬ Refused d a) : forkyi k core d pt lr a = (some pt, fork k core d pt lr a) := by
  rw [Refused, not_or] at h
  rw [forkyi, if_neg h.1, if_neg h.2]

theorem listed_step {s t : Run τ} (i : Step τ) (h : Listed s) (hstep : step s i = some t) : Listed t := by
  cases i with
  | initIdletask core pt =>
      obtain ⟨hguard, ht⟩ := Option.ite_none_left_eq_some.mp hstep
      rw [not_or, Option.not_isSome_iff_eq_none] at hguard
      cases ht
      exact listed_initIdletask h hguard.1 hguard.2
  | schedule core next =>
      obtain ⟨-, ht⟩ := Option.ite_none_right_eq_some.mp hstep
      obtain ⟨d, hcpu, rfl⟩ := Option.map_eq_some_iff.mp ht
      exact listed_schedule h hcpu next
  | forkyi core pt lr a =>
      obtain ⟨d, hcpu, ht⟩ := Option.bind_eq_some_iff.mp hstep
      by_cases hrefused : Refused d a
      · rw [forkyi_refused hrefused] at ht
        cases ht
        exact h
      · rw [forkyi_admitted hrefused] at ht
        obtain ⟨hfresh, ht⟩ := Option.ite_none_left_eq_some.mp ht
        cases ht
        exact listed_fork h hcpu (fun hnum => hrefused (.inr hnum)) hfresh

omit [DecidableEq τ] in
theorem listed_start (task : τ → Task τ) (node : τ → TaskNode τ) : Listed (start task node) := by
  constructor
  · exact List.nodup_nil
  · exact fun _ _ => rfl
  · intro core d hcpu
    cases hcpu
  · exact le_rfl
  · exact le_rfl

/-- The ring of a core with at least one created task. -/
structure TaskRing (k : Forks τ) (d : CpuTasks τ) (idle : τ) (created : List τ) : Prop where
  first : d.first = idle
  last : created.getLast? = some d.last
  nodup : (idle :: created).Nodup
  ring : LinkedRing.Linked k.next k.prev idle (created ++ [idle])
  inverse : ∀ t ∈ idle :: created, ∀ u ∈ idle :: created, k.next t = some u ↔ k.prev u = some t
  pids : ((idle :: created).map k.pidOf).Nodup
  printed : ∀ fuel, created.length < fuel →
    printTaskStat k d.first fuel = some ((idle :: created).map fun t => (t, k.stat t))

theorem CpuList.taskRing {created : List τ} (h : CpuList k core d created) (hnd : (d.first :: created).Nodup)
    (hne : created ≠ []) : TaskRing k d d.first created := by
  have hlast := h.last
  rw [List.getLastD_eq_getLast?, List.getLast?_eq_some_getLast hne, Option.getD_some] at hlast
  have hends := h.ring hne
  rw [h.last] at hends
  have hring : LinkedRing.Linked k.next k.prev d.first (created ++ [d.first]) := linked_snoc.mpr ⟨h.linked, hends⟩
  constructor
  · rfl
  · rw [hlast, List.getLast?_eq_some_getLast hne]
  · exact hnd
  · exact hring
  · exact fun t ht u hu => hring.next_iff_prev ht hu
  · rw [List.map_cons]
    apply List.nodup_cons.mpr
    constructor
    · rw [List.mem_map]
      rintro ⟨t, ht, hpid⟩
      have htwo := (h.pids t ht).1
      rw [hpid, h.idlePid] at htwo
      cases core <;> exact absurd htwo (by decide)
    · exact List.pairwise_map.mpr (h.increasing.imp fun hlt => hlt.ne)
  · intro fuel hfuel
    rw [printTaskStat, tour_eq hring (List.nodup_cons.mp hnd).1 hfuel, Option.map_some]

/-- In every state of every run of calls on the two cores. -/
theorem task_list (task : τ → Task τ) (node : τ → TaskNode τ) (is : List (Step τ)) :
    Always step (fun s =>
      (∀ core idle created, s.tasks core = idle :: created → created ≠ [] →
        ∃ d, s.kernel.cpu core = some d ∧ TaskRing s.kernel d idle created) ∧
      ∀ core d pt lr a, (forkyi s.kernel core d pt lr a).1 = none → (forkyi s.kernel core d pt lr a).2 = s.kernel)
      (start task node) is := by
  apply always_of_step Listed _ (fun s i t h hstep => listed_step i h hstep) (listed_start task node)
  intro s h
  constructor
  · intro core idle created htasks hne
    cases hcpu : s.kernel.cpu core with
    | none => cases (h.before core hcpu).symm.trans htasks
    | some d =>
        obtain ⟨created', htasks', hlist⟩ := h.lists core d hcpu
        cases htasks.symm.trans htasks'
        exact ⟨d, rfl, hlist.taskRing (htasks ▸ h.tasks_nodup core) hne⟩
  · intro core d pt lr a hnone
    by_cases hrefused : Refused d a
    · rw [forkyi_refused hrefused]
    · rw [forkyi_admitted hrefused] at hnone
      cases hnone

/-- Memory as `kmalloc` may return it. -/
def rawNode {τ : Type} : TaskNode τ where
  ct := loadContext (fun _ => 0) 0
  entry := 0
  name _ := 0
  timeinterval := 0
  next := none
  prev := none

def shellChars : List ℕ := "shell".toList.map Char.toNat

theorem shellChars_length : shellChars.length < 32 := by decide

theorem zero_notMem_shellChars : 0 ∉ shellChars := by decide

def shellArgs : ForkArgs where
  name := ⟨shellChars, shellChars_length, zero_notMem_shellChars⟩
  fn := 0x100100
  type := .cfsTask
  pri := 2

/-- The idle task of CPU 0, and two tasks that are forked there. -/
def bootCalls : List (Step ℕ) :=
  [.initIdletask .cpu0 0, .forkyi .cpu0 1 0 shellArgs, .forkyi .cpu0 2 0 { shellArgs with type := .rtTask, pri := 0 }]

theorem task_list_two_forks : ∃ s d, exec step (start (fun _ => rawTask) fun _ => rawNode) bootCalls = some s ∧
    s.tasks .cpu0 = [0, 1, 2] ∧ s.kernel.cpu .cpu0 = some d ∧ TaskRing s.kernel d 0 [1, 2] := by
  obtain ⟨s, hs⟩ : ∃ s, exec step (start (fun _ => rawTask) fun _ => rawNode) bootCalls = some s := ⟨_, rfl⟩
  have htasks : s.tasks .cpu0 = [0, 1, 2] := by
    cases hs
    rfl
  have hlist := always_iff_exec.mp (task_list (fun _ => rawTask) (fun _ => rawNode) bootCalls) bootCalls
    List.prefix_rfl s hs
  obtain ⟨d, hd, hring⟩ := hlist.1 .cpu0 0 [1, 2] htasks (List.cons_ne_nil _ _)
  exact ⟨s, d, hs, htasks, hd, hring⟩

/-- The state of one core as `Tasks` has it. -/
structure Agrees (k : Forks τ) (d : CpuTasks τ) (tasks : List τ) (s : Tasks τ) : Prop where
  task : s.kernel.task = k.task
  current : s.kernel.current = d.current
  tasks : s.tasks = tasks
  pid : s.pid = k.pid
  taskCreatedNum : s.taskCreatedNum = d.taskCreatedNum

theorem forkyi_agrees {tasks : List τ} {s : Tasks τ} (h : Agrees k d tasks s) :
    match Slos.forkyi s pt a.type a.pri with
    | none => forkyi k core d pt lr a = (none, k)
    | some s' => forkyi k core d pt lr a = (some pt, fork k core d pt lr a) ∧
        Agrees (fork k core d pt lr a) { d with last := pt, taskCreatedNum := u32 (d.taskCreatedNum + 1) } (tasks ++ [pt])
          s' := by
  rw [Slos.forkyi, h.taskCreatedNum]
  by_cases hrefused : Refused d a
  · rw [forkyi_refused hrefused]
    rcases hrefused with hpri | hnum
    · rw [if_pos hpri]
    · rw [if_pos hnum, ite_self]
  · rw [forkyi_admitted hrefused]
    rw [Refused, not_or] at hrefused
    rw [if_neg hrefused.1, if_neg hrefused.2]
    refine ⟨rfl, ?_⟩
    constructor
    · rw [h.task, h.current, h.pid]
      change Function.update s.kernel.task pt _ = _
      rw [h.task]
      rfl
    · exact h.current
    · rw [h.tasks]
    · exact congrArg (fun n => u32 (n + 1)) h.pid
    · rfl

end Slos.TaskList
