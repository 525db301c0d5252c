import Slos.Tasks

/-!
# Task creation and the refusals of `forkyi`

The four functions of `task.c` that create tasks, with the `NULL` that `forkyi` returns: they do not look at it. `none` is the
task at address 0, which is memory like any other, so they go on there, put that task into the run queue or arm a timer for it.
`Damage` is what an insertion makes of a tree that has the node already: anything, if it comes back at all.
-/

namespace Slos.CreateTask
open Word SearchTree

variable {τ : Type}

/-- `upt` is the table of the user tasks. -/
structure Memory (τ : Type) where
  tasks : Tasks (Option τ)
  arg : Option τ → ℕ
  timeinterval : Option τ → ℕ
  upt : ℕ → Option τ

structure Damage (τ : Type) where
  runq : Kernel (Option τ) → Option (Kernel (Option τ))
  timers : Timers (Option τ) → Option (Timers (Option τ))

inductive Call
  | createCfsTask (pri arg : ℕ)
  | createUsrCfsTask (pri appIdx : ℕ)
  | createRtTask (msec : ℕ)
  | createOneshotTask (msec : ℕ)

def Memory.setKernel (m : Memory τ) (k : Kernel (Option τ)) : Memory τ :=
  { m with tasks := { m.tasks with kernel := k } }

variable [DecidableEq τ] (b : Balancer (Option τ)) (bt : Balancer TimerId) (damage : Damage τ)

/-- The pointer that `forkyi` returns, `pt` being the memory it would take. -/
def forkyi (s : Tasks (Option τ)) (pt : τ) (type : TaskType) (pri : ℕ) : Option τ × Tasks (Option τ) :=
  match Slos.forkyi s (some pt) type pri with
  | none => (none, s)
  | some s' => (some pt, s')

/-- `rb_init_node`, `enqueue_se_to_runq` and `cfs_task_num++`. -/
def startTask (k : Kernel (Option τ)) (task : Option τ) : Option (Kernel (Option τ)) :=
  if task ∈ k.queue then
    (damage.runq k).map fun k' => { k' with runq := { k'.runq with cfsTaskNum := k.runq.cfsTaskNum + 1 } }
  else some (startCfs b k task)

/-- The oneshot timer at the next slot, which may still be in the tree. -/
def armOneshot (s : Timers (Option τ)) (task : Option τ) (tc : ℕ) : Option (Timers (Option τ)) :=
  let s' := createOneshotTimer bt s task tc
  if .oneshot s.oneshotTimerIdx ∈ s.queue then
    (damage.timers s).map fun d => { d with oneshotTimerIdx := s'.oneshotTimerIdx }
  else some s'

def createCfsTask (m : Memory τ) (pt : τ) (pri arg : ℕ) : Option (Option τ × Memory τ) :=
  let (task, tasks) := forkyi m.tasks pt .cfsTask pri
  let m := { m with tasks := tasks, arg := Function.update m.arg task arg }
  (startTask b damage m.tasks.kernel task).map fun k => (task, m.setKernel k)

def createUsrCfsTask (m : Memory τ) (pt : τ) (pri appIdx : ℕ) : Option (Option τ × Memory τ) :=
  let (task, tasks) := forkyi m.tasks pt .cfsTask pri
  let m := { m with tasks := tasks, upt := Function.update m.upt appIdx task }
  (startTask b damage m.tasks.kernel task).map fun k => (task, m.setKernel k)

def createRtTask (m : Memory τ) (pt : τ) (msec : ℕ) : Option (Option τ × Memory τ) :=
  let (task, tasks) := forkyi m.tasks pt .rtTask 0
  let m := { m with tasks := tasks, timeinterval := Function.update m.timeinterval task msec }
  let k := m.tasks.kernel.setState task .taskRunning
  some (task, m.setKernel { k with timers := createRtTimer bt k.timers task msec })

def createOneshotTask (m : Memory τ) (pt : τ) (msec : ℕ) : Option (Option τ × Memory τ) :=
  let (task, tasks) := forkyi m.tasks pt .oneshotTask 0
  let m := { m with tasks := tasks, timeinterval := Function.update m.timeinterval task msec }
  let k := m.tasks.kernel.setState task .taskRunning
  (armOneshot bt damage k.timers task (msecToTc k.timers.ticksPerSec msec)).map fun timers =>
    (task, m.setKernel { k with timers := timers })

/-- The pointer that is returned and the memory, if the call returns. -/
def create (m : Memory τ) (pt : τ) : Call → Option (Option τ × Memory τ)
  | .createCfsTask pri arg => createCfsTask b damage m pt pri arg
  | .createUsrCfsTask pri appIdx => createUsrCfsTask b damage m pt pri appIdx
  | .createRtTask msec => createRtTask bt m pt msec
  | .createOneshotTask msec => createOneshotTask bt damage m pt msec

/-- The type and the priority a call gives to `forkyi`. -/
def Call.type : Call → TaskType
  | .createCfsTask .. => .cfsTask
  | .createUsrCfsTask .. => .cfsTask
  | .createRtTask _ => .rtTask
  | .createOneshotTask _ => .oneshotTask

def Call.pri : Call → ℕ
  | .createCfsTask pri _ => pri
  | .createUsrCfsTask pri _ => pri
  | .createRtTask _ => 0
  | .createOneshotTask _ => 0

/-- The checks of `forkyi`. -/
def Refused (s : Tasks (Option τ)) (type : TaskType) (pri : ℕ) : Prop :=
  type = .cfsTask ∧ priDivShift pri = none ∨ s.taskCreatedNum = maxTask

variable {b bt damage} {m : Memory τ} {pt : τ}

theorem forkyi_eq_none_iff {s : Tasks (Option τ)} {type : TaskType} {pri : ℕ} :
    Slos.forkyi s (some pt) type pri = none ↔ Refused s type pri := by
  unfold Slos.forkyi Refused
  by_cases hpri : type = .cfsTask ∧ priDivShift pri = none
  · rw [if_pos hpri]
    exact iff_of_true rfl (.inl hpri)
  · rw [if_neg hpri]
    by_cases hnum : s.taskCreatedNum = maxTask
    · rw [if_pos hnum]
      exact iff_of_true rfl (.inr hnum)
    · rw [if_neg hnum]
      constructor
      · intro h
        cases h
      · rintro (h | h)
        · exact absurd h hpri
        · exact absurd h hnum

theorem forkyi_refused {s : Tasks (Option τ)} {type : TaskType} {pri : ℕ} (h : Refused s type pri) :
    forkyi s pt type pri = (none, s) := by
  rw [forkyi, forkyi_eq_none_iff.mpr h]

/-- Where `forkyi` finds memory, the tasks are those of `createCfsTask` without the `NULL`. -/
theorem createCfsTask_tasks {pri arg : ℕ} {s' : Tasks (Option τ)} (h : Slos.createCfsTask b m.tasks (some pt) pri = some s')
    (hnew : ∀ s, Slos.forkyi m.tasks (some pt) .cfsTask pri = some s → some pt ∉ s.kernel.queue) :
    (createCfsTask b damage m pt pri arg).map (fun r => (r.1, r.2.tasks)) = some (some pt, s') := by
  obtain ⟨s, hs, rfl⟩ := Option.map_eq_some_iff.mp h
  have hfork : forkyi m.tasks pt .cfsTask pri = (some pt, s) := by rw [forkyi, hs]
  have hstart : startTask b damage s.kernel (some pt) = some (startCfs b s.kernel (some pt)) := if_neg (hnew s hs)
  rw [createCfsTask, hfork]
  change ((startTask b damage s.kernel (some pt)).map _).map _ = _
  rw [hstart]
  rfl

/-- What a refused call leaves: a task more is counted and address 0 is in the run queue, or a timer is armed for it. -/
def Changed (k k' : Kernel (Option τ)) : Call → Prop
  | .createRtTask _ => k'.timers.rtCreated = k.timers.rtCreated + 1 ∧
      (k.timers.queue.Nodup → .rt k.timers.rtCreated ∉ k.timers.queue → .rt k.timers.rtCreated ∈ k'.timers.queue)
  | .createOneshotTask _ => k'.timers.oneshotTimerIdx ≠ k.timers.oneshotTimerIdx ∧
      (k.timers.queue.Nodup → .oneshot k.timers.oneshotTimerIdx ∉ k.timers.queue →
        .oneshot k.timers.oneshotTimerIdx ∈ k'.timers.queue)
  | _ => k'.runq.cfsTaskNum = k.runq.cfsTaskNum + 1 ∧
      (k.queue.Nodup → k.runq.rbLeftmost = k.queue.head? → none ∉ k.queue → none ∈ k'.queue)

omit [DecidableEq τ] in
theorem Changed.ne {k k' : Kernel (Option τ)} {c : Call} (h : Changed k k' c) : k' ≠ k := by
  rintro rfl
  cases c with
  | createCfsTask => exact absurd h.1.symm (Nat.succ_ne_self _)
  | createUsrCfsTask => exact absurd h.1.symm (Nat.succ_ne_self _)
  | createRtTask => exact absurd h.1.symm (Nat.succ_ne_self _)
  | createOneshotTask => exact h.1 rfl

theorem enqueueSeToRunq_cfsTaskNum (k : Kernel (Option τ)) (se : Option τ) :
    (enqueueSeToRunq b k se).runq.cfsTaskNum = k.runq.cfsTaskNum := by
  change (updateVruntimeRunq (wakeState k se) se).runq.cfsTaskNum = _
  rw [(updateVruntimeRunq_seOnly (wakeState k se) se).runq]
  change (removeFromWq (addPriority k se) se).runq.cfsTaskNum = _
  rw [(removeFromWq_waitOnly (addPriority k se) se).runq]
  rfl

theorem startTask_null {k k' : Kernel (Option τ)} (h : startTask b damage k none = some k') :
    k'.runq.cfsTaskNum = k.runq.cfsTaskNum + 1 ∧
      (k.queue.Nodup → k.runq.rbLeftmost = k.queue.head? → none ∉ k.queue → none ∈ k'.queue) := by
  unfold startTask at h
  by_cases hlinked : none ∈ k.queue
  · rw [if_pos hlinked] at h
    obtain ⟨k'', -, rfl⟩ := Option.map_eq_some_iff.mp h
    exact ⟨rfl, fun _ _ hnot => absurd hlinked hnot⟩
  · rw [if_neg hlinked] at h
    cases h
    constructor
    · change (enqueueSeToRunq b k none).runq.cfsTaskNum + 1 = _
      rw [enqueueSeToRunq_cfsTaskNum]
    · intro hnd hcached hnot
      exact (enqueueSeToRunq_queue b hnd hcached hnot).1.mem_iff.mpr List.mem_cons_self

omit [DecidableEq τ] in
theorem createRtTimer_armed (s : Timers (Option τ)) (task : Option τ) (msec : ℕ) :
    (createRtTimer bt s task msec).rtCreated = s.rtCreated + 1 ∧
      (s.queue.Nodup → .rt s.rtCreated ∉ s.queue → .rt s.rtCreated ∈ (createRtTimer bt s task msec).queue) := by
  constructor
  · rfl
  · intro hnd hnot
    exact (Balancer.perm_insert hnd hnot).mem_iff.mpr List.mem_cons_self

omit [DecidableEq τ] in
theorem armOneshot_armed {s s' : Timers (Option τ)} {task : Option τ} {tc : ℕ}
    (h : armOneshot bt damage s task tc = some s') : s'.oneshotTimerIdx ≠ s.oneshotTimerIdx ∧
      (s.queue.Nodup → .oneshot s.oneshotTimerIdx ∉ s.queue → .oneshot s.oneshotTimerIdx ∈ s'.queue) := by
  have hidx : (createOneshotTimer bt s task tc).oneshotTimerIdx ≠ s.oneshotTimerIdx := by
    change (if s.oneshotTimerIdx + 1 = maxOneshotTimerNum then 0 else s.oneshotTimerIdx + 1) ≠ _
    unfold maxOneshotTimerNum
    split <;> omega
  unfold armOneshot at h
  by_cases hlinked : .oneshot s.oneshotTimerIdx ∈ s.queue
  · rw [if_pos hlinked] at h
    obtain ⟨d, -, rfl⟩ := Option.map_eq_some_iff.mp h
    exact ⟨hidx, fun _ hnot => absurd hlinked hnot⟩
  · rw [if_neg hlinked] at h
    cases h
    refine ⟨hidx, fun hnd hnot => ?_⟩
    exact (Balancer.perm_insert hnd hnot).mem_iff.mpr List.mem_cons_self

/-- A call for which `forkyi` refuses never leaves the kernel as it was. -/
theorem refused_call_changes {c : Call} (h : Refused m.tasks c.type c.pri) :
    create b bt damage m pt c ≠ some (none, m) ∧ ∀ r m', create b bt damage m pt c = some (r, m') →
      r = none ∧ Changed m.tasks.kernel m'.tasks.kernel c := by
  have hchanged : ∀ r m', create b bt damage m pt c = some (r, m') →
      r = none ∧ Changed m.tasks.kernel m'.tasks.kernel c := by
    intro r m' hcreate
    cases c with
    | createCfsTask pri arg =>
        have hfork : forkyi m.tasks pt .cfsTask pri = (none, m.tasks) := forkyi_refused h
        rw [create, createCfsTask, hfork] at hcreate
        obtain ⟨k, hk, hm⟩ := Option.map_eq_some_iff.mp hcreate
        cases hm
        exact ⟨rfl, startTask_null hk⟩
    | createUsrCfsTask pri appIdx =>
        have hfork : forkyi m.tasks pt .cfsTask pri = (none, m.tasks) := forkyi_refused h
        rw [create, createUsrCfsTask, hfork] at hcreate
        obtain ⟨k, hk, hm⟩ := Option.map_eq_some_iff.mp hcreate
        cases hm
        exact ⟨rfl, startTask_null hk⟩
    | createRtTask msec =>
        have hfork : forkyi m.tasks pt .rtTask 0 = (none, m.tasks) := forkyi_refused h
        rw [create, createRtTask, hfork] at hcreate
        cases hcreate
        exact ⟨rfl, createRtTimer_armed m.tasks.kernel.timers none msec⟩
    | createOneshotTask msec =>
        have hfork : forkyi m.tasks pt .oneshotTask 0 = (none, m.tasks) := forkyi_refused h
        rw [create, createOneshotTask, hfork] at hcreate
        obtain ⟨timers, htimers, hm⟩ := Option.map_eq_some_iff.mp hcreate
        cases hm
        exact ⟨rfl, armOneshot_armed htimers⟩
  refine ⟨fun hcreate => ?_, hchanged⟩
  exact (hchanged none m hcreate).2.ne rfl

/-- CPU 0 after `init_idletask`, `init_wq` and `init_rq`, the idle task being 0. -/
def bootMemory : Memory ℕ where
  tasks := initTasks (Balancer.plain (Option ℕ))
    { task := fun _ => rawTask
      runq := { root := .nil, rbLeftmost := none, prioritySum := 0, cfsTaskNum := 0 }
      wq := { next := none, count := 0 }
      timers :=
        { root := .nil, rbLeftmost := none
          timer := fun _ => { tc := 0, intvl := 0, pt := none, type := .oneshotTimer }
          oneshotTimerIdx := 0, rtCreated := 0, ticksPerSec := 333333343, load := 0 }
      current := some 0
      idleTask := some 0
      jiffies := 0
      nullVruntime := 0 } (some 0) 0 2
  arg := fun _ => 0
  timeinterval := fun _ => 0
  upt := fun _ => none

def noDamage : Damage ℕ where
  runq _ := none
  timers _ := none

/-- Priority 3 is refused. -/
theorem refused_call_changes_pri3 :
    create (Balancer.plain _) (Balancer.plain _) noDamage bootMemory 1 (.createCfsTask 3 0) ≠ some (none, bootMemory) :=
  (refused_call_changes (.inl ⟨rfl, by decide⟩)).1

/-- A call with priority 3 returns `NULL`, with one task more and the task at address 0 in the run queue. -/
theorem refused_pri3_enqueued : (create (Balancer.plain _) (Balancer.plain _) noDamage bootMemory 1 (.createCfsTask 3 0)).map
    (fun r => (r.1, r.2.tasks.kernel.queue, r.2.tasks.kernel.runq.cfsTaskNum, r.2.tasks.tasks)) =
      some (none, [none, some 0], 2, [some 0]) ∧
    bootMemory.tasks.kernel.queue = [some 0] ∧ bootMemory.tasks.kernel.runq.cfsTaskNum = 1 := by
  decide +kernel

end Slos.CreateTask
