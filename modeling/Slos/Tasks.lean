import Slos.TimerIrq
import Slos.WaitQueueLinks

/-!
# Creating tasks and yielding

`forkyi` and `yieldyi` of `sched.c`, `init_idletask` and the functions of `task.c` that create tasks with
`forkyi`, and `mdelay` of `timer.c`. The memory `kmalloc` returns is the identity of the new task. A
creation that would go through the `NULL` of a failed `forkyi` has no result, and neither has a delay of
the idle task, whose `yield_task` is `NULL`.
-/

namespace Slos
open Word SearchTree Kernel

def maxTask : ℕ := (0x314FFC - 0x304FFC) / 0x1000

/-- The scheduler's data, the tasks from `first` to `last`, and the counters of `forkyi`. -/
structure Tasks (τ : Type) where
  kernel : Kernel τ
  tasks : List τ
  pid : ℕ
  taskCreatedNum : ℕ

variable {τ : Type} [DecidableEq τ] (b : Balancer τ) (bt : Balancer TimerId)

def forkyi (s : Tasks τ) (pt : τ) (type : TaskType) (pri : ℕ) : Option (Tasks τ) :=
  let shift := priDivShift pri
  if type = .cfsTask ∧ shift = none then none
  else if s.taskCreatedNum = maxTask then none
  else some
    { kernel := s.kernel.setTask pt
        (forkTask (s.kernel.task pt) s.pid type pri (shift.getD 0) s.kernel.current)
      tasks := s.tasks ++ [pt]
      pid := u32 (s.pid + 1)
      taskCreatedNum := u32 (s.taskCreatedNum + 1) }

/-- `enqueue_se_to_runq(&task->se)` and `this_runq->cfs_task_num++`. -/
def startCfs (k : Kernel τ) (task : τ) : Kernel τ :=
  let k := enqueueSeToRunq b k task
  { k with runq := { k.runq with cfsTaskNum := k.runq.cfsTaskNum + 1 } }

def createCfsTask (s : Tasks τ) (task : τ) (pri : ℕ) : Option (Tasks τ) :=
  (forkyi s task .cfsTask pri).map fun s => { s with kernel := startCfs b s.kernel task }

def createRtTask (s : Tasks τ) (task : τ) (msec : ℕ) : Option (Tasks τ) :=
  (forkyi s task .rtTask 0).map fun s =>
    let k := s.kernel.setState task .taskRunning
    { s with kernel := { k with timers := createRtTimer bt k.timers task msec } }

def createOneshotTask (s : Tasks τ) (task : τ) (msec : ℕ) : Option (Tasks τ) :=
  (forkyi s task .oneshotTask 0).map fun s =>
    let k := s.kernel.setState task .taskRunning
    let tc := msecToTc k.timers.ticksPerSec msec
    { s with kernel := { k with timers := createOneshotTimer bt k.timers task tc } }

def yieldyi (k : Kernel τ) : Kernel τ :=
  match (k.task k.current).yieldTask with
  | none => k
  | some yieldTask =>
      { k with current := if (k.task yieldTask).state = .taskRunning then yieldTask else k.idleTask }

def delay (k : Kernel τ) (ticks : ℕ) : Option (Kernel τ) :=
  let thisCurrent := k.current
  let k := dequeueSeToWq b k thisCurrent
  let k := { k with timers := createOneshotTimer bt k.timers thisCurrent ticks }
  (k.task thisCurrent).yieldTask.map fun yieldTask =>
    yieldyi (if (k.task yieldTask).state = .taskWaiting then
        k.setTask thisCurrent { k.task thisCurrent with yieldTask := some k.idleTask }
      else k)

/-- The ticks of a delay; the division by 1024 is the source's. -/
def delayTicks (ticksPerSec msecs : ℕ) : ℕ := u32 ((msecs * ticksPerSec % 2 ^ 64) >>> 10)

def mdelay (k : Kernel τ) (msecs : ℕ) : Option (Kernel τ) :=
  delay b bt k (delayTicks k.timers.ticksPerSec msecs)

/-- The tasks after `init_idletask`, `init_wq` and `init_rq`, in memory that holds anything. -/
def initTasks (k : Kernel τ) (pt : τ) (cpuid pid : ℕ) : Tasks τ :=
  let k := k.setTask pt (initIdletask (k.task pt) cpuid)
  { kernel := initRq b (WaitQueueLinks.initWq { k with idleTask := pt, current := pt })
    tasks := [pt]
    pid := pid
    taskCreatedNum := 1 }

omit [DecidableEq τ] in
@[simp] theorem yieldyi_task (k : Kernel τ) : (yieldyi k).task = k.task := by
  unfold yieldyi
  split <;> rfl

omit [DecidableEq τ] in
@[simp] theorem yieldyi_timers (k : Kernel τ) : (yieldyi k).timers = k.timers := by
  unfold yieldyi
  split <;> rfl

theorem dequeueSeToWq_timers (k : Kernel τ) (se : τ) : (dequeueSeToWq b k se).timers = k.timers :=
  (updateVruntimeRunq_seOnly _ se).timers.trans (addToWq_waitOnly (subPriority k se) se).timers

/-- A delay arms a oneshot timer for the current task. -/
theorem delay_timers {k k' : Kernel τ} {ticks : ℕ} (h : delay b bt k ticks = some k') :
    k'.timers = createOneshotTimer bt k.timers k.current ticks := by
  obtain ⟨y, -, rfl⟩ := Option.map_eq_some_iff.mp h
  rw [yieldyi_timers]
  split
  · rw [setTask_timers, dequeueSeToWq_timers]
  · rw [dequeueSeToWq_timers]

end Slos
