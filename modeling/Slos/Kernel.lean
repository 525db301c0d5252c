import Slos.SearchTree
import Slos.Word
import Mathlib.Logic.Function.Basic

/-!
# Per-CPU kernel data

The fields of `struct task_struct`, the run queue, the wait queue and the timers that the scheduler
reads and writes, for one CPU. Tasks are identities of a type `τ`; an entity, its run-queue node
and its wait-list node are embedded in a task, so one identity stands for all of them, and
`container_of` is the identity. The node links of a tree are the tree itself.
-/

namespace Slos
open SearchTree

inductive TaskState
  | taskRunning
  | taskWaiting
  | taskStopRunning
  | taskStop
  deriving DecidableEq

inductive TaskType
  | cfsTask
  | rtTask
  | oneshotTask
  deriving DecidableEq

structure SchedEntity where
  jiffiesVruntime : ℕ
  ticksConsumed : ℕ
  jiffiesConsumed : ℕ
  priority : ℕ
  priDivShift : ℕ
  deriving DecidableEq

/-- What a list pointer of the wait queue points at: the queue's own head or a task's node. -/
inductive ListHead (τ : Type)
  | head
  | task (t : τ)
  deriving DecidableEq

structure Task (τ : Type) where
  se : SchedEntity
  pid : ℕ
  yieldTask : Option τ
  waitPrev : Option (ListHead τ)
  waitNext : Option τ
  type : TaskType
  missedCnt : ℕ
  state : TaskState
  done : ℕ
  preempted : ℕ
  deriving DecidableEq

structure CfsRq (τ : Type) where
  root : BinTree τ
  rbLeftmost : Option τ
  prioritySum : ℕ
  cfsTaskNum : ℕ
  deriving DecidableEq

structure WaitQueue (τ : Type) where
  next : Option τ
  count : ℤ
  deriving DecidableEq

/-- The preallocated sched timer, a slot of the oneshot ring and the timers of RT tasks. -/
inductive TimerId
  | sched
  | oneshot (idx : ℕ)
  | rt (idx : ℕ)
  deriving DecidableEq

inductive TimerType
  | oneshotTimer
  | schedTimer
  | realtimeTimer
  deriving DecidableEq

structure TimerStruct (τ : Type) where
  tc : ℕ
  intvl : ℕ
  pt : τ
  type : TimerType
  deriving DecidableEq

/-- The timer tree, the timers, the next oneshot slot, the number of RT timers created so far and
the load register of the private timer. -/
structure Timers (τ : Type) where
  root : BinTree TimerId
  rbLeftmost : Option TimerId
  timer : TimerId → TimerStruct τ
  oneshotTimerIdx : ℕ
  rtCreated : ℕ
  ticksPerSec : ℕ
  load : ℕ

/-- `nullVruntime` is the word read as the vruntime of `container_of(NULL, ...)`. -/
structure Kernel (τ : Type) where
  task : τ → Task τ
  runq : CfsRq τ
  wq : WaitQueue τ
  timers : Timers τ
  current : τ
  idleTask : τ
  jiffies : ℕ
  nullVruntime : ℕ

/-- The task `init_idletask` sets up; `done` is not assigned. -/
def initIdletask {τ : Type} (pt : Task τ) (cpuid : ℕ) : Task τ :=
  { pt with
    pid := cpuid
    yieldTask := none
    se := { ticksConsumed := 0, jiffiesVruntime := 0, jiffiesConsumed := 0, priority := 16,
            priDivShift := 4 }
    type := .cfsTask
    missedCnt := 0
    preempted := 0
    state := .taskRunning }

/-- The `pri_div_shift` that `forkyi` finds for a CFS priority, one of 1, 2, 4, 8 and 16. -/
def priDivShift (pri : ℕ) : Option ℕ := (List.range 5).find? fun i => pri == 0x1 <<< i

/-- The assignments of `forkyi` to the fresh task; `state` is not assigned. -/
def forkTask {τ : Type} (pt : Task τ) (pid : ℕ) (type : TaskType) (pri shift : ℕ) (current : τ) :
    Task τ :=
  let se := if type = .cfsTask then { pt.se with priDivShift := shift, priority := pri } else pt.se
  { pt with
    pid := pid
    type := type
    missedCnt := 0
    se := { se with ticksConsumed := 0, jiffiesVruntime := 0, jiffiesConsumed := 0 }
    yieldTask := some current
    preempted := 0
    done := 1 }

/-- Memory as `kmalloc` may return it. -/
def rawTask {τ : Type} : Task τ where
  se := { jiffiesVruntime := 0, ticksConsumed := 0, jiffiesConsumed := 0, priority := 0,
          priDivShift := 0 }
  pid := 0
  yieldTask := none
  waitPrev := none
  waitNext := none
  type := .cfsTask
  missedCnt := 0
  state := .taskRunning
  done := 0
  preempted := 0

namespace Kernel

variable {τ : Type} [DecidableEq τ]

def setTask (k : Kernel τ) (t : τ) (p : Task τ) : Kernel τ :=
  { k with task := Function.update k.task t p }

def se (k : Kernel τ) (t : τ) : SchedEntity := (k.task t).se

def setSe (k : Kernel τ) (t : τ) (e : SchedEntity) : Kernel τ :=
  k.setTask t { k.task t with se := e }

def setState (k : Kernel τ) (t : τ) (st : TaskState) : Kernel τ :=
  k.setTask t { k.task t with state := st }

def vruntime (k : Kernel τ) (t : τ) : ℕ := (k.se t).jiffiesVruntime

/-- The run queue in order. -/
def queue (k : Kernel τ) : List τ := k.runq.root.inorder

@[simp] theorem setTask_runq (k : Kernel τ) (t : τ) (p : Task τ) : (k.setTask t p).runq = k.runq :=
  rfl

@[simp] theorem setTask_timers (k : Kernel τ) (t : τ) (p : Task τ) :
    (k.setTask t p).timers = k.timers := rfl

@[simp] theorem setTask_self (k : Kernel τ) (t : τ) (p : Task τ) : (k.setTask t p).task t = p :=
  Function.update_self ..

theorem setTask_of_ne (k : Kernel τ) {t u : τ} (p : Task τ) (h : u ≠ t) :
    (k.setTask t p).task u = k.task u := Function.update_of_ne h ..

@[simp] theorem setSe_runq (k : Kernel τ) (t : τ) (e : SchedEntity) : (k.setSe t e).runq = k.runq :=
  rfl

@[simp] theorem setSe_self (k : Kernel τ) (t : τ) (e : SchedEntity) : (k.setSe t e).se t = e := by
  rw [se, setSe, setTask_self]

theorem setSe_of_ne (k : Kernel τ) {t u : τ} (e : SchedEntity) (h : u ≠ t) :
    (k.setSe t e).se u = k.se u := by
  rw [se, setSe, setTask_of_ne k _ h, se]

end Kernel

end Slos
