import Slos.RbTree
import Slos.WorkerWakeup

/-!
# The scheduler, one statement at a time

`waitq.c`, `runq.c`, `ktimer.c`, `timer.c`, `sched.c`, `sgi.c` and the parts of `task.c` that run on one CPU: `mdelay`,
`create_cfs_task`, the shell's `sleep` and `run`, `timer_irq` and `sgi_irq`. Each read and each assignment of the source is a
statement, between any two of which an interrupt may come. What `kmalloc` returns, the letter `pull_mail` returns and the
byte the shell reads are parameters, and the load register reads what was last written to it.
-/

namespace Slos.KernelCode
open Interruptible Straight Code RbTree Word
open WorkerWakeup (WorkFunc)
open Mailbox (LetterType)

inductive Lock
  | rqlock
  | wqlock
  deriving DecidableEq

/-- `cfs_rq` and `timer_root` keep a tree with its leftmost node. -/
structure CachedRoot (ν : Type) where
  root : RbRoot ν
  rbLeftmost : Option ν

/-- The per-CPU variables and what they point at; `taskNext` is the `next` of the list of all tasks. -/
structure Mem (τ : Type) where
  task : τ → Task τ
  taskNext : τ → Option τ
  runq : CachedRoot τ
  prioritySum : ℕ
  cfsTaskNum : ℕ
  wq : WaitQueue τ
  timer : TimerId → TimerStruct τ
  ptroot : CachedRoot TimerId
  oneshotTimerIdx : ℕ
  ticksPerSec : ℕ
  load : ℕ
  current : τ
  idleTask : τ
  first : τ
  last : τ
  jiffies : ℕ
  nullVruntime : ℕ
  pid : ℕ
  taskCreatedNum : ℕ
  qworker : Worker WorkFunc ℕ
  qworkerTask : Option τ

variable {τ α : Type} [DecidableEq τ]

abbrev Body (τ : Type) := Straight (Mem τ)

abbrev Prog (τ : Type) := Code (Mem τ) Lock τ

section Fields

/-- Statements in a program that also takes locks. -/
abbrev lines (c : Body τ α) : Prog τ α := liftM c

abbrev load (f : Mem τ → α) : Prog τ α := lines (fetch f)

abbrev save (f : Mem τ → Mem τ) : Prog τ Unit := lines (store f)

abbrev follow (p : Option α) : Prog τ α := lines (deref p)

def setTask (t : τ) (f : Task τ → Task τ) : Body τ Unit :=
  store fun m => { m with task := Function.update m.task t (f (m.task t)) }

def setSe (t : τ) (f : SchedEntity → SchedEntity) : Body τ Unit := setTask t fun p => { p with se := f p.se }

def setState (t : τ) (st : TaskState) : Body τ Unit := setTask t fun p => { p with state := st }

def setTimer (t : TimerId) (f : TimerStruct τ → TimerStruct τ) : Body τ Unit :=
  store fun m => { m with timer := Function.update m.timer t (f (m.timer t)) }

def task (t : τ) (f : Task τ → α) : Body τ α := fetch fun m => f (m.task t)

def timer (t : TimerId) (f : TimerStruct τ → α) : Body τ α := fetch fun m => f (m.timer t)

def vruntime (t : τ) : Body τ ℕ := task t fun p => p.se.jiffiesVruntime

def onTree {ν : Type} (c : Straight (RbRoot ν) α) : Straight (CachedRoot ν) α :=
  c.on (·.root) fun r m => { m with root := r }

def onRunq (c : Straight (CachedRoot τ) α) : Body τ α := c.on (·.runq) fun r m => { m with runq := r }

def onPtroot (c : Straight (CachedRoot TimerId) α) : Body τ α :=
  c.on (·.ptroot) fun r m => { m with ptroot := r }

end Fields

section CachedRoot

variable {ν : Type} [DecidableEq ν]

def leftmost : Straight (CachedRoot ν) (Option ν) := fetch (·.rbLeftmost)

def setLeftmost (node : Option ν) : Straight (CachedRoot ν) Unit := store fun m => { m with rbLeftmost := node }

/-- The end of `enqueue_se` and of `insert_timer`. -/
def linkLeaf (node : ν) (parent : Option ν) (link : Link ν) (isLeftmost : Bool) : Straight (CachedRoot ν) Unit := do
  if isLeftmost then setLeftmost (some node)
  onTree (rbLinkNode node parent link)
  onTree (rbInsertColor node)

/-- `dequeue_se` and `del_timer`. -/
def unlinkNode (node : ν) : Straight (CachedRoot ν) Unit := do
  if (← leftmost) = some node then
    let nextNode ← onTree (rbNext node)
    setLeftmost nextNode
  onTree (rbErase node)

end CachedRoot

section WaitQueue

/-- `pt->waitlist.prev->next = v`. -/
def setPrevNext (m : Mem τ) (pt : τ) (v : Option τ) : Mem τ :=
  match (m.task pt).waitPrev with
  | none => m
  | some .head => { m with wq := { m.wq with next := v } }
  | some (.task q) => { m with task := Function.update m.task q { m.task q with waitNext := v } }

/-- `pt->waitlist.next->prev = v`. -/
def setNextPrev (m : Mem τ) (pt : τ) (v : Option (ListHead τ)) : Mem τ :=
  match (m.task pt).waitNext with
  | none => m
  | some q => { m with task := Function.update m.task q { m.task q with waitPrev := v } }

/-- The new first task is given the old one only once the lock is held. -/
def addToWq (p : τ) : Prog τ Unit := do
  let temp ← load fun m => m.wq.next
  lock .wqlock
  save fun m => { m with wq := { m.wq with next := some p } }
  setTask p fun t => { t with waitPrev := some .head }
  setTask p fun t => { t with waitNext := temp }
  save fun m => { m with wq := { m.wq with count := m.wq.count + 1 } }
  unlock .wqlock

def unlinkWait (pt : τ) : Body τ Unit := do
  store fun m => setPrevNext m pt (m.task pt).waitNext
  if (← task pt (·.waitNext)) ≠ none then
    store fun m => setNextPrev m pt (m.task pt).waitPrev
  setTask pt fun t => { t with waitPrev := none }
  setTask pt fun t => { t with waitNext := none }
  store fun m => { m with wq := { m.wq with count := m.wq.count - 1 } }

/-- A round of the loop of `remove_from_wq` at the node `cur`. -/
def removeRound (p : τ) : Option τ → Body τ (Option τ ⊕ Unit)
  | none => return .inr ()
  | some cur => do
    if cur = p then
      unlinkWait cur
      return .inr ()
    return .inl (← task cur (·.waitNext))

def removeFromWq (p : τ) : Prog τ Unit := do
  lock .wqlock
  let cur ← load fun m => m.wq.next
  iterate (removeRound p) cur
  unlock .wqlock

end WaitQueue

section RunQueue

/-- A round of the descent of `enqueue_se`, which compares twice. -/
def enqueueRound (value : ℕ) : Option τ × Link τ × Bool → Body τ ((Option τ × Link τ × Bool) ⊕ (Option τ × Link τ × Bool))
  | (parent, link, isLeftmost) => do
    if (← onRunq (onTree (readLink link))) = none then return .inr (parent, link, isLeftmost)
    let parent ← deref (← onRunq (onTree (readLink link)))
    if value ≤ (← vruntime parent) then
      let n ← deref (← onRunq (onTree (readLink link)))
      return .inl (some parent, some (n, .left), isLeftmost)
    else if (← vruntime parent) < value then
      let n ← deref (← onRunq (onTree (readLink link)))
      return .inl (some parent, some (n, .right), false)
    else return .inl (some parent, link, isLeftmost)

def enqueueSe (se : τ) : Body τ Unit := do
  let value ← vruntime se
  let (parent, link, isLeftmost) ← iterate (enqueueRound value) (none, none, true)
  onRunq (linkLeaf se parent link isLeftmost)

def dequeueSe (se : τ) : Body τ Unit := onRunq (unlinkNode se)

/-- The two assignments of `update_vruntime_runq` to one entity. -/
def normal (seLeftmost se : τ) : Body τ Unit := do
  let vruntime ← vruntime seLeftmost
  setSe se fun e => { e with jiffiesConsumed := vruntime >>> e.priDivShift }
  setSe se fun e => { e with jiffiesVruntime := u32 (e.jiffiesConsumed * e.priority) }

def normalRound (seLeftmost cur : τ) : Body τ (τ ⊕ Unit) := do
  normal seLeftmost cur
  match ← onRunq (onTree (rbNext cur)) with
  | some next => return .inl next
  | none => return .inr ()

def updateVruntimeRunq (se : τ) : Body τ Unit := do
  if (← onRunq leftmost) = none then return ()
  let seLeftmost ← deref (← onRunq leftmost)
  normal seLeftmost se
  iterate (normalRound seLeftmost) seLeftmost

def enqueueSeToRunq (se : τ) : Prog τ Unit := do
  save fun m => { m with prioritySum := u32 (m.prioritySum + (m.task se).se.priority) }
  removeFromWq se
  setState se .taskRunning
  lock .rqlock
  updateVruntimeRunq se
  enqueueSe se
  unlock .rqlock

def dequeueSeToWq (se : τ) : Prog τ Unit := do
  save fun m => { m with prioritySum := usub m.prioritySum (m.task se).se.priority }
  addToWq se
  setState se .taskWaiting
  lock .rqlock
  updateVruntimeRunq se
  dequeueSe se
  unlock .rqlock

def updateSe : Body τ Unit := do
  let cur ← deref (← onRunq leftmost)
  let nextNode ← onRunq (onTree (rbNext (← deref (← onRunq leftmost))))
  let nextVruntime ← match nextNode with
    | some next => vruntime next
    | none => fetch (·.nullVruntime)
  if nextVruntime < (← vruntime cur) then
    dequeueSe cur
    enqueueSe cur

end RunQueue

section Sched

def schedule : Prog τ Unit := do
  let next ← follow (← load fun m => m.runq.rbLeftmost)
  let thisCurrent ← load (·.current)
  if thisCurrent = next then return ()
  switchTo thisCurrent next
  save fun m => { m with current := next }

def yieldyi : Prog τ Unit := do
  let thisCurrent ← load (·.current)
  let thisIdleTask ← load (·.idleTask)
  if (← task thisCurrent (·.yieldTask)) = none then return ()
  disableInterrupt
  let yieldTask ← follow (← task thisCurrent (·.yieldTask))
  if (← task yieldTask (·.state)) = .taskRunning then
    let yieldTask ← follow (← task thisCurrent (·.yieldTask))
    save fun m => { m with current := yieldTask }
  else
    save fun m => { m with current := thisIdleTask }
  let next ← load (·.current)
  yieldTo thisCurrent next

def updateCurrent (elapsed : ℕ) : Body τ Unit := do
  let thisCurrent ← fetch (·.current)
  if (← task thisCurrent (·.type)) = .cfsTask then
    store fun m => { m with jiffies := u32 (m.jiffies + 1) }
    setSe thisCurrent fun e => { e with jiffiesConsumed := u32 (e.jiffiesConsumed + 1) }
    setSe thisCurrent fun e => { e with ticksConsumed := (e.ticksConsumed + elapsed) % 2 ^ 64 }
    setSe thisCurrent fun e => { e with jiffiesVruntime := u32 (e.jiffiesConsumed * e.priority) }
  else if (← task thisCurrent (·.type)) = .rtTask then
    setSe thisCurrent fun e => { e with ticksConsumed := (e.ticksConsumed + elapsed) % 2 ^ 64 }

/-- `pt` is the memory `kmalloc` returns; the context starts in the code of the task itself. -/
def forkyi (pt : τ) (type : TaskType) (pri : ℕ) : Prog τ (Option τ) := do
  if type = .cfsTask ∧ priDivShift pri = none then return none
  let thisFirst ← load (·.first)
  let thisLast ← load (·.last)
  let thisCurrent ← load (·.current)
  if (← load (·.taskCreatedNum)) = maxTask then return none
  save fun m => { m with
    task := Function.update m.task pt { m.task pt with pid := m.pid }
    pid := u32 (m.pid + 1) }
  setTask pt fun t => { t with type := type }
  setTask pt fun t => { t with missedCnt := 0 }
  if type = .cfsTask then
    setSe pt fun e => { e with priDivShift := (priDivShift pri).getD 0 }
    setSe pt fun e => { e with priority := pri }
  setSe pt fun e => { e with ticksConsumed := 0 }
  setSe pt fun e => { e with jiffiesVruntime := 0 }
  setSe pt fun e => { e with jiffiesConsumed := 0 }
  setTask pt fun t => { t with yieldTask := some thisCurrent }
  setTask pt fun t => { t with preempted := 0 }
  setTask pt fun t => { t with done := 1 }
  save fun m => { m with taskCreatedNum := u32 (m.taskCreatedNum + 1) }
  spawnThread pt
  save fun m => { m with taskNext := Function.update m.taskNext thisLast (some pt) }
  save fun m => { m with taskNext := Function.update m.taskNext pt (some thisFirst) }
  save fun m => { m with last := pt }
  return some pt

end Sched

section Timers

/-- A round of the descent of `insert_timer`. -/
def insertRound (value : ℕ) : Option TimerId × Link TimerId × Bool →
    Body τ ((Option TimerId × Link TimerId × Bool) ⊕ (Option TimerId × Link TimerId × Bool))
  | (parent, link, isLeftmost) => do
    if (← onPtroot (onTree (readLink link))) = none then return .inr (parent, link, isLeftmost)
    let parent ← deref (← onPtroot (onTree (readLink link)))
    if value < (← timer parent (·.tc)) then
      let n ← deref (← onPtroot (onTree (readLink link)))
      return .inl (some parent, some (n, .left), isLeftmost)
    else
      let n ← deref (← onPtroot (onTree (readLink link)))
      return .inl (some parent, some (n, .right), false)

def insertTimer (pts : TimerId) : Body τ Unit := do
  let value ← timer pts (·.tc)
  let (parent, link, isLeftmost) ← iterate (insertRound value) (none, none, true)
  onPtroot (linkLeaf pts parent link isLeftmost)

def delTimer (pts : TimerId) : Body τ Unit := onPtroot (unlinkNode pts)

/-- `tc - elapsed`, but not below `MIN_TIME_INT`. -/
def elapse (pct : TimerId) (elapsed : ℕ) : Body τ Unit := do
  let temp ← timer pct fun p => usub p.tc elapsed
  if temp < (← fetch fun m => m.ticksPerSec >>> 10) then
    store fun m => { m with
      timer := Function.update m.timer pct { m.timer pct with tc := m.ticksPerSec >>> 10 } }
  else setTimer pct fun p => { p with tc := temp }

/-- A round of the loop of `update_timer_tree`. -/
def updateRound (elapsed : ℕ) : Option TimerId → Body τ (Option TimerId ⊕ Unit)
  | none => return .inr ()
  | some pct => do
    if (← onPtroot leftmost) = some pct then
      let pt ← timer pct (·.pt)
      if (← task pt (·.done)) ≠ 0 then setTimer pct fun p => { p with tc := p.intvl }
      else elapse pct elapsed
    else elapse pct elapsed
    return .inl (← onPtroot (onTree (rbNext pct)))

def updateTimerTree (elapsed : ℕ) : Body τ Unit := do
  iterate (updateRound elapsed) (← onPtroot leftmost)
  let pct ← deref (← onPtroot leftmost)
  delTimer pct
  insertTimer pct

def createOneshotTimer (oneshotTask : τ) (tc : ℕ) : Body τ Unit := do
  let setSlot (f : TimerStruct τ → TimerStruct τ) : Body τ Unit := store fun m =>
    { m with timer := Function.update m.timer (.oneshot m.oneshotTimerIdx) (f (m.timer (.oneshot m.oneshotTimerIdx))) }
  setSlot fun p => { p with pt := oneshotTask }
  setSlot fun p => { p with type := .oneshotTimer }
  setSlot fun p => { p with tc := tc }
  setSlot fun p => { p with intvl := tc }
  insertTimer (.oneshot (← fetch (·.oneshotTimerIdx)))
  store fun m => { m with oneshotTimerIdx := m.oneshotTimerIdx + 1 }
  if (← fetch (·.oneshotTimerIdx)) = maxOneshotTimerNum then
    store fun m => { m with oneshotTimerIdx := 0 }

end Timers

section TimerIrq

def cfsScheduler : Prog τ Unit := do
  lines updateSe
  schedule

def schedExpired (thisCurrent : τ) (pct : TimerId) : Prog τ Unit := do
  if (← task thisCurrent (·.type)) = .rtTask then return ()
  cfsScheduler
  setTimer pct fun p => { p with pt := thisCurrent }

/-- The switch to the task of a realtime or oneshot timer. -/
def switchToTimer (thisCurrent : τ) (pct : TimerId) : Prog τ Unit := do
  if thisCurrent ≠ (← load fun m => (m.timer pct).pt) then
    if (← task thisCurrent (·.type)) = .rtTask then
      setTask thisCurrent fun p => { p with preempted := 1 }
    switchTo thisCurrent (← load fun m => (m.timer pct).pt)
    save fun m => { m with
      task := Function.update m.task (m.timer pct).pt { m.task (m.timer pct).pt with yieldTask := some thisCurrent } }
    save fun m => { m with current := (m.timer pct).pt }

def oneshotExpired (pct : TimerId) : Prog τ Unit := do
  if (← load fun m => (m.task (m.timer pct).pt).state) = .taskWaiting then
    enqueueSeToRunq (← load fun m => (m.timer pct).pt)
  lines (delTimer pct)

def realtimeExpired (thisCurrent : τ) : Body τ Unit := do
  if (← task thisCurrent (·.done)) = 0 ∧ (← task thisCurrent (·.preempted)) = 0 then
    setTask thisCurrent fun p => { p with missedCnt := u32 (p.missedCnt + 1) }

/-- The tree update, the new load register and the account of the current task. -/
def reprogram (elapsed : ℕ) : Body τ Unit := do
  updateTimerTree elapsed
  let pnt ← deref (← onPtroot leftmost)
  let tc ← timer pnt (·.tc)
  store fun m => { m with load := tc }
  updateCurrent elapsed

def expired (thisCurrent : τ) (pct : TimerId) : Prog τ Unit := do
  if (← load fun m => (m.timer pct).type) = .schedTimer then schedExpired thisCurrent pct
  else
    switchToTimer thisCurrent pct
    if (← load fun m => (m.timer pct).type) = .oneshotTimer then oneshotExpired pct
    else realtimeExpired thisCurrent

def timerIrq : Prog τ Unit := do
  let thisCurrent ← load (·.current)
  let elapsed ← load (·.load)
  let pct ← follow (← load fun m => m.ptroot.rbLeftmost)
  lines (reprogram elapsed)
  expired thisCurrent pct

end TimerIrq

section Sgi

def enqueueWorkq (func : WorkFunc) (arg : ℕ) : Body τ Unit := do
  let setEntry (f : Workq WorkFunc ℕ → Workq WorkFunc ℕ) : Body τ Unit := store fun m =>
    { m with qworker := { m.qworker with
        wkq := Function.update m.qworker.wkq m.qworker.enqIdx (f (m.qworker.wkq m.qworker.enqIdx)) } }
  setEntry fun e => { e with func := func }
  setEntry fun e => { e with arg := arg }
  if (← fetch fun m => m.qworker.enqIdx) = maxWorkq - 1 then
    store fun m => { m with qworker := { m.qworker with enqIdx := 0 } }
  else
    store fun m => { m with qworker := { m.qworker with enqIdx := m.qworker.enqIdx + 1 } }

def wakeupWorkqWorker : Prog τ Unit := do
  enqueueSeToRunq (← follow (← load (·.qworkerTask)))

/-- `letter` is what `pull_mail` returns. -/
def sgiIrq (letter : LetterType) (arg : ℕ) : Prog τ Unit :=
  match letter with
  | .empty => pure ()
  | .taskStat => do
    lines (enqueueWorkq .printTaskStat 0)
    wakeupWorkqWorker
  | .taskOdev => do
    lines (enqueueWorkq .createOdevTask arg)
    wakeupWorkqWorker

end Sgi

section Calls

def delay (ticks : ℕ) : Prog τ Unit := do
  let thisCurrent ← load (·.current)
  let thisIdleTask ← load (·.idleTask)
  dequeueSeToWq thisCurrent
  createOneshotTimer thisCurrent ticks
  if (← task (← follow (← task thisCurrent (·.yieldTask))) (·.state)) = .taskWaiting then
    setTask thisCurrent fun p => { p with yieldTask := some thisIdleTask }
  yieldyi

def mdelay (msecs : ℕ) : Prog τ Unit := do
  delay (← load fun m => delayTicks m.ticksPerSec msecs)

def createCfsTask (pt : τ) (pri : ℕ) : Prog τ Unit := do
  let task ← follow (← forkyi pt .cfsTask pri)
  onRunq (onTree (rbInitNode task))
  enqueueSeToRunq task
  save fun m => { m with cfsTaskNum := m.cfsTaskNum + 1 }

/-- A round of the shell's search for the task with `pid`. -/
def searchRound (pid : ℕ) : ℕ × Option τ × Option τ → Body τ ((ℕ × Option τ × Option τ) ⊕ (ℕ × Option τ))
  | (j, nextLh, pwaitTask) => do
    if ¬ j < (← fetch (·.cfsTaskNum)) then return .inr (j, pwaitTask)
    let pwaitTask ← deref nextLh
    if (← task pwaitTask (·.pid)) = pid then return .inr (j, some pwaitTask)
    return .inl (j + 1, ← fetch fun m => m.taskNext pwaitTask, some pwaitTask)

/-- The task the shell finds and the state it reads of it. -/
def search (byte : ℕ) : Body τ (Option (τ × TaskState)) := do
  let pid := usub byte 0x30
  let (j, pwaitTask) ← iterate (searchRound pid) (0, some (← fetch (·.first)), none)
  if j < (← fetch (·.cfsTaskNum)) then
    let pwaitTask ← deref pwaitTask
    return some (pwaitTask, ← task pwaitTask (·.state))
  return none

def shellSleep (byte : ℕ) : Prog τ Unit := do
  match ← lines (search byte) with
  | some (pwaitTask, .taskRunning) => dequeueSeToWq pwaitTask
  | _ => pure ()

def shellRun (byte : ℕ) : Prog τ Unit := do
  match ← lines (search byte) with
  | some (pwaitTask, .taskWaiting) => enqueueSeToRunq pwaitTask
  | _ => pure ()

end Calls

inductive Source
  | timer
  | sgi (letter : LetterType) (arg : ℕ)

inductive Call (τ : Type)
  | mdelay (msecs : ℕ)
  | createCfsTask (pt : τ) (pri : ℕ)
  | sleep (byte : ℕ)
  | run (byte : ℕ)

def handler : Source → Prog τ Unit
  | .timer => timerIrq
  | .sgi letter arg => sgiIrq letter arg

def call : Call τ → Prog τ Unit
  | .mdelay msecs => mdelay msecs
  | .createCfsTask pt pri => createCfsTask pt pri
  | .sleep byte => shellSleep byte
  | .run byte => shellRun byte

/-- One CPU, on which tasks make the calls and the interrupts come. -/
def step (s : Cpu (Mem τ) Lock τ) (e : Event Source (Call τ)) : Option (Cpu (Mem τ) Lock τ) := s.step handler call e

end Slos.KernelCode
