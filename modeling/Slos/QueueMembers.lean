import Slos.Sleepers
import Slos.WorkerWakeup

/-!
# Members of the run queue and the wait queue

Every caller of `enqueue_se_to_runq` and `dequeue_se_to_wq` in any order: the functions that create CFS tasks, `delay` and
the loop of `workq_worker` statement by statement, the shell's `sleep` and `run`, `sgi_irq` and the expiry of a oneshot
timer. Neither function looks whether the entity is linked. `Orderly` says which steps leave a CFS task in the run
queue exactly while it is running and in the wait queue exactly while it waits.
-/

namespace Slos.QueueMembers
open Word SearchTree Kernel LinkedNodes
open Mailbox (LetterType)
open Sleepers (DelayLoc correctYield)
open WaitQueueLinks (nextOf)
open WorkerWakeup (WorkFunc)

variable {τ δ : Type}

/-- Where the code of a task stands: in its own loop or in `delay`, or in the loop of the worker. -/
inductive Loc
  | thread (l : DelayLoc)
  | worker (point : WorkerPoint)
  deriving DecidableEq

/-- A task has code from its creation on; `worker` is `qworker->task`. -/
structure State (τ δ : Type) extends Tasks τ where
  loc : τ → Option Loc
  q : Worker WorkFunc (Option δ)
  worker : Option τ

/-- `statement` is the next statement of `delay` or of the worker, in the task that is current; `byte` is what the shell
reads after `sleep` and `run`. -/
inductive Step (τ δ : Type)
  | createCfs (pt : τ) (pri : ℕ)
  | createRt (pt : τ) (msec : ℕ)
  | createOneshot (pt : τ) (msec : ℕ)
  | createWorker (pt : τ)
  | mdelay (msecs : ℕ)
  | sleep (byte : ℕ)
  | run (byte : ℕ)
  | statement
  | irq
  | sgi (letter : LetterType) (arg : Option δ)
  | job (done : ℕ)
  | yieldyi

/-- The task the shell finds: the first with the pid among `cfs_task_num` tasks from `first` on. -/
def shellTask [DecidableEq τ] (s : Tasks τ) (byte : ℕ) : Option τ :=
  (s.tasks.take s.kernel.runq.cfsTaskNum).find? fun t => (s.kernel.task t).pid == usub byte 0x30

/-- Whether the current task is in code of its own. -/
def Outside (s : State τ δ) : Prop := s.loc s.kernel.current = some (.thread .outside)

/-- A work item may be `create_odev_task`, so the worker creates tasks too. -/
def mayCreate : Option Loc → Bool
  | some (.thread .outside) => true
  | some (.worker (.item _ _)) => true
  | _ => false

instance (s : State τ δ) : Decidable (Outside s) := inferInstanceAs (Decidable (_ = _))

variable [DecidableEq τ] (b : Balancer τ) (bt : Balancer TimerId)

def State.at (s : State τ δ) (k : Kernel τ) (l : Loc) : State τ δ :=
  { s with kernel := k, loc := Function.update s.loc s.kernel.current (some l) }

/-- The new task starts at the beginning of its code. -/
def create (s : State τ δ) (pt : τ) (l : Loc) (call : Option (Tasks τ)) : Option (State τ δ) :=
  if pt ∈ s.tasks ∨ mayCreate (s.loc s.kernel.current) = false then none
  else call.map fun u => { s with toTasks := u, loc := Function.update s.loc pt (some l) }

def delayStatement (s : State τ δ) : DelayLoc → Option (State τ δ)
  | .outside => none
  | .dequeued ticks => some (s.at { s.kernel with
      timers := createOneshotTimer bt s.kernel.timers s.kernel.current ticks } (.thread .armed))
  | .armed => (correctYield s.kernel).map fun k => s.at k (.thread .corrected)
  | .corrected => some (s.at (yieldyi s.kernel) (.thread .outside))

/-- `dequeue_se_to_wq(&this_current->se)` and `yieldyi()`, at the end of the worker's loop. -/
def workerCall (k : Kernel τ) : WorkerPoint → Kernel τ
  | .sleep => dequeueSeToWq b k k.current
  | .yield => yieldyi k
  | _ => k

def workerStatement (s : State τ δ) (point : WorkerPoint) : State τ δ :=
  let (next, q, _) := workqWorker s.q point
  { s.at (workerCall b s.kernel point) (.worker next) with q := q }

def statement (s : State τ δ) : Option (State τ δ) :=
  match s.loc s.kernel.current with
  | none => none
  | some (.thread l) => delayStatement bt s l
  | some (.worker point) => some (workerStatement b s point)

def shellSleep (k : Kernel τ) (found : Option τ) : Kernel τ :=
  match found with
  | none => k
  | some t => if (k.task t).state = .taskRunning then dequeueSeToWq b k t else k

def shellRun (k : Kernel τ) (found : Option τ) : Kernel τ :=
  match found with
  | none => k
  | some t => if (k.task t).state = .taskWaiting then enqueueSeToRunq b k t else k

def enqueueWork (s : State τ δ) (func : WorkFunc) (arg : Option δ) : State τ δ :=
  { s with q := (enqueueWorkq s.q func arg).1 }

/-- Before the worker is created there is no worker structure. -/
def wakeupWorkqWorker (s : State τ δ) : Option (State τ δ) :=
  s.worker.map fun thisTask => { s with kernel := enqueueSeToRunq b s.kernel thisTask }

def sgiIrq (s : State τ δ) (letter : LetterType) (arg : Option δ) : Option (State τ δ) :=
  match letter with
  | .empty => some s
  | .taskStat => wakeupWorkqWorker b (enqueueWork s .printTaskStat none)
  | .taskOdev => wakeupWorkqWorker b (enqueueWork s .createOdevTask arg)

def step (s : State τ δ) : Step τ δ → Option (State τ δ)
  | .createCfs pt pri => create s pt (.thread .outside) (createCfsTask b s.toTasks pt pri)
  | .createRt pt msec => create s pt (.thread .outside) (createRtTask bt s.toTasks pt msec)
  | .createOneshot pt msec => create s pt (.thread .outside) (createOneshotTask bt s.toTasks pt msec)
  | .createWorker pt =>
      if s.worker = none then
        (create s pt (.worker .readEnq) (createCfsTask b s.toTasks pt 4)).map fun s =>
          { s with q := { s.q with enqIdx := 0, deqIdx := 0 }, worker := some pt }
      else none
  | .mdelay msecs =>
      if Outside s ∧ (s.kernel.task s.kernel.current).type = .cfsTask then
        some (s.at (dequeueSeToWq b s.kernel s.kernel.current)
          (.thread (.dequeued (delayTicks s.kernel.timers.ticksPerSec msecs))))
      else none
  | .sleep byte =>
      if Outside s then some { s with kernel := shellSleep b s.kernel (shellTask s.toTasks byte) } else none
  | .run byte =>
      if Outside s then some { s with kernel := shellRun b s.kernel (shellTask s.toTasks byte) } else none
  | .statement => statement b bt s
  | .irq => (timerIrq b bt s.kernel).map fun k => { s with kernel := k }
  | .sgi letter arg => sgiIrq b s letter arg
  | .job done =>
      if Outside s then some { s with
        kernel := s.kernel.setTask s.kernel.current { s.kernel.task s.kernel.current with done := done } }
      else none
  | .yieldyi => if Outside s then some { s with kernel := yieldyi s.kernel } else none

/-- Boot has run `init_idletask`, `init_wq` and `init_rq`, and started the timer of the scheduler. -/
def start (k : Kernel τ) (pt : τ) (cpuid pid : ℕ) (q : Worker WorkFunc (Option δ)) : State τ δ :=
  { initTasks b k pt cpuid pid with
    loc := fun t => if t = pt then some (.thread .outside) else none
    q := q
    worker := none }

/-- The task whose oneshot timer expires, if it waits. -/
def expiring (k : Kernel τ) : Option τ :=
  k.timers.rbLeftmost.bind fun pct =>
    if (k.timers.timer pct).type = .oneshotTimer ∧ (k.task (k.timers.timer pct).pt).state = .taskWaiting then
      some (k.timers.timer pct).pt
    else none

/-- What the step passes to `enqueue_se_to_runq`. -/
def enqueued (s : State τ δ) : Step τ δ → Option τ
  | .createCfs pt _ => some pt
  | .createWorker pt => some pt
  | .run byte => (shellTask s.toTasks byte).filter fun t => (s.kernel.task t).state = .taskWaiting
  | .irq => expiring s.kernel
  | .sgi letter _ => if letter = .empty then none else s.worker
  | _ => none

/-- What the step passes to `dequeue_se_to_wq`. -/
def dequeued (s : State τ δ) : Step τ δ → Option τ
  | .mdelay _ => some s.kernel.current
  | .statement => if s.loc s.kernel.current = some (.worker .sleep) then some s.kernel.current else none
  | .sleep byte => (shellTask s.toTasks byte).filter fun t => (s.kernel.task t).state = .taskRunning
  | _ => none

/-- Only an unlinked entity is enqueued and only a linked one dequeued. -/
structure Disciplined (s : State τ δ) (i : Step τ δ) : Prop where
  enqueued : ∀ t ∈ enqueued s i, t ∉ s.kernel.queue
  dequeued : ∀ t ∈ dequeued s i, t ∈ s.kernel.queue

omit [DecidableEq τ] in
/-- The wait queue from its head on. -/
def WaitList (k : Kernel τ) (ws : List τ) : Prop := Forward (nextOf k) .head (ws.map .task)

/-- Each CFS task is linked in the run queue exactly while it is running and in the wait queue exactly while it waits. -/
structure Member (s : State τ δ) : Prop where
  once : s.kernel.queue.Nodup
  running : ∀ t ∈ s.tasks, (s.kernel.task t).type = .cfsTask →
    (t ∈ s.kernel.queue ↔ (s.kernel.task t).state = .taskRunning)
  waiting : ∃ ws, WaitList s.kernel ws ∧ ws.Nodup ∧ ∀ t ∈ s.tasks, (s.kernel.task t).type = .cfsTask →
    (t ∈ ws ↔ (s.kernel.task t).state = .taskWaiting)

/-- The worker is woken only while it waits, and a task only if it is the last one that went to sleep; the shell puts
CFS tasks to sleep only, and a task itself only while it is running. -/
def Orderly (s : State τ δ) : Step τ δ → Prop
  | .mdelay _ => (s.kernel.task s.kernel.current).state = .taskRunning
  | .statement => s.loc s.kernel.current = some (.worker .sleep) →
      (s.kernel.task s.kernel.current).state = .taskRunning
  | .sleep byte => ∀ t ∈ shellTask s.toTasks byte, (s.kernel.task t).state = .taskRunning →
      (s.kernel.task t).type = .cfsTask
  | .run byte => ∀ t ∈ shellTask s.toTasks byte, (s.kernel.task t).state = .taskWaiting → s.kernel.wq.next = some t
  | .irq => ∀ t ∈ expiring s.kernel, s.kernel.wq.next = some t
  | .sgi letter _ => letter ≠ .empty → ∀ t ∈ s.worker,
      (s.kernel.task t).state = .taskWaiting ∧ s.kernel.wq.next = some t
  | _ => True

/-- What a task's fields say of the queue it is in. -/
def place (p : Task τ) : TaskState × TaskType × Option (ListHead τ) × Option τ :=
  (p.state, p.type, p.waitPrev, p.waitNext)

/-- Of the tasks `ts`, the CFS tasks `cs` are where their state says; those in the wait queue all point back at its
head. -/
structure Placed (k : Kernel τ) (ts cs ws : List τ) : Prop where
  nodup : k.queue.Nodup
  cached : k.runq.rbLeftmost = k.queue.head?
  created : ∀ t ∈ cs, t ∈ ts
  kind : ∀ t ∈ ts, ((k.task t).type = .cfsTask ↔ t ∈ cs)
  queued : ∀ t, t ∈ k.queue ↔ t ∈ cs ∧ (k.task t).state = .taskRunning
  list : WaitList k ws
  back : ∀ t ∈ ws, (k.task t).waitPrev = some .head
  waiting : ∀ t, t ∈ ws ↔ t ∈ cs ∧ (k.task t).state = .taskWaiting
  others : ∀ t ∈ ts, t ∉ cs → (k.task t).state = .taskRunning

section Places

variable {k k' : Kernel τ} {ts cs ws : List τ} {t pt : τ}

omit [DecidableEq τ] in
theorem place_eq_iff {p q : Task τ} : place p = place q ↔ p.state = q.state ∧ p.type = q.type ∧
    p.waitPrev = q.waitPrev ∧ p.waitNext = q.waitNext := by
  simp only [place, Prod.mk.injEq]

omit [DecidableEq τ] in
theorem forward_task {w : τ} : Forward (nextOf k) (.task w) (ws.map .task) ↔
    Forward (fun t => (k.task t).waitNext) w ws := by
  induction ws generalizing w with
  | nil => simp [Forward, nextOf]
  | cons v ws ih =>
      rw [List.map_cons, Forward, Forward, ih]
      simp [nextOf]

omit [DecidableEq τ] in
theorem WaitList.nodup (h : WaitList k ws) : ws.Nodup :=
  List.Nodup.of_map ListHead.task (List.nodup_cons.mp (Forward.nodup h)).2

omit [DecidableEq τ] in
theorem Placed.first (h : Placed k ts cs ws) (hnext : k.wq.next = some t) : ∃ ws', ws = t :: ws' := by
  have hlist := h.list
  cases ws with
  | nil =>
      have hnone : k.wq.next.map ListHead.task = none := hlist
      rw [hnext] at hnone
      cases hnone
  | cons w ws' =>
      have hfirst : k.wq.next.map ListHead.task = some (.task w) := hlist.1
      rw [hnext] at hfirst
      cases hfirst
      exact ⟨ws', rfl⟩

omit [DecidableEq τ] in
/-- A change that moves no task between the queues. -/
theorem Placed.moves (h : Placed k ts cs ws) (hperm : k'.queue.Perm k.queue)
    (hcached : k'.runq.rbLeftmost = k'.queue.head?) (hnext : k'.wq.next = k.wq.next)
    (hplace : ∀ t ∈ ts, place (k'.task t) = place (k.task t)) : Placed k' ts cs ws := by
  have hsame (t : τ) (ht : t ∈ ts) := place_eq_iff.mp (hplace t ht)
  have hin (t : τ) (ht : t ∈ ws) : t ∈ ts := h.created t ((h.waiting t).mp ht).1
  constructor
  · exact hperm.nodup_iff.mpr h.nodup
  · exact hcached
  · exact h.created
  · intro t ht
    rw [(hsame t ht).2.1]
    exact h.kind t ht
  · intro t
    rw [hperm.mem_iff, h.queued]
    apply and_congr_right
    intro ht
    rw [(hsame t (h.created t ht)).1]
  · apply h.list.congr
    intro q hq
    rcases List.mem_cons.mp hq with rfl | hq
    · exact congrArg (Option.map _) hnext
    · obtain ⟨t, ht, rfl⟩ := List.mem_map.mp hq
      exact congrArg (Option.map _) (hsame t (hin t ht)).2.2.2
  · intro t ht
    rw [(hsame t (hin t ht)).2.2.1]
    exact h.back t ht
  · intro t
    rw [h.waiting]
    apply and_congr_right
    intro ht
    rw [(hsame t (h.created t ht)).1]
  · intro t ht hcs
    rw [(hsame t ht).1]
    exact h.others t ht hcs

omit [DecidableEq τ] in
theorem Placed.same (h : Placed k ts cs ws) (hroot : k'.runq.root = k.runq.root)
    (hleft : k'.runq.rbLeftmost = k.runq.rbLeftmost) (hnext : k'.wq.next = k.wq.next)
    (hplace : ∀ t ∈ ts, place (k'.task t) = place (k.task t)) : Placed k' ts cs ws := by
  have hqueue : k'.queue = k.queue := congrArg BinTree.inorder hroot
  apply h.moves
  · rw [hqueue]
  · rw [hleft, hqueue]
    exact h.cached
  · exact hnext
  · exact hplace

theorem setTask_place (k : Kernel τ) (u : τ) {p : Task τ} (hp : place p = place (k.task u)) (t : τ) :
    place ((k.setTask u p).task t) = place (k.task t) := by
  by_cases ht : t = u
  · rw [ht, setTask_self, hp]
  · rw [setTask_of_ne _ _ ht]

omit [DecidableEq τ] in
theorem seOnly_place (h : SeOnly k k') (t : τ) : place (k'.task t) = place (k.task t) := by
  rw [h.task t]
  rfl

/-- The fields of a task that is enqueued: it is out of the wait queue and running. -/
theorem enqueueSeToRunq_place (k : Kernel τ) (se t : τ) : place ((enqueueSeToRunq b k se).task t) =
    place ((wakeState k se).task t) := seOnly_place (updateVruntimeRunq_seOnly (wakeState k se) se) t

theorem dequeueSeToWq_place (k : Kernel τ) (se t : τ) : place ((dequeueSeToWq b k se).task t) =
    place ((sleepState k se).task t) := seOnly_place (updateVruntimeRunq_seOnly (sleepState k se) se) t

/-- The first task of the wait queue is taken out of it alone. -/
theorem removeFromWq_first (hnext : k.wq.next = some t) (hprev : (k.task t).waitPrev = some .head)
    (hafter : ∀ q ∈ (k.task t).waitNext, q ≠ t ∧ (k.task q).waitPrev = some .head) :
    (removeFromWq k t).wq.next = (k.task t).waitNext ∧ ∀ u, u ≠ t → (removeFromWq k t).task u = k.task u := by
  have hfind : findWait k t = some t := by
    obtain ⟨n, hn⟩ : ∃ n, Word.size = n + 1 := ⟨Word.size - 1, rfl⟩
    rw [findWait, hnext, Option.bind_some, hn, findFrom, if_pos (beq_self_eq_true t)]
  rw [removeFromWq, hfind]
  dsimp only
  cases hq : (k.task t).waitNext with
  | none =>
      constructor
      · simp [unlinkWait, setPrevNext, setNextPrev, hprev, hq]
      · intro u hu
        simp [unlinkWait, setPrevNext, setNextPrev, hprev, hq, setTask_of_ne _ _ hu]
  | some q =>
      obtain ⟨hne, hback⟩ := hafter q hq
      have hsame : { k.task q with waitPrev := some .head } = k.task q := by
        rw [← hback]
      constructor
      · simp [unlinkWait, setPrevNext, setNextPrev, hprev, hq, setTask]
      · intro u hu
        simp only [unlinkWait, setPrevNext, setNextPrev, hprev, hq]
        rw [setTask_of_ne _ _ hu]
        by_cases huq : u = q
        · rw [huq, setTask_self]
          exact hsame
        · rw [setTask_of_ne _ _ huq]

/-- A task that is not in the wait queue is looked for in vain. -/
theorem removeFromWq_absent (hlist : WaitList k ws) (ht : t ∉ ws) : removeFromWq k t = k := by
  have hfind : findWait k t = none := by
    cases ws with
    | nil =>
        have hnone : k.wq.next = none := Option.map_eq_none_iff.mp hlist
        rw [findWait, hnone, Option.bind_none]
    | cons w ws =>
        have hnext : k.wq.next = some w := by
          have hfirst : k.wq.next.map ListHead.task = some (.task w) := hlist.1
          obtain ⟨v, hv, he⟩ := Option.map_eq_some_iff.mp hfirst
          cases he
          exact hv
        rw [findWait, hnext, Option.bind_some]
        apply findFrom_eq_none (forward_task.mp hlist.2)
        intro q hq
        rw [beq_eq_false_iff_ne]
        rintro rfl
        exact ht hq
  rw [removeFromWq, hfind]

end Places

section Moves

variable {k k' : Kernel τ} {ts cs ws : List τ} {t pt : τ}

/-- Waking the task that went to sleep last. -/
theorem Placed.wake (h : Placed k ts cs ws) (hnext : k.wq.next = some t) :
    (t ∉ k.queue ∧ t ∈ cs) ∧ ∃ ws', Placed (enqueueSeToRunq b k t) ts cs ws' := by
  obtain ⟨ws', rfl⟩ := h.first hnext
  obtain ⟨hcs, hstate⟩ := (h.waiting t).mp List.mem_cons_self
  have hnew : t ∉ k.queue := by
    intro hmem
    have hrunning := ((h.queued t).mp hmem).2
    rw [hstate] at hrunning
    cases hrunning
  have hnd := h.list.nodup
  obtain ⟨ht, hnd'⟩ := List.nodup_cons.mp hnd
  have hafter : ∀ q ∈ (k.task t).waitNext, q ≠ t ∧ (k.task q).waitPrev = some .head := by
    intro q hq
    have hmid : Forward (fun t => (k.task t).waitNext) t ws' := forward_task.mp h.list.2
    cases ws' with
    | nil =>
        have hnone : (k.task t).waitNext = none := hmid
        rw [hnone] at hq
        cases hq
    | cons w ws' =>
        have hsome : (k.task t).waitNext = some w := hmid.1
        rw [hsome] at hq
        cases hq
        constructor
        · rintro rfl
          exact ht List.mem_cons_self
        · exact h.back q (List.mem_cons_of_mem _ List.mem_cons_self)
  obtain ⟨hhead, hothers⟩ := removeFromWq_first (k := addPriority k t) hnext (h.back t List.mem_cons_self) hafter
  obtain ⟨hperm, hcached⟩ := enqueueSeToRunq_queue b h.nodup h.cached hnew
  have hwq : (enqueueSeToRunq b k t).wq.next = (k.task t).waitNext := by
    rw [← show ((removeFromWq (addPriority k t) t).wq.next) = (k.task t).waitNext from hhead]
    exact congrArg WaitQueue.next (updateVruntimeRunq_seOnly (wakeState k t) t).wq
  have hplace (u : τ) (hu : u ≠ t) : place ((enqueueSeToRunq b k t).task u) = place (k.task u) := by
    rw [enqueueSeToRunq_place, wakeState, setState, setTask_of_ne _ _ hu, hothers u hu]
    rfl
  have htype (u : τ) : ((enqueueSeToRunq b k t).task u).type = (k.task u).type := by
    obtain ⟨e, prev, next, he⟩ := enqueueSeToRunq_moved b k t u
    rw [he]
  have hstates (u : τ) := (enqueueSeToRunq_moved b k t).state u
  refine ⟨⟨hnew, hcs⟩, ws', ?_⟩
  constructor
  · exact hperm.nodup_iff.mpr (List.nodup_cons.mpr ⟨hnew, h.nodup⟩)
  · exact hcached
  · exact h.created
  · intro u hu
    rw [htype]
    exact h.kind u hu
  · intro u
    rw [hperm.mem_iff, List.mem_cons, hstates]
    by_cases hu : u = t
    · subst hu
      simp [hcs]
    · rw [if_neg hu, h.queued]
      simp [hu]
  · have hall : Forward (nextOf k) .head ([] ++ .task t :: ws'.map .task) := h.list
    apply Forward.unlink hall (Forward.nodup hall)
    · exact congrArg (Option.map _) hwq
    · intro q hq hne
      rcases List.mem_cons.mp hq with rfl | hq
      · exact absurd rfl hne
      · obtain ⟨u, hu, rfl⟩ := List.mem_map.mp hq
        have hut : u ≠ t := fun he => ht (he ▸ hu)
        exact congrArg (Option.map _) (place_eq_iff.mp (hplace u hut)).2.2.2
  · intro u hu
    have hut : u ≠ t := fun he => ht (he ▸ hu)
    rw [(place_eq_iff.mp (hplace u hut)).2.2.1]
    exact h.back u (List.mem_cons_of_mem _ hu)
  · intro u
    rw [hstates]
    by_cases hu : u = t
    · subst hu
      simp [ht]
    · rw [if_neg hu, ← h.waiting]
      simp [hu]
  · intro u hu hucs
    rw [hstates]
    split_ifs
    · rfl
    · exact h.others u hu hucs

/-- Putting a CFS task that is running to sleep. -/
theorem Placed.sleep (h : Placed k ts cs ws) (hcs : t ∈ cs) (hstate : (k.task t).state = .taskRunning) :
    t ∈ k.queue ∧ Placed (dequeueSeToWq b k t) ts cs (t :: ws) := by
  have hmem : t ∈ k.queue := (h.queued t).mpr ⟨hcs, hstate⟩
  have hnot : t ∉ ws := by
    intro hin
    have hwaiting := ((h.waiting t).mp hin).2
    rw [hstate] at hwaiting
    cases hwaiting
  obtain ⟨herase, hcached⟩ := dequeueSeToWq_queue b h.nodup h.cached hmem
  have hwq : (dequeueSeToWq b k t).wq.next = some t :=
    congrArg WaitQueue.next (updateVruntimeRunq_seOnly (sleepState k t) t).wq
  have hself : ((dequeueSeToWq b k t).task t).waitPrev = some .head ∧
      ((dequeueSeToWq b k t).task t).waitNext = k.wq.next := by
    have hplace := place_eq_iff.mp (dequeueSeToWq_place b k t t)
    rw [hplace.2.2.1, hplace.2.2.2, sleepState, setState, setTask_self]
    simp [addToWq, subPriority]
  have hplace (u : τ) (hu : u ≠ t) : place ((dequeueSeToWq b k t).task u) = place (k.task u) := by
    rw [dequeueSeToWq_place, sleepState, setState, setTask_of_ne _ _ hu]
    simp [addToWq, subPriority, setTask_of_ne _ _ hu]
  have htype (u : τ) : ((dequeueSeToWq b k t).task u).type = (k.task u).type := by
    obtain ⟨e, prev, next, he⟩ := dequeueSeToWq_moved b k t u
    rw [he]
  have hstates (u : τ) := (dequeueSeToWq_moved b k t).state u
  refine ⟨hmem, ?_⟩
  constructor
  · rw [herase]
    exact h.nodup.erase t
  · exact hcached
  · exact h.created
  · intro u hu
    rw [htype]
    exact h.kind u hu
  · intro u
    rw [herase, h.nodup.mem_erase_iff, h.queued, hstates]
    by_cases hu : u = t
    · simp [hu]
    · simp [hu]
  · rw [WaitList, List.map_cons]
    apply h.list.push
    · exact congrArg (Option.map _) hwq
    · exact congrArg (Option.map _) hself.2
    · intro q hq
      obtain ⟨u, hu, rfl⟩ := List.mem_map.mp hq
      have hut : u ≠ t := fun he => hnot (he ▸ hu)
      exact congrArg (Option.map _) (place_eq_iff.mp (hplace u hut)).2.2.2
  · intro u hu
    by_cases hut : u = t
    · rw [hut]
      exact hself.1
    · rw [(place_eq_iff.mp (hplace u hut)).2.2.1]
      exact h.back u ((List.mem_cons.mp hu).resolve_left hut)
  · intro u
    rw [List.mem_cons, hstates]
    by_cases hu : u = t
    · simp [hu, hcs]
    · rw [if_neg hu, ← h.waiting]
      simp [hu]
  · intro u hu hucs
    have hut : u ≠ t := fun he => hucs (he ▸ hcs)
    rw [hstates, if_neg hut]
    exact h.others u hu hucs

/-- A new CFS task is enqueued. -/
theorem Placed.enter (h : Placed k ts cs ws) (hpt : pt ∉ ts) (htype : (k.task pt).type = .cfsTask) :
    pt ∉ k.queue ∧ Placed (enqueueSeToRunq b k pt) (ts ++ [pt]) (pt :: cs) ws := by
  have hnotCfs : pt ∉ cs := fun hmem => hpt (h.created pt hmem)
  have hnew : pt ∉ k.queue := fun hmem => hnotCfs ((h.queued pt).mp hmem).1
  have hnot : pt ∉ ws := fun hmem => hnotCfs ((h.waiting pt).mp hmem).1
  obtain ⟨hperm, hcached⟩ := enqueueSeToRunq_queue b h.nodup h.cached hnew
  have habsent : removeFromWq (addPriority k pt) pt = addPriority k pt := by
    have hlist : WaitList (addPriority k pt) ws := h.list
    exact removeFromWq_absent hlist hnot
  have hwq : (enqueueSeToRunq b k pt).wq = k.wq := by
    refine (updateVruntimeRunq_seOnly (wakeState k pt) pt).wq.trans ?_
    rw [wakeState, habsent]
    rfl
  have hplace (u : τ) (hu : u ≠ pt) : place ((enqueueSeToRunq b k pt).task u) = place (k.task u) := by
    rw [enqueueSeToRunq_place, wakeState, setState, setTask_of_ne _ _ hu, habsent]
    rfl
  have htypes (u : τ) : ((enqueueSeToRunq b k pt).task u).type = (k.task u).type := by
    obtain ⟨e, prev, next, he⟩ := enqueueSeToRunq_moved b k pt u
    rw [he]
  have hstates (u : τ) := (enqueueSeToRunq_moved b k pt).state u
  have hold (u : τ) (hu : u ∈ ts ++ [pt]) (hne : u ≠ pt) : u ∈ ts := by
    rcases List.mem_append.mp hu with hu | hu
    · exact hu
    · exact absurd (List.mem_singleton.mp hu) hne
  refine ⟨hnew, ?_⟩
  constructor
  · exact hperm.nodup_iff.mpr (List.nodup_cons.mpr ⟨hnew, h.nodup⟩)
  · exact hcached
  · intro u hu
    rcases List.mem_cons.mp hu with rfl | hu
    · exact List.mem_append_right _ List.mem_cons_self
    · exact List.mem_append_left _ (h.created u hu)
  · intro u hu
    rw [htypes]
    by_cases hne : u = pt
    · simp [hne, htype]
    · rw [h.kind u (hold u hu hne)]
      simp [hne]
  · intro u
    rw [hperm.mem_iff, List.mem_cons, hstates, List.mem_cons]
    by_cases hu : u = pt
    · simp [hu]
    · rw [if_neg hu, h.queued]
      simp [hu]
  · apply h.list.congr
    intro q hq
    rcases List.mem_cons.mp hq with rfl | hq
    · exact congrArg (Option.map _) (congrArg WaitQueue.next hwq)
    · obtain ⟨u, hu, rfl⟩ := List.mem_map.mp hq
      have hne : u ≠ pt := fun he => hnot (he ▸ hu)
      exact congrArg (Option.map _) (place_eq_iff.mp (hplace u hne)).2.2.2
  · intro u hu
    have hne : u ≠ pt := fun he => hnot (he ▸ hu)
    rw [(place_eq_iff.mp (hplace u hne)).2.2.1]
    exact h.back u hu
  · intro u
    rw [h.waiting, hstates, List.mem_cons]
    by_cases hu : u = pt
    · simp [hu, hnotCfs]
    · rw [if_neg hu]
      simp [hu]
  · intro u hu hucs
    obtain ⟨hne, hucs'⟩ := not_or.mp fun hor => hucs (List.mem_cons.mpr hor)
    rw [hstates, if_neg hne]
    exact h.others u (hold u hu hne) hucs'

omit [DecidableEq τ] in
/-- A new task that is not for the run queue. -/
theorem Placed.join (h : Placed k ts cs ws) (hpt : pt ∉ ts) (htype : (k.task pt).type ≠ .cfsTask)
    (hstate : (k.task pt).state = .taskRunning) : Placed k (ts ++ [pt]) cs ws := by
  constructor
  · exact h.nodup
  · exact h.cached
  · intro u hu
    exact List.mem_append_left _ (h.created u hu)
  · intro u hu
    rcases List.mem_append.mp hu with hu | hu
    · exact h.kind u hu
    · obtain rfl := List.mem_singleton.mp hu
      exact iff_of_false htype fun hmem => hpt (h.created u hmem)
  · exact h.queued
  · exact h.list
  · exact h.back
  · exact h.waiting
  · intro u hu hucs
    rcases List.mem_append.mp hu with hu | hu
    · exact h.others u hu hucs
    · rw [List.mem_singleton.mp hu]
      exact hstate

end Moves

/-- Nothing that tells where a task is changes. -/
structure Unmoved (k k' : Kernel τ) : Prop where
  root : k'.runq.root = k.runq.root
  rbLeftmost : k'.runq.rbLeftmost = k.runq.rbLeftmost
  next : k'.wq.next = k.wq.next
  place : ∀ t, place (k'.task t) = place (k.task t)

section Interrupts

variable {k k' k'' : Kernel τ} {ts cs ws : List τ} {pct : TimerId} {thisCurrent : τ}

omit [DecidableEq τ] in
theorem Unmoved.trans (h : Unmoved k k') (h' : Unmoved k' k'') : Unmoved k k'' := by
  constructor
  · exact h'.root.trans h.root
  · exact h'.rbLeftmost.trans h.rbLeftmost
  · exact h'.next.trans h.next
  · exact fun t => (h'.place t).trans (h.place t)

omit [DecidableEq τ] in
theorem Unmoved.state (h : Unmoved k k') (t : τ) : (k'.task t).state = (k.task t).state :=
  (place_eq_iff.mp (h.place t)).1

omit [DecidableEq τ] in
theorem Placed.unmoved (h : Placed k ts cs ws) (hsame : Unmoved k k') : Placed k' ts cs ws :=
  h.same hsame.root hsame.rbLeftmost hsame.next fun t _ => hsame.place t

theorem setTask_unmoved (k : Kernel τ) (u : τ) {p : Task τ} (hp : place p = place (k.task u)) :
    Unmoved k (k.setTask u p) := ⟨rfl, rfl, rfl, setTask_place k u hp⟩

theorem updateCurrent_unmoved (k : Kernel τ) (elapsed : ℕ) : Unmoved k (updateCurrent k elapsed) := by
  have hrunq := YieldChain.updateCurrent_runq k elapsed
  constructor
  · rw [hrunq]
  · rw [hrunq]
  · unfold updateCurrent
    split <;> rfl
  · intro t
    obtain ⟨e, he⟩ := YieldChain.updateCurrent_task k elapsed t
    rw [he]
    rfl

theorem switchToTimer_unmoved (k : Kernel τ) (thisCurrent pt : τ) : Unmoved k (switchToTimer k thisCurrent pt) := by
  have hpreempted : Unmoved k (if (k.task thisCurrent).type = .rtTask then
      k.setTask thisCurrent { k.task thisCurrent with preempted := 1 } else k) := by
    split
    · exact setTask_unmoved k thisCurrent rfl
    · exact ⟨rfl, rfl, rfl, fun _ => rfl⟩
  have hgiven (k₁ : Kernel τ) : Unmoved k₁ { k₁.setTask pt { k₁.task pt with yieldTask := some thisCurrent } with
      current := pt } := by
    have hset := setTask_unmoved k₁ pt (p := { k₁.task pt with yieldTask := some thisCurrent }) rfl
    exact ⟨rfl, rfl, rfl, hset.place⟩
  unfold switchToTimer
  split
  · exact ⟨rfl, rfl, rfl, fun _ => rfl⟩
  · exact hpreempted.trans (hgiven _)

theorem realtimeExpired_unmoved (k : Kernel τ) (thisCurrent : τ) (pct : TimerId) :
    Unmoved k (realtimeExpired k thisCurrent pct) := by
  have hswitch := switchToTimer_unmoved k thisCurrent (k.timers.timer pct).pt
  unfold realtimeExpired
  dsimp only
  split_ifs
  · exact hswitch.trans (setTask_unmoved _ thisCurrent rfl)
  · exact hswitch

theorem schedExpired_placed (h : Placed k ts cs ws) (hk : schedExpired b k thisCurrent pct = some k') :
    Placed k' ts cs ws := by
  unfold schedExpired at hk
  split_ifs at hk
  · cases hk
    exact h
  · obtain ⟨k₂, hk₂, rfl⟩ := Option.map_eq_some_iff.mp hk
    obtain ⟨k₁, hk₁, hk₂⟩ := Option.bind_eq_some_iff.mp hk₂
    obtain ⟨next, -, rfl⟩ := Option.map_eq_some_iff.mp hk₂
    obtain ⟨hperm, hcached, htask, -⟩ := updateSe_perm b h.nodup h.cached hk₁
    have hwq : k₁.wq = k.wq := by
      obtain ⟨cur, -, rfl⟩ := Option.map_eq_some_iff.mp hk₁
      dsimp only
      split_ifs <;> rfl
    apply h.moves
    · exact hperm
    · exact hcached
    · exact congrArg WaitQueue.next hwq
    · intro t _
      exact congrArg (fun f => place (f t)) htask

theorem oneshotExpired_placed (h : Placed k ts cs ws)
    (hlast : (k.task (k.timers.timer pct).pt).state = .taskWaiting → k.wq.next = some (k.timers.timer pct).pt) :
    ∃ ws', Placed (oneshotExpired b bt k thisCurrent pct) ts cs ws' := by
  obtain ⟨pt, hpt⟩ : ∃ pt, pt = (k.timers.timer pct).pt := ⟨_, rfl⟩
  obtain ⟨k₁, hk₁⟩ : ∃ k₁, k₁ = switchToTimer k thisCurrent pt := ⟨_, rfl⟩
  have hswitch : Unmoved k k₁ := hk₁ ▸ switchToTimer_unmoved k thisCurrent pt
  rw [← hpt] at hlast
  unfold oneshotExpired
  dsimp only
  rw [← hpt, ← hk₁]
  split_ifs with hwaiting
  · obtain ⟨-, ws', hwoken⟩ := (h.unmoved hswitch).wake b
      (hswitch.next.trans (hlast ((hswitch.state pt).symm.trans hwaiting)))
    exact ⟨ws', hwoken.unmoved ⟨rfl, rfl, rfl, fun _ => rfl⟩⟩
  · exact ⟨ws, (h.unmoved hswitch).unmoved ⟨rfl, rfl, rfl, fun _ => rfl⟩⟩

/-- An interrupt moves at most the task that is woken. -/
theorem timerIrq_placed (h : Placed k ts cs ws) (hk : timerIrq b bt k = some k')
    (hlast : ∀ t ∈ expiring k, k.wq.next = some t) : ∃ ws', Placed k' ts cs ws' := by
  obtain ⟨pct, timers, k₁, hpct, hk₁, hpt, hcases⟩ := YieldChain.timerIrq_cases hk
  have htimers : Unmoved k { k with timers := timers } := ⟨rfl, rfl, rfl, fun _ => rfl⟩
  have hmoved : Unmoved k k₁ := hk₁ ▸ htimers.trans (updateCurrent_unmoved _ k.timers.load)
  have hplaced := h.unmoved hmoved
  rcases hcases with ⟨-, hsched⟩ | ⟨-, rfl⟩ | ⟨htype, rfl⟩
  · exact ⟨ws, schedExpired_placed b hplaced hsched⟩
  · exact ⟨ws, hplaced.unmoved (realtimeExpired_unmoved k₁ k.current pct)⟩
  · apply oneshotExpired_placed b bt hplaced
    rw [hpt]
    intro hwaiting
    rw [hmoved.next]
    apply hlast
    have hstate : (k.task (k.timers.timer pct).pt).state = .taskWaiting := (hmoved.state _).symm.trans hwaiting
    rw [expiring, hpct, Option.bind_some, if_pos ⟨htype, hstate⟩]
    rfl

end Interrupts

/-- The worker is a CFS task, and only created tasks have code. -/
structure Inv (s : State τ δ) : Prop where
  placed : ∃ cs ws, Placed s.kernel s.tasks cs ws ∧ ∀ t point, s.loc t = some (.worker point) → t ∈ cs
  code : ∀ t l, s.loc t = some l → t ∈ s.tasks

section Steps

variable {s t : State τ δ} {u : Tasks τ} {k : Kernel τ} {cs ws : List τ} {pt : τ} {l : Loc}

omit [DecidableEq τ] in
theorem Inv.member (h : Inv s) : Member s := by
  obtain ⟨⟨cs, ws, hp, -⟩, -⟩ := h
  constructor
  · exact hp.nodup
  · intro t ht htype
    rw [hp.queued]
    exact and_iff_right ((hp.kind t ht).mp htype)
  · refine ⟨ws, hp.list, hp.list.nodup, fun t ht htype => ?_⟩
    rw [hp.waiting]
    exact and_iff_right ((hp.kind t ht).mp htype)

omit [DecidableEq τ] in
theorem Inv.kernel (h : Inv s) (hp : ∀ cs ws, Placed s.kernel s.tasks cs ws → ∃ ws', Placed k s.tasks cs ws') :
    Inv { s with kernel := k } := by
  obtain ⟨⟨cs, ws, hplaced, hworker⟩, hcode⟩ := h
  obtain ⟨ws', hplaced'⟩ := hp cs ws hplaced
  exact ⟨⟨cs, ws', hplaced', hworker⟩, hcode⟩

/-- The current task moves on in its code. -/
theorem Inv.at (h : Inv s) (hp : ∀ cs ws, Placed s.kernel s.tasks cs ws →
      (∀ t point, s.loc t = some (.worker point) → t ∈ cs) → ∃ ws', Placed k s.tasks cs ws')
    (hcode : ∃ l', s.loc s.kernel.current = some l')
    (hloc : ∀ point, l = .worker point → ∃ point', s.loc s.kernel.current = some (.worker point')) :
    Inv (s.at k l) := by
  obtain ⟨⟨cs, ws, hplaced, hworker⟩, hcreated⟩ := h
  obtain ⟨ws', hplaced'⟩ := hp cs ws hplaced hworker
  have hself : (s.at k l).loc s.kernel.current = some l := Function.update_self ..
  have hother {t : τ} (ht : t ≠ s.kernel.current) : (s.at k l).loc t = s.loc t := Function.update_of_ne ht ..
  refine ⟨⟨cs, ws', hplaced', fun t point ht => ?_⟩, fun t l' ht => ?_⟩
  · by_cases hne : t = s.kernel.current
    · subst hne
      rw [hself] at ht
      obtain ⟨point', hpoint'⟩ := hloc point (Option.some.inj ht)
      exact hworker _ point' hpoint'
    · rw [hother hne] at ht
      exact hworker t point ht
  · by_cases hne : t = s.kernel.current
    · subst hne
      obtain ⟨l₀, hl₀⟩ := hcode
      exact hcreated _ l₀ hl₀
    · rw [hother hne] at ht
      exact hcreated t l' ht

omit [DecidableEq τ] in
theorem Inv.unmoved (h : Inv s) (hu : Unmoved s.kernel k) : Inv { s with kernel := k } :=
  h.kernel fun _ ws hp => ⟨ws, hp.unmoved hu⟩

/-- The statements of `forkyi`, before the new task is enqueued. -/
theorem forkyi_placed {type : TaskType} {pri : ℕ} (hp : Placed s.kernel s.tasks cs ws) (hpt : pt ∉ s.tasks)
    (h : forkyi s.toTasks pt type pri = some u) : u.tasks = s.tasks ++ [pt] ∧ Placed u.kernel s.tasks cs ws ∧
      (u.kernel.task pt).type = type := by
  obtain ⟨htasks, shift, hk⟩ := YieldChain.forkyi_eq h
  refine ⟨htasks, ?_, ?_⟩
  · rw [hk]
    apply hp.same
    · rfl
    · rfl
    · rfl
    · intro t ht
      have hne : t ≠ pt := fun he => hpt (he ▸ ht)
      rw [setTask_of_ne _ _ hne]
  · rw [hk, setTask_self]
    rfl

theorem createCfsTask_placed {pri : ℕ} (hp : Placed s.kernel s.tasks cs ws) (hpt : pt ∉ s.tasks)
    (h : createCfsTask b s.toTasks pt pri = some u) : u.tasks = s.tasks ++ [pt] ∧
      Placed u.kernel u.tasks (pt :: cs) ws := by
  obtain ⟨u₁, hu₁, rfl⟩ := Option.map_eq_some_iff.mp h
  obtain ⟨htasks, hp₁, htype⟩ := forkyi_placed hp hpt hu₁
  obtain ⟨-, hentered⟩ := hp₁.enter b hpt htype
  refine ⟨htasks, ?_⟩
  rw [← htasks] at hentered
  exact hentered.unmoved ⟨rfl, rfl, rfl, fun _ => rfl⟩

theorem createOther_placed {type : TaskType} {timers : Timers τ} (hp : Placed s.kernel s.tasks cs ws)
    (hpt : pt ∉ s.tasks) (h : forkyi s.toTasks pt type 0 = some u) (htype : type ≠ .cfsTask) :
    u.tasks = s.tasks ++ [pt] ∧
      Placed { u.kernel.setState pt .taskRunning with timers := timers } u.tasks cs ws := by
  obtain ⟨htasks, hp₁, htype₁⟩ := forkyi_placed hp hpt h
  have hstate : Placed { u.kernel.setState pt .taskRunning with timers := timers } s.tasks cs ws := by
    apply hp₁.same
    · rfl
    · rfl
    · rfl
    · intro t ht
      have hne : t ≠ pt := fun he => hpt (he ▸ ht)
      exact congrArg place (setTask_of_ne u.kernel _ hne)
  refine ⟨htasks, ?_⟩
  rw [htasks]
  have hself : (u.kernel.setState pt .taskRunning).task pt = { u.kernel.task pt with state := .taskRunning } :=
    setTask_self ..
  apply hstate.join hpt
  · change ((u.kernel.setState pt .taskRunning).task pt).type ≠ _
    rw [hself, htype₁]
    exact htype
  · change ((u.kernel.setState pt .taskRunning).task pt).state = _
    rw [hself]

theorem create_eq {call : Option (Tasks τ)} (h : create s pt l call = some t) : pt ∉ s.tasks ∧ ∃ u, call = some u ∧
    t = { s with toTasks := u, loc := Function.update s.loc pt (some l) } := by
  unfold create at h
  split_ifs at h with hnew
  obtain ⟨u, hu, rfl⟩ := Option.map_eq_some_iff.mp h
  exact ⟨(not_or.mp hnew).1, u, hu, rfl⟩

/-- A new task starts with code of its own; the worker is a CFS task. -/
theorem Inv.create (h : Inv s) (hp : ∀ cs ws, Placed s.kernel s.tasks cs ws → u.tasks = s.tasks ++ [pt] ∧
      ∃ cs', Placed u.kernel u.tasks cs' ws ∧ (∀ t ∈ cs, t ∈ cs') ∧ ∀ point, l = .worker point → pt ∈ cs') :
    Inv { s with toTasks := u, loc := Function.update s.loc pt (some l) } := by
  obtain ⟨⟨cs, ws, hplaced, hworker⟩, hcode⟩ := h
  obtain ⟨htasks, cs', hplaced', hsub, hself⟩ := hp cs ws hplaced
  refine ⟨⟨cs', ws, hplaced', fun t point ht => ?_⟩, fun t l' ht => ?_⟩
  · dsimp only at ht
    by_cases hne : t = pt
    · subst hne
      rw [Function.update_self] at ht
      exact hself point (Option.some.inj ht)
    · rw [Function.update_of_ne hne] at ht
      exact hsub t (hworker t point ht)
  · dsimp only at ht
    rw [htasks]
    by_cases hne : t = pt
    · exact List.mem_append_right _ (List.mem_singleton.mpr hne)
    · rw [Function.update_of_ne hne] at ht
      exact List.mem_append_left _ (hcode t l' ht)

omit [DecidableEq τ] in
/-- The task that is current where it may call is one that was created. -/
theorem Inv.current (h : Inv s) (hout : Outside s) : s.kernel.current ∈ s.tasks := h.code _ _ hout

theorem shellTask_mem {byte : ℕ} {t : τ} (h : t ∈ shellTask s.toTasks byte) : t ∈ s.tasks :=
  List.mem_of_mem_take (List.mem_of_find?_eq_some h)

/-- Enqueuing what step `i` enqueues finds it unlinked. -/
theorem enqueued_unlinked {i : Step τ δ} (hp : Placed s.kernel s.tasks cs ws) (hc : Orderly s i)
    (h : step b bt s i = some t) : ∀ u ∈ enqueued s i, u ∉ s.kernel.queue := by
  have hfresh (u : τ) (hu : u ∉ s.tasks) : u ∉ s.kernel.queue :=
    fun hmem => hu (hp.created u ((hp.queued u).mp hmem).1)
  have hlast (u : τ) (hu : s.kernel.wq.next = some u) : u ∉ s.kernel.queue := (hp.wake b hu).1.1
  intro u hu
  cases i with
  | createCfs pt pri =>
      cases hu
      exact hfresh _ (create_eq h).1
  | createWorker pt =>
      cases hu
      simp only [step, Option.ite_none_right_eq_some] at h
      obtain ⟨s₁, hs₁, -⟩ := Option.map_eq_some_iff.mp h.2
      exact hfresh _ (create_eq hs₁).1
  | run byte =>
      obtain ⟨hfound, hwaiting⟩ := Option.filter_eq_some_iff.mp hu
      exact hlast u (hc u hfound (of_decide_eq_true hwaiting))
  | irq => exact hlast u (hc u hu)
  | sgi letter arg =>
      simp only [enqueued] at hu
      split_ifs at hu with hempty
      · cases hu
      · exact hlast u (hc hempty u hu).2
  | createRt pt msec => cases hu
  | createOneshot pt msec => cases hu
  | mdelay msecs => cases hu
  | sleep byte => cases hu
  | statement => cases hu
  | job done => cases hu
  | yieldyi => cases hu

/-- What step `i` takes out of the run queue is a CFS task that is running. -/
theorem dequeued_running {i : Step τ δ} (hp : Placed s.kernel s.tasks cs ws)
    (hworker : ∀ t point, s.loc t = some (.worker point) → t ∈ cs) (hcode : ∀ t l, s.loc t = some l → t ∈ s.tasks)
    (hc : Orderly s i) (h : step b bt s i = some t) :
    ∀ u ∈ dequeued s i, u ∈ cs ∧ (s.kernel.task u).state = .taskRunning := by
  intro u hu
  cases i with
  | mdelay msecs =>
      cases hu
      simp only [step] at h
      split_ifs at h with hout
      exact ⟨(hp.kind _ (hcode _ _ hout.1)).mp hout.2, hc⟩
  | statement =>
      simp only [dequeued] at hu
      split_ifs at hu with hsleep
      · cases hu
        exact ⟨hworker _ _ hsleep, hc hsleep⟩
      · cases hu
  | sleep byte =>
      obtain ⟨hfound, hrunning⟩ := Option.filter_eq_some_iff.mp hu
      have hstate := of_decide_eq_true hrunning
      exact ⟨(hp.kind u (shellTask_mem hfound)).mp (hc u hfound hstate), hstate⟩
  | createCfs pt pri => cases hu
  | createWorker pt => cases hu
  | createRt pt msec => cases hu
  | createOneshot pt msec => cases hu
  | run byte => cases hu
  | irq => cases hu
  | sgi letter arg => cases hu
  | job done => cases hu
  | yieldyi => cases hu

theorem step_disciplined (i : Step τ δ) (hs : Inv s) (hc : Orderly s i) (h : step b bt s i = some t) :
    Disciplined s i := by
  obtain ⟨⟨cs, ws, hp, hworker⟩, hcode⟩ := hs
  constructor
  · exact enqueued_unlinked b bt hp hc h
  · intro u hu
    exact (hp.queued u).mpr (dequeued_running b bt hp hworker hcode hc h u hu)

omit [DecidableEq τ] in
theorem yieldyi_unmoved (k : Kernel τ) : Unmoved k (yieldyi k) := by
  have htask (t : τ) : place ((yieldyi k).task t) = place (k.task t) := by rw [yieldyi_task]
  unfold yieldyi at htask ⊢
  split
  · exact ⟨rfl, rfl, rfl, fun _ => rfl⟩
  · exact ⟨rfl, rfl, rfl, fun _ => rfl⟩

theorem correctYield_unmoved {k k' : Kernel τ} (h : correctYield k = some k') : Unmoved k k' := by
  obtain ⟨yieldTask, -, rfl⟩ := Option.map_eq_some_iff.mp h
  split
  · exact setTask_unmoved k k.current rfl
  · exact ⟨rfl, rfl, rfl, fun _ => rfl⟩

theorem delayStatement_inv {d : DelayLoc} (hs : Inv s) (hloc : s.loc s.kernel.current = some (.thread d))
    (h : delayStatement bt s d = some t) : Inv t := by
  have hmoves {k : Kernel τ} {d' : DelayLoc} (hu : Unmoved s.kernel k) : Inv (s.at k (.thread d')) := by
    apply hs.at
    · exact fun cs ws hp _ => ⟨ws, hp.unmoved hu⟩
    · exact ⟨_, hloc⟩
    · intro point he
      cases he
  cases d with
  | outside => cases h
  | dequeued ticks =>
      cases h
      exact hmoves ⟨rfl, rfl, rfl, fun _ => rfl⟩
  | armed =>
      obtain ⟨k, hk, rfl⟩ := Option.map_eq_some_iff.mp h
      exact hmoves (correctYield_unmoved hk)
  | corrected =>
      cases h
      exact hmoves (yieldyi_unmoved _)

theorem workerCall_placed {point : WorkerPoint} (hp : Placed k ts cs ws) (hcs : k.current ∈ cs)
    (hsleep : point = .sleep → (k.task k.current).state = .taskRunning) :
    ∃ ws', Placed (workerCall b k point) ts cs ws' := by
  cases point with
  | sleep => exact ⟨_, (hp.sleep b hcs (hsleep rfl)).2⟩
  | yield => exact ⟨ws, hp.unmoved (yieldyi_unmoved k)⟩
  | readEnq => exact ⟨ws, hp⟩
  | readDeq enqIdx => exact ⟨ws, hp⟩
  | item i enqIdx => exact ⟨ws, hp⟩
  | store enqIdx => exact ⟨ws, hp⟩

theorem workerStatement_inv {point : WorkerPoint} (hs : Inv s)
    (hloc : s.loc s.kernel.current = some (.worker point))
    (hsleep : point = .sleep → (s.kernel.task s.kernel.current).state = .taskRunning) :
    Inv (workerStatement b s point) := by
  have hat : Inv (s.at (workerCall b s.kernel point) (.worker (workqWorker s.q point).1)) := by
    apply hs.at
    · exact fun cs ws hp hworker => workerCall_placed b hp (hworker _ _ hloc) hsleep
    · exact ⟨_, hloc⟩
    · exact fun _ _ => ⟨_, hloc⟩
  exact ⟨hat.placed, hat.code⟩

theorem mdelay_inv (hs : Inv s) (hout : Outside s) (htype : (s.kernel.task s.kernel.current).type = .cfsTask)
    (hrunning : (s.kernel.task s.kernel.current).state = .taskRunning) (d : DelayLoc) :
    Inv (s.at (dequeueSeToWq b s.kernel s.kernel.current) (.thread d)) := by
  apply hs.at
  · intro cs ws hp _
    exact ⟨_, (hp.sleep b ((hp.kind _ (hs.current hout)).mp htype) hrunning).2⟩
  · exact ⟨_, hout⟩
  · intro point he
    cases he

theorem shellSleep_inv (hs : Inv s) {byte : ℕ} (hc : Orderly s (.sleep byte)) :
    Inv { s with kernel := shellSleep b s.kernel (shellTask s.toTasks byte) } := by
  apply hs.kernel
  intro cs ws hp
  cases hfound : shellTask s.toTasks byte with
  | none => exact ⟨ws, hp⟩
  | some u =>
      rw [shellSleep]
      split_ifs with hrunning
      · exact ⟨_, (hp.sleep b ((hp.kind u (shellTask_mem hfound)).mp (hc u hfound hrunning)) hrunning).2⟩
      · exact ⟨ws, hp⟩

theorem shellRun_inv (hs : Inv s) {byte : ℕ} (hc : Orderly s (.run byte)) :
    Inv { s with kernel := shellRun b s.kernel (shellTask s.toTasks byte) } := by
  apply hs.kernel
  intro cs ws hp
  cases hfound : shellTask s.toTasks byte with
  | none => exact ⟨ws, hp⟩
  | some u =>
      rw [shellRun]
      split_ifs with hwaiting
      · exact (hp.wake b (hc u hfound hwaiting)).2
      · exact ⟨ws, hp⟩

theorem wakeupWorkqWorker_inv {func : WorkFunc} {arg : Option δ} (hs : Inv s)
    (hc : ∀ u ∈ s.worker, s.kernel.wq.next = some u) (h : wakeupWorkqWorker b (enqueueWork s func arg) = some t) :
    Inv t := by
  obtain ⟨u, hu, rfl⟩ := Option.map_eq_some_iff.mp h
  have hwoken : Inv { s with kernel := enqueueSeToRunq b s.kernel u } :=
    hs.kernel fun cs ws hp => (hp.wake b (hc u hu)).2
  exact ⟨hwoken.placed, hwoken.code⟩

theorem sgiIrq_inv {letter : LetterType} {arg : Option δ} (hs : Inv s) (hc : Orderly s (.sgi letter arg))
    (h : sgiIrq b s letter arg = some t) : Inv t := by
  cases letter with
  | empty =>
      cases h
      exact hs
  | taskStat => exact wakeupWorkqWorker_inv b hs (fun u hu => (hc nofun u hu).2) h
  | taskOdev => exact wakeupWorkqWorker_inv b hs (fun u hu => (hc nofun u hu).2) h

theorem createCfsTask_inv {pri : ℕ} (hs : Inv s) (h : create s pt l (createCfsTask b s.toTasks pt pri) = some t) :
    Inv t := by
  obtain ⟨hpt, u, hu, rfl⟩ := create_eq h
  apply hs.create
  intro cs ws hp
  obtain ⟨htasks, hplaced⟩ := createCfsTask_placed b hp hpt hu
  refine ⟨htasks, _, hplaced, ?_, ?_⟩
  · exact fun u hu => List.mem_cons_of_mem _ hu
  · exact fun _ _ => List.mem_cons_self

theorem createOther_inv {type : TaskType} {timers : Tasks τ → Timers τ} {d : DelayLoc} (hs : Inv s)
    (htype : type ≠ .cfsTask) (h : create s pt (.thread d) ((forkyi s.toTasks pt type 0).map fun u =>
      { u with kernel := { u.kernel.setState pt .taskRunning with timers := timers u } }) = some t) : Inv t := by
  obtain ⟨hpt, v, hv, rfl⟩ := create_eq h
  obtain ⟨u, hu, rfl⟩ := Option.map_eq_some_iff.mp hv
  apply Inv.create (u := { u with kernel := { u.kernel.setState pt .taskRunning with timers := timers u } }) hs
  intro cs ws hp
  obtain ⟨htasks, hplaced⟩ : _ ∧ Placed { u.kernel.setState pt .taskRunning with timers := timers u } u.tasks cs ws :=
    createOther_placed hp hpt hu htype
  refine ⟨htasks, cs, hplaced, fun _ h => h, ?_⟩
  intro point he
  cases he

theorem step_inv (s : State τ δ) (i : Step τ δ) (t : State τ δ) (hs : Inv s) (hc : Orderly s i)
    (h : step b bt s i = some t) : Inv t := by
  cases i with
  | createCfs pt pri => exact createCfsTask_inv b hs h
  | createRt pt msec => exact createOther_inv hs (by decide) h
  | createOneshot pt msec => exact createOther_inv hs (by decide) h
  | createWorker pt =>
      simp only [step, Option.ite_none_right_eq_some] at h
      obtain ⟨s₁, hs₁, rfl⟩ := Option.map_eq_some_iff.mp h.2
      have hcreated := createCfsTask_inv b hs hs₁
      exact ⟨hcreated.placed, hcreated.code⟩
  | mdelay msecs =>
      simp only [step, Option.ite_none_right_eq_some] at h
      obtain ⟨⟨hout, htype⟩, ht⟩ := h
      cases ht
      exact mdelay_inv b hs hout htype hc _
  | sleep byte =>
      simp only [step, Option.ite_none_right_eq_some] at h
      obtain ⟨-, ht⟩ := h
      cases ht
      exact shellSleep_inv b hs hc
  | run byte =>
      simp only [step, Option.ite_none_right_eq_some] at h
      obtain ⟨-, ht⟩ := h
      cases ht
      exact shellRun_inv b hs hc
  | statement =>
      simp only [step, statement] at h
      cases hloc : s.loc s.kernel.current with
      | none =>
          rw [hloc] at h
          cases h
      | some l =>
          rw [hloc] at h
          cases l with
          | thread d => exact delayStatement_inv bt hs hloc h
          | worker point =>
              cases h
              apply workerStatement_inv b hs hloc
              rintro rfl
              exact hc hloc
  | irq =>
      obtain ⟨k, hk, rfl⟩ := Option.map_eq_some_iff.mp h
      exact hs.kernel fun cs ws hp => timerIrq_placed b bt hp hk hc
  | sgi letter arg => exact sgiIrq_inv b hs hc h
  | job done =>
      simp only [step, Option.ite_none_right_eq_some] at h
      obtain ⟨-, ht⟩ := h
      cases ht
      exact hs.unmoved (setTask_unmoved s.kernel _ rfl)
  | yieldyi =>
      simp only [step, Option.ite_none_right_eq_some] at h
      obtain ⟨-, ht⟩ := h
      cases ht
      exact hs.unmoved (yieldyi_unmoved s.kernel)

/-- At boot the idle task alone is linked. -/
theorem start_inv (k : Kernel τ) (pt : τ) (cpuid pid : ℕ) (q : Worker WorkFunc (Option δ)) :
    Inv (start b k pt cpuid pid q) := by
  obtain ⟨k₀, hk₀⟩ : ∃ k₀, k₀ = WaitQueueLinks.initWq
      { k.setTask pt (initIdletask (k.task pt) cpuid) with idleTask := pt, current := pt } := ⟨_, rfl⟩
  have hidle : k₀.idleTask = pt := by
    rw [hk₀]
    rfl
  have hkind : (k₀.task pt).type = .cfsTask := by
    rw [hk₀]
    exact congrArg Task.type (setTask_self k pt _)
  obtain ⟨k₁, hk₁⟩ : ∃ k₁ : Kernel τ, k₁ = { k₀ with
      runq := { root := .nil, rbLeftmost := some pt, prioritySum := 0, cfsTaskNum := 0 } } := ⟨_, rfl⟩
  have hlist : WaitList (addPriority k₁ pt) [] := by
    rw [hk₁, hk₀]
    rfl
  have hwq : (enqueueSeToRunq b k₁ pt).wq.next = none := by
    have hsame : (enqueueSeToRunq b k₁ pt).wq = (wakeState k₁ pt).wq := (updateVruntimeRunq_seOnly (wakeState k₁ pt) pt).wq
    rw [hsame, wakeState, removeFromWq_absent hlist List.not_mem_nil, hk₁, hk₀]
    rfl
  have hmoved := enqueueSeToRunq_moved b k₁ pt
  have hstate : ((enqueueSeToRunq b k₁ pt).task pt).state = .taskRunning := by
    rw [hmoved.state, if_pos rfl]
  have htype : ((enqueueSeToRunq b k₁ pt).task pt).type = .cfsTask := by
    obtain ⟨e, prev, next, he⟩ := hmoved pt
    rw [he, hk₁]
    exact hkind
  obtain ⟨hqueue, hcached⟩ := initRq_queue b k₀
  have hkernel : (start b k pt cpuid pid q).kernel = initRq b k₀ := by
    rw [hk₀]
    rfl
  have hrun : (initRq b k₀).task = (enqueueSeToRunq b k₁ pt).task ∧ (initRq b k₀).wq = (enqueueSeToRunq b k₁ pt).wq := by
    rw [hk₁, ← hidle]
    exact ⟨rfl, rfl⟩
  rw [hidle] at hqueue hcached
  have hplaced : Placed (initRq b k₀) [pt] [pt] [] := by
    constructor
    · rw [hqueue]
      exact List.nodup_singleton pt
    · rw [hqueue, hcached]
      rfl
    · exact fun t ht => ht
    · intro t ht
      rw [List.mem_singleton.mp ht, hrun.1]
      exact iff_of_true htype List.mem_cons_self
    · intro t
      rw [hqueue, List.mem_singleton]
      constructor
      · rintro rfl
        rw [hrun.1]
        exact ⟨rfl, hstate⟩
      · exact fun ht => ht.1
    · change (initRq b k₀).wq.next.map ListHead.task = none
      rw [hrun.2, hwq]
      rfl
    · exact fun t ht => absurd ht List.not_mem_nil
    · intro t
      apply iff_of_false List.not_mem_nil
      rintro ⟨ht, hwaiting⟩
      rw [List.mem_singleton.mp ht, hrun.1, hstate] at hwaiting
      cases hwaiting
    · intro t ht hnot
      exact absurd ht hnot
  have hloc (t : τ) (l : Loc) (ht : (start b k pt cpuid pid q).loc t = some l) : t = pt ∧ l = .thread .outside := by
    change (if t = pt then some (Loc.thread .outside) else none) = some l at ht
    split_ifs at ht with he
    cases ht
    exact ⟨he, rfl⟩
  constructor
  · refine ⟨[pt], [], ?_, ?_⟩
    · rw [hkernel]
      exact hplaced
    · intro t point ht
      cases (hloc t _ ht).2
  · intro t l ht
    exact List.mem_singleton.mpr (hloc t l ht).1

end Steps

/-- In every run whose steps are orderly each CFS task is where its state says in every state, and every entity that is
enqueued is unlinked and every one that is dequeued linked. -/
theorem members_of_orderly (k : Kernel τ) (pt : τ) (cpuid pid : ℕ) (q : Worker WorkFunc (Option δ)) (is : List (Step τ δ))
    (hc : Machine.StepsMeet (step b bt) Orderly (start b k pt cpuid pid q) is) :
    Machine.Always (step b bt) Member (start b k pt cpuid pid q) is ∧
      Machine.StepsMeet (step b bt) Disciplined (start b k pt cpuid pid q) is := by
  have hstart := start_inv b k pt cpuid pid q
  constructor
  · exact Machine.always_of_stepsMeet Inv (fun _ h => h.member) (step_inv b bt) hstart hc
  · exact Machine.stepsMeet_of_stepsMeet Inv (step_inv b bt) (fun _ i _ h hc hstep => step_disciplined b bt i h hc hstep)
      hstart hc

instance (s : State τ δ) (i : Step τ δ) : Decidable (Orderly s i) :=
  match i with
  | .mdelay _ => inferInstanceAs (Decidable (_ = _))
  | .statement => inferInstanceAs (Decidable (_ → _))
  | .sleep byte => inferInstanceAs (Decidable (∀ t ∈ shellTask s.toTasks byte, _ → _))
  | .run byte => inferInstanceAs (Decidable (∀ t ∈ shellTask s.toTasks byte, _ → _))
  | .irq => inferInstanceAs (Decidable (∀ t ∈ expiring s.kernel, _))
  | .sgi _ _ => inferInstanceAs (Decidable (_ → ∀ t ∈ s.worker, _))
  | .createCfs _ _ => isTrue trivial
  | .createRt _ _ => isTrue trivial
  | .createOneshot _ _ => isTrue trivial
  | .createWorker _ => isTrue trivial
  | .job _ => isTrue trivial
  | .yieldyi => isTrue trivial

/-- The idle task `0` alone. -/
def booted : State ℕ Unit :=
  start (Balancer.plain ℕ) TimerOrder.bootScheduled 0 0 1
    { enqIdx := 0, deqIdx := 0, wkq := fun _ => { func := .printTaskStat, arg := none } }

/-- The worker goes to sleep and is then woken. -/
def wokenAsleep : List (Step ℕ Unit) :=
  [.createWorker 1, .irq, .statement, .statement, .statement, .statement, .statement, .statement, .sgi .taskStat none]

theorem members_woken_asleep :
    Machine.Always (step (Balancer.plain ℕ) (Balancer.plain TimerId)) Member booted wokenAsleep ∧
      Machine.StepsMeet (step (Balancer.plain ℕ) (Balancer.plain TimerId)) Disciplined booted wokenAsleep :=
  members_of_orderly (Balancer.plain ℕ) (Balancer.plain TimerId) TimerOrder.bootScheduled 0 0 1 _ wokenAsleep
    (by decide +kernel)

/-- An interrupt that wakes the worker while it is still runnable enqueues an entity that is linked. -/
theorem worker_linked_twice :
    ∃ s t, Machine.exec (step (Balancer.plain ℕ) (Balancer.plain TimerId)) booted [.createWorker 1] = some s ∧
      step (Balancer.plain ℕ) (Balancer.plain TimerId) s (.sgi .taskStat none) = some t ∧
      ¬ Disciplined s (.sgi .taskStat none) := by
  have hrun : (Machine.exec (step (Balancer.plain ℕ) (Balancer.plain TimerId)) booted [.createWorker 1]).map
      (fun s => (s.worker, s.kernel.queue,
        (step (Balancer.plain ℕ) (Balancer.plain TimerId) s (.sgi .taskStat none)).isSome)) =
        some (some 1, [1, 0], true) := by
    decide +kernel
  obtain ⟨s, hs, hv⟩ := Option.map_eq_some_iff.mp hrun
  simp only [Prod.mk.injEq] at hv
  obtain ⟨hworker, hqueue, hstep⟩ := hv
  obtain ⟨t, ht⟩ := Option.isSome_iff_exists.mp hstep
  refine ⟨s, t, hs, ht, fun h => ?_⟩
  have hlinked : 1 ∉ s.kernel.queue := h.enqueued 1 hworker
  rw [hqueue] at hlinked
  exact hlinked List.mem_cons_self

end Slos.QueueMembers
