import Slos.KernelAlone

/-!
# The calls and the SGI run as the atomic model says

`mdelay`, `create_cfs_task`, the shell's `sleep` and `run` and `sgi_irq` on a processor that nothing interrupts. `Others`
holds what these functions share beyond the kernel: the list of all tasks with its counters, and the worker with its ring.
-/

namespace Slos.KernelCode
open Interruptible Straight Code RbTree Word
open SearchTree (BinTree Balancer treeRounds)
open QueueMembers (shellTask)
open WorkerWakeup (WorkFunc)
open Mailbox (LetterType)

variable {τ α : Type} [DecidableEq τ] {m : Mem τ} {k : Kernel τ} {o : Others τ} {p : τ} {B n : ℕ} {ws : List τ}

section Delay

omit [DecidableEq τ] in
theorem Shows.setIdx (h : Shows m k o) (idx : ℕ) :
    Shows { m with oneshotTimerIdx := idx } { k with timers := { k.timers with oneshotTimerIdx := idx } } o := by
  obtain ⟨rtCreated, hr, hp⟩ := h
  exact .mk (m := { m with oneshotTimerIdx := idx }) rtCreated hr hp

omit [DecidableEq τ] in
theorem Shows.setTimer (h : Shows m k o) (t : TimerId) (f : TimerStruct τ) :
    Shows { m with timer := Function.update m.timer t f } { k with timers := k.timers.setTimer t f } o := by
  have hset := h.setTimers (k.timers.setTimer t f).timer
  rw [h.timer]
  exact hset

omit [DecidableEq τ] in
theorem Shows.oneshotTimerIdx (h : Shows m k o) : m.oneshotTimerIdx = k.timers.oneshotTimerIdx := by
  obtain ⟨-, -, -⟩ := h
  rfl

omit [DecidableEq τ] in
theorem ends_createOneshotTimer (tc : ℕ) (hB : treeRounds k.timers.queue.length ≤ B) (h : Shows m k o)
    (hslot : .oneshot k.timers.oneshotTimerIdx ∉ k.timers.queue) : (createOneshotTimer p tc).Ends B (fun _ m' => Shows m'
      { k with timers := Slos.createOneshotTimer (Balancer.redBlack TimerId) k.timers p tc } o) m := by
  rw [← h.oneshotTimerIdx] at hslot
  obtain ⟨slot, hslot'⟩ : ∃ slot, slot = TimerId.oneshot m.oneshotTimerIdx := ⟨_, rfl⟩
  obtain ⟨k₁, hk₁⟩ : ∃ k₁, k₁ = { k with timers := k.timers.setTimer slot ⟨tc, tc, p, .oneshotTimer⟩ } := ⟨_, rfl⟩
  have hset := h.setTimer slot ⟨tc, tc, p, .oneshotTimer⟩
  have hqueue : k₁.timers.queue = k.timers.queue := by rw [hk₁]; rfl
  have hdone : { k with timers := Slos.createOneshotTimer (Balancer.redBlack TimerId) k.timers p tc } =
      { k₁ with timers := { Slos.insertTimer (Balancer.redBlack TimerId) k₁.timers slot with
        oneshotTimerIdx := if m.oneshotTimerIdx + 1 = maxOneshotTimerNum then 0 else m.oneshotTimerIdx + 1 } } := by
    rw [hk₁, hslot', h.oneshotTimerIdx]
    rfl
  rw [← hk₁] at hset
  rw [← hqueue] at hB hslot
  rw [hdone]
  simp only [createOneshotTimer, Straight.ends_bind, Straight.ends_store, Straight.ends_fetch, ← hslot',
    Function.update_self, Function.update_idem]
  refine (ends_insertTimer hB hset (hslot' ▸ hslot)).mono fun _ m' h' => ?_
  have hsame : m'.oneshotTimerIdx = m.oneshotTimerIdx := h'.oneshotTimerIdx.trans hset.oneshotTimerIdx.symm
  simp only [Straight.ends_store, Straight.ends_ite, Straight.ends_pure]
  rw [hsame]
  split_ifs
  · exact h'.setIdx 0
  · exact h'.setIdx (m.oneshotTimerIdx + 1)

theorem computes_yieldyi (h : Shows m k o) : Computes B yieldyi m (Slos.yieldyi k) o := by
  have hset := h.setCurrent
  have hpure := computes_pure (B := B) h
  obtain ⟨_, _, _⟩ := h
  refine computes_fetch (computes_fetch (computes_task ?_))
  cases hyield : (m.task m.current).yieldTask with
  | none =>
      rw [if_pos rfl]
      simpa only [Slos.yieldyi, view, hyield] using hpure
  | some yieldTask =>
      rw [if_neg (by simp)]
      simp only [Slos.yieldyi, view, Computes, quiet, Code.ends_bind, ends_disableInterrupt, ends_lift, ends_task,
        Straight.ends_fetch, hyield, Straight.ends_deref, Code.ends_ite, Straight.ends_store, ends_yieldTo]
      by_cases hrunning : (m.task yieldTask).state = .taskRunning
      · simp only [hrunning, if_true]
        exact ⟨trivial, hset yieldTask, trivial⟩
      · simp only [hrunning, if_false]
        exact ⟨trivial, hset m.idleTask, trivial⟩

theorem computes_delay {k' : Kernel τ} {ticks : ℕ} (hroom : Room B k ws) (h : Shows m k o) (hmem : k.current ∈ k.queue)
    (hslot : .oneshot k.timers.oneshotTimerIdx ∉ k.timers.queue)
    (hk : Slos.delay (Balancer.redBlack τ) (Balancer.redBlack TimerId) k ticks = some k') :
    Computes B (delay ticks) m k' o := by
  have hidle : m.idleTask = k.idleTask := by
    obtain ⟨-, -, -⟩ := h
    rfl
  obtain ⟨k₁, hk₁⟩ : ∃ k₁, k₁ = Slos.dequeueSeToWq (Balancer.redBlack τ) k k.current := ⟨_, rfl⟩
  have htimers : k₁.timers = k.timers := hk₁ ▸ dequeueSeToWq_timers (Balancer.redBlack τ) k k.current
  have hcurrent : k₁.current = k.current := hk₁ ▸ Sleepers.dequeueSeToWq_current (Balancer.redBlack τ) k k.current
  have hidle₁ : k₁.idleTask = k.idleTask := by
    rw [hk₁]
    exact (updateVruntimeRunq_seOnly _ k.current).idleTask.trans
      (addToWq_waitOnly (subPriority k k.current) k.current).idleTask
  obtain ⟨yieldTask, hyield, rfl⟩ := Option.map_eq_some_iff.mp hk
  rw [← hk₁] at hyield ⊢
  refine computes_fetch (computes_fetch ?_)
  rw [h.current, hidle]
  refine (computes_dequeueSeToWq hroom h hmem).bind fun m h => ?_
  rw [← hk₁] at h
  have hcreate := ends_createOneshotTimer (B := B) (p := k.current) ticks
    (by rw [htimers]; exact hroom.treeRoundsTimers) h (by rw [htimers]; exact hslot)
  refine (computes_lines hcreate h.current.symm).bind fun m h => computes_task ?_
  rw [← h.task]
  change Computes B (follow (k₁.task k.current).yieldTask >>= _) m _ o
  rw [hyield]
  refine computes_follow (computes_task ?_)
  rw [← h.task]
  obtain ⟨k₂, hk₂⟩ : ∃ k₂, k₂ = { k₁ with
    timers := Slos.createOneshotTimer (Balancer.redBlack TimerId) k₁.timers k.current ticks } := ⟨_, rfl⟩
  have hsame : k₂.idleTask = k.idleTask := by rw [hk₂, ← hidle₁]
  rw [← hk₂] at h ⊢
  change Computes B _ m (Slos.yieldyi (if (k₂.task yieldTask).state = .taskWaiting then k₂.setTask k.current
    { k₂.task k.current with yieldTask := some k₂.idleTask } else k₂)) o
  rw [hsame]
  split_ifs
  · exact (computes_lines (ends_setTask h k.current _) h.current.symm).bind fun m h => computes_yieldyi h
  · exact computes_yieldyi h

theorem computes_mdelay {k' : Kernel τ} {msecs : ℕ} (hroom : Room B k ws) (h : Shows m k o) (hmem : k.current ∈ k.queue)
    (hslot : .oneshot k.timers.oneshotTimerIdx ∉ k.timers.queue)
    (hk : Slos.mdelay (Balancer.redBlack τ) (Balancer.redBlack TimerId) k msecs = some k') :
    Computes B (mdelay msecs) m k' o := by
  have hticks : m.ticksPerSec = k.timers.ticksPerSec := by
    obtain ⟨-, -, -⟩ := h
    rfl
  refine computes_fetch ?_
  rw [hticks]
  exact computes_delay hroom h hmem hslot hk

end Delay

section TaskList

/-- The `next` pointers lead through `ts` from a pointer on, and after that anywhere. -/
def Follows (next : τ → Option τ) : Option τ → List τ → Prop
  | _, [] => True
  | p, t :: ts => p = some t ∧ Follows next (next t) ts

/-- The memory lists the tasks. -/
structure Lists (o : Others τ) (s : Tasks τ) : Prop where
  follows : Follows o.taskNext (some o.first) s.tasks
  last : s.tasks.getLast? = some o.last
  pid : o.pid = s.pid
  taskCreatedNum : o.taskCreatedNum = s.taskCreatedNum

omit [DecidableEq τ] in
theorem Shows.others (h : Shows m k o) : others m = o := by
  obtain ⟨-, -, -⟩ := h
  rfl

omit [DecidableEq τ] in
theorem Shows.cfsTaskNum (h : Shows m k o) : m.cfsTaskNum = k.runq.cfsTaskNum := by
  obtain ⟨-, -, -⟩ := h
  rfl

omit [DecidableEq τ] in
theorem Shows.setCfsTaskNum (h : Shows m k o) (n : ℕ) :
    Shows { m with cfsTaskNum := n } { k with runq := { k.runq with cfsTaskNum := n } } o := by
  obtain ⟨rtCreated, hr, hp⟩ := h
  exact .mk (m := { m with cfsTaskNum := n }) rtCreated hr hp

omit [DecidableEq τ] in
/-- The loop of the shell from the `j`th task on. -/
theorem ends_searchLoop (pid : ℕ) {j : ℕ} {next q : Option τ} {ts : List τ} (hfollows : Follows m.taskNext next ts)
    (hj : j ≤ m.cfsTaskNum)
    (hlen : m.cfsTaskNum ≤ j + ts.length) (hn : m.cfsTaskNum - j < n) :
    LoopEnds B n (searchRound pid) (j, next, q) (fun r m' => m' = m ∧
      (r.1 < m.cfsTaskNum → r.2 ≠ none) ∧
      (ts.take (m.cfsTaskNum - j)).find? (fun t => (m.task t).pid == pid) =
        if r.1 < m.cfsTaskNum then r.2 else none) m := by
  obtain ⟨n, rfl⟩ := Nat.exists_eq_succ_of_ne_zero (Nat.ne_zero_of_lt hn)
  induction ts generalizing j next q n with
  | nil =>
      obtain rfl : j = m.cfsTaskNum := le_antisymm hj hlen
      refine loopEnds_succ.mpr ?_
      simp [searchRound, Straight.ends_ite]
  | cons t ts ih =>
      obtain ⟨rfl, hfollows⟩ := hfollows
      rw [List.length_cons] at hlen
      refine loopEnds_succ.mpr ?_
      simp only [searchRound, Straight.ends_bind, Straight.ends_fetch, Straight.ends_ite, Straight.ends_pure,
        Straight.ends_deref,
        ends_task]
      by_cases hlt : j < m.cfsTaskNum
      · obtain ⟨i, hi⟩ : ∃ i, m.cfsTaskNum - j = i + 1 := ⟨m.cfsTaskNum - j - 1, by omega⟩
        rw [if_neg (by simpa using hlt), hi, List.take_succ_cons, List.find?_cons]
        by_cases hpid : (m.task t).pid = pid
        · rw [if_pos hpid, beq_iff_eq.mpr hpid]
          simp [hlt]
        · rw [if_neg hpid, beq_eq_false_iff_ne.mpr hpid]
          obtain ⟨n, rfl⟩ := Nat.exists_eq_succ_of_ne_zero (show n ≠ 0 by omega)
          have hnext := ih (j := j + 1) (q := some t) hfollows (by omega) (by omega) n (by omega)
          rw [show m.cfsTaskNum - (j + 1) = i by omega] at hnext
          exact hnext
      · rw [if_pos hlt]
        obtain rfl : j = m.cfsTaskNum := by omega
        simp

theorem ends_search {s : Tasks τ} {byte : ℕ} (hB : s.kernel.runq.cfsTaskNum < B) (h : Shows m s.kernel o) (hl : Lists o s)
    (hnum : s.kernel.runq.cfsTaskNum ≤ s.tasks.length) : (search byte).Ends B (fun r m' => m' = m ∧
      r = (shellTask s byte).map fun t => (t, (s.kernel.task t).state)) m := by
  have hothers := h.others
  have htask := h.task
  have hnum' := h.cfsTaskNum
  have hfollows := hl.follows
  rw [← hothers] at hfollows
  rw [← hnum'] at hB hnum
  have hloop := ends_searchLoop (B := B) (n := B) (q := none) (usub byte 0x30) hfollows (Nat.zero_le _) (by omega)
    (by omega)
  simp only [search, Straight.ends_bind, Straight.ends_fetch]
  refine (ends_iterate.mpr hloop).mono ?_
  rintro ⟨j, q⟩ m' ⟨rfl, hsome, hfind⟩
  have hshell : shellTask s byte = if j < m'.cfsTaskNum then q else none := by
    rw [shellTask, ← hnum', htask]
    exact hfind
  rw [hshell]
  simp only [Straight.ends_ite, Straight.ends_bind, Straight.ends_pure, ends_task]
  by_cases hlt : j < m'.cfsTaskNum
  · obtain ⟨t, rfl⟩ := Option.ne_none_iff_exists'.mp (hsome hlt)
    rw [if_pos hlt, if_pos hlt]
    exact (Straight.ends_deref t).mpr ⟨rfl, by rw [htask]; rfl⟩
  · simp [hlt]

theorem computes_shellSleep {s : Tasks τ} {byte : ℕ} (hroom : Room B s.kernel ws) (h : Shows m s.kernel o) (hl : Lists o s)
    (hB : s.kernel.runq.cfsTaskNum < B) (hnum : s.kernel.runq.cfsTaskNum ≤ s.tasks.length)
    (hrunning : ∀ t ∈ shellTask s byte, (s.kernel.task t).state = .taskRunning → t ∈ s.kernel.queue) :
    Computes B (shellSleep byte) m (QueueMembers.shellSleep (Balancer.redBlack τ) s.kernel (shellTask s byte)) o := by
  refine Code.ends_bind.mpr (ends_lift.mpr ((ends_search hB h hl hnum).mono ?_))
  rintro r m' ⟨rfl, rfl⟩
  cases hfound : shellTask s byte with
  | none => exact computes_pure h
  | some t =>
      rw [Option.map_some, QueueMembers.shellSleep]
      cases hstate : (s.kernel.task t).state with
      | taskRunning => exact computes_dequeueSeToWq hroom h (hrunning t hfound hstate)
      | _ => exact computes_pure h

theorem computes_shellRun {s : Tasks τ} {byte : ℕ} (hroom : Room B s.kernel ws) (h : Shows m s.kernel o) (hl : Lists o s)
    (hB : s.kernel.runq.cfsTaskNum < B) (hnum : s.kernel.runq.cfsTaskNum ≤ s.tasks.length)
    (hwaiting : ∀ t ∈ shellTask s byte, (s.kernel.task t).state = .taskWaiting → t ∉ s.kernel.queue) :
    Computes B (shellRun byte) m (QueueMembers.shellRun (Balancer.redBlack τ) s.kernel (shellTask s byte)) o := by
  refine Code.ends_bind.mpr (ends_lift.mpr ((ends_search hB h hl hnum).mono ?_))
  rintro r m' ⟨rfl, rfl⟩
  cases hfound : shellTask s byte with
  | none => exact computes_pure h
  | some t =>
      rw [Option.map_some, QueueMembers.shellRun]
      cases hstate : (s.kernel.task t).state with
      | taskWaiting => exact computes_enqueueSeToRunq hroom h (hwaiting t hfound hstate)
      | _ => exact computes_pure h

theorem follows_append {next : τ → Option τ} {pt last : τ} {q x : Option τ} {ts : List τ} (h : Follows next q ts)
    (hlast : ts.getLast? = some last) (hnd : ts.Nodup) (hpt : pt ∉ ts) :
    Follows (Function.update (Function.update next last (some pt)) pt x) q (ts ++ [pt]) := by
  induction ts generalizing q with
  | nil => cases hlast
  | cons t ts ih =>
      obtain ⟨rfl, h⟩ := h
      obtain ⟨hne, hpt⟩ := not_or.mp (List.mem_cons.not.mp hpt)
      obtain ⟨ht, hnd⟩ := List.nodup_cons.mp hnd
      cases ts with
      | nil =>
          obtain rfl : t = last := Option.some.inj hlast
          refine ⟨rfl, ?_, trivial⟩
          rw [Function.update_of_ne (Ne.symm hne), Function.update_self]
      | cons u ts =>
          rw [List.getLast?_cons_cons] at hlast
          have hlast' : t ≠ last := by
            rintro rfl
            exact ht (List.mem_of_getLast? hlast)
          refine ⟨rfl, ?_⟩
          rw [Function.update_of_ne (Ne.symm hne), Function.update_of_ne hlast']
          exact ih h hlast hnd hpt

end TaskList

section Create

/-- A node that is not linked may be written. -/
theorem linked_setNode {r : CachedRoot τ} {t : BinTree τ} {x : τ} (h : Linked r t) (hx : x ∉ t.inorder) (n : RbNode τ) :
    Linked { r with root := r.root.setNode x n } t := by
  have hstored := h.stored
  refine ⟨⟨hstored.rbNode, hstored.holds.congr fun a ha => ?_, hstored.nodup⟩, h.redBlack, h.leftmost⟩
  have hne : a ≠ x := fun heq => hx (heq ▸ ha)
  exact Function.update_of_ne hne n r.root.node

theorem ends_initNode {x : τ} (h : Shows m k o) (hx : x ∉ k.queue) :
    (onRunq (onTree (rbInitNode x))).Ends B (fun _ m' => Shows m' k o) m := by
  simp only [ends_onRunq, ends_onTree, rbInitNode, rbSetParentColor, setChild, Straight.ends_bind, Straight.ends_store]
  exact h.setRunq (linked_setNode (linked_setNode (linked_setNode (linked_setNode h.linked hx _) hx _) hx _) hx _)
    h.leftmost

omit [DecidableEq τ] in
theorem Shows.setOthers (h : Shows m k o) (o' : Others τ) : Shows { m with
    taskNext := o'.taskNext
    first := o'.first
    last := o'.last
    pid := o'.pid
    taskCreatedNum := o'.taskCreatedNum
    qworker := o'.qworker
    qworkerTask := o'.qworkerTask } k o' := by
  obtain ⟨rtCreated, hr, hp⟩ := h
  exact .mk (m := { m with
    taskNext := o'.taskNext
    first := o'.first
    last := o'.last
    pid := o'.pid
    taskCreatedNum := o'.taskCreatedNum
    qworker := o'.qworker
    qworkerTask := o'.qworkerTask }) rtCreated hr hp

/-- The list and the counters after `forkyi`. -/
def Others.fork (o : Others τ) (pt : τ) : Others τ := { o with
  taskNext := Function.update (Function.update o.taskNext o.last (some pt)) pt (some o.first)
  last := pt
  pid := u32 (o.pid + 1)
  taskCreatedNum := u32 (o.taskCreatedNum + 1) }

theorem Lists.fork {s s' : Tasks τ} {pt : τ} {type : TaskType} {pri : ℕ} (h : Lists o s) (hnd : s.tasks.Nodup)
    (hpt : pt ∉ s.tasks)
    (hs : Slos.forkyi s pt type pri = some s') : Lists (o.fork pt) s' := by
  rw [Slos.forkyi] at hs
  split_ifs at hs
  cases hs
  constructor
  · exact follows_append h.follows h.last hnd hpt
  · exact List.getLast?_concat ..
  · exact congrArg (fun n => u32 (n + 1)) h.pid
  · exact congrArg (fun n => u32 (n + 1)) h.taskCreatedNum

theorem ends_forkyi {s s' : Tasks τ} {pt : τ} {pri : ℕ} {Q : Option τ → Solo (Mem τ) Lock τ → Prop} (h : Shows m s.kernel o)
    (hl : Lists o s) (hs : Slos.forkyi s pt .cfsTask pri = some s')
    (hQ : ∀ m', Shows m' s'.kernel (o.fork pt) → Q (some pt) (quiet m')) : (forkyi pt .cfsTask pri).Ends B Q (quiet m) := by
  obtain rfl := h.others
  have hpid : s.pid = m.pid := hl.pid.symm
  obtain ⟨task, htask⟩ : ∃ task, task = forkTask (m.task pt) m.pid .cfsTask pri ((priDivShift pri).getD 0) m.current :=
    ⟨_, rfl⟩
  have hset := (h.setTasks (Function.update m.task pt task)).setOthers ((others m).fork pt)
  have hkernel : s.kernel.setTask pt (forkTask (s.kernel.task pt) s.pid .cfsTask pri
    ((priDivShift pri).getD 0) s.kernel.current) =
      { s.kernel with task := Function.update m.task pt task } := by
    rw [htask, Kernel.setTask, h.task, hpid, h.current]
  rw [Slos.forkyi] at hs
  split_ifs at hs with hpri hmax
  cases hs
  rw [← hl.taskCreatedNum] at hmax
  change ¬m.taskCreatedNum = maxTask at hmax
  simp only [forkyi, Code.ends_bind, ends_lift, Straight.ends_fetch, quiet, Code.ends_ite, Straight.ends_store,
    setTask, setSe, ends_spawnThread, Code.ends_pure, Function.update_self, Function.update_idem]
  rw [if_neg (by simpa using hpri), if_neg hmax, if_pos trivial]
  dsimp only at hQ
  rw [hkernel] at hQ
  rw [htask] at hset hQ
  exact hQ _ hset

theorem forkyi_unmoved {s s' : Tasks τ} {pt : τ} {type : TaskType} {pri : ℕ} (hs : Slos.forkyi s pt type pri = some s') :
    s'.kernel.runq = s.kernel.runq ∧ s'.kernel.wq = s.kernel.wq ∧ s'.kernel.timers = s.kernel.timers ∧
      ∀ t, (s'.kernel.task t).waitNext = (s.kernel.task t).waitNext := by
  rw [Slos.forkyi] at hs
  split_ifs at hs
  cases hs
  refine ⟨rfl, rfl, rfl, fun t => ?_⟩
  change ((s.kernel.setTask pt _).task t).waitNext = _
  by_cases ht : t = pt
  · rw [ht, Kernel.setTask_self]
    rfl
  · rw [Kernel.setTask_of_ne _ _ ht]

theorem computes_createCfsTask {s s' : Tasks τ} {pt : τ} {pri : ℕ} (hroom : Room B s.kernel ws) (h : Shows m s.kernel o)
    (hl : Lists o s) (hpt : pt ∉ s.kernel.queue) (hs : Slos.createCfsTask (Balancer.redBlack τ) s pt pri = some s') :
    Computes B (createCfsTask pt pri) m s'.kernel (o.fork pt) := by
  obtain ⟨s₁, hs₁, rfl⟩ := Option.map_eq_some_iff.mp hs
  obtain ⟨hrunq, hwq, htimers, hnext⟩ := forkyi_unmoved hs₁
  have hqueue : s₁.kernel.queue = s.kernel.queue := congrArg (fun r : CfsRq τ => r.root.inorder) hrunq
  have hroom₁ : Room B s₁.kernel ws := by
    constructor
    · rw [hwq]
      exact waits_congr hnext hroom.waits
    · exact hroom.waiting
    · exact hroom.waitingLt
    · rw [hqueue]
      exact hroom.queue
    · rw [htimers]
      exact hroom.timers
  rw [← hqueue] at hpt
  refine Code.ends_bind.mpr (ends_forkyi h hl hs₁ fun m h => ?_)
  refine computes_follow ((computes_lines (ends_initNode h hpt) h.current.symm).bind fun m h => ?_)
  refine (computes_enqueueSeToRunq hroom₁ h hpt).bind fun m h => computes_lines ?_ h.current.symm
  rw [Straight.ends_store, h.cfsTaskNum]
  exact h.setCfsTaskNum _

end Create

section Sgi

/-- The ring after `enqueue_workq`. -/
def Others.enqueue (o : Others τ) (func : WorkFunc) (arg : ℕ) : Others τ :=
  { o with qworker := (Slos.enqueueWorkq o.qworker func arg).1 }

omit [DecidableEq τ] in
theorem ends_enqueueWorkq (h : Shows m k o) (func : WorkFunc) (arg : ℕ) :
    (enqueueWorkq func arg).Ends B (fun _ m' => Shows m' k (o.enqueue func arg)) m := by
  obtain rfl := h.others
  have hset := h.setOthers ((others m).enqueue func arg)
  simp only [enqueueWorkq, Straight.ends_bind, Straight.ends_store, Straight.ends_fetch, Straight.ends_ite,
    Function.update_self,
    Function.update_idem]
  have hring : ((others m).enqueue func arg).qworker =
      ⟨if m.qworker.enqIdx = maxWorkq - 1 then 0 else m.qworker.enqIdx + 1, m.qworker.deqIdx,
        Function.update m.qworker.wkq m.qworker.enqIdx ⟨func, arg⟩⟩ := rfl
  rw [hring] at hset
  split_ifs with hwrap
  · rw [if_pos hwrap] at hset
    exact hset
  · rw [if_neg hwrap] at hset
    exact hset

theorem computes_wakeup {worker : τ} (hroom : Room B k ws) (h : Shows m k o) (hworker : o.qworkerTask = some worker)
    (hnot : worker ∉ k.queue) :
    Computes B wakeupWorkqWorker m (Slos.enqueueSeToRunq (Balancer.redBlack τ) k worker) o := by
  obtain rfl := h.others
  refine computes_fetch ?_
  rw [show m.qworkerTask = some worker from hworker]
  exact computes_follow (computes_enqueueSeToRunq hroom h hnot)

end Sgi

end Slos.KernelCode
