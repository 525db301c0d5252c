import Slos.WaitQueue

/-!
# The CFS run queue

`runq.c`, `dequeue_se_to_wq` of `waitq.c`, and `update_current` and `schedule` of `sched.c`. The
vendored `rb_insert_color` and `rb_erase` are a `Balancer`, and `rb_next` is the in-order successor.
A function that follows a `NULL` pointer to a task has no result.
-/

namespace Slos
open Word SearchTree Kernel

variable {τ : Type}

/-- `k'` differs from `k` only in scheduling entities. -/
structure SeOnly (k k' : Kernel τ) : Prop where
  runq : k'.runq = k.runq
  wq : k'.wq = k.wq
  timers : k'.timers = k.timers
  current : k'.current = k.current
  idleTask : k'.idleTask = k.idleTask
  jiffies : k'.jiffies = k.jiffies
  nullVruntime : k'.nullVruntime = k.nullVruntime
  task : ∀ t, k'.task t = { k.task t with se := (k'.task t).se }

theorem SeOnly.trans {k k' k'' : Kernel τ} (h : SeOnly k k') (h' : SeOnly k' k'') :
    SeOnly k k'' := by
  refine ⟨h'.runq.trans h.runq, h'.wq.trans h.wq, h'.timers.trans h.timers,
    h'.current.trans h.current, h'.idleTask.trans h.idleTask, h'.jiffies.trans h.jiffies,
    h'.nullVruntime.trans h.nullVruntime, fun t => ?_⟩
  rw [h'.task t, h.task t]

/-- `k'` has the run-queue tree, the entities and the current task of `k`. -/
structure SameSched (k k' : Kernel τ) : Prop where
  root : k'.runq.root = k.runq.root
  rbLeftmost : k'.runq.rbLeftmost = k.runq.rbLeftmost
  current : k'.current = k.current
  se : ∀ t, k'.se t = k.se t
  type : ∀ t, (k'.task t).type = (k.task t).type

theorem SameSched.queue {k k' : Kernel τ} (h : SameSched k k') : k'.queue = k.queue :=
  congrArg BinTree.inorder h.root

theorem SameSched.vruntime {k k' : Kernel τ} (h : SameSched k k') (t : τ) :
    k'.vruntime t = k.vruntime t :=
  congrArg SchedEntity.jiffiesVruntime (h.se t)

theorem WaitOnly.sameSched {k k' : Kernel τ} (h : WaitOnly k k') : SameSched k k' :=
  ⟨congrArg CfsRq.root h.runq, congrArg CfsRq.rbLeftmost h.runq, h.current, h.se, h.type⟩

variable [DecidableEq τ] (b : Balancer τ)

/-- `if (leftmost) this_runq->rb_leftmost = &se->run_node`. -/
def cacheLeftmost (leftmost : Bool) (se : τ) (cached : Option τ) : Option τ :=
  if leftmost then some se else cached

/-- `enqueue_se` turns left at an entry whose vruntime is not below `value`. -/
def enqueueLeft (k : Kernel τ) (value : ℕ) (entry : τ) : Bool := decide (value ≤ k.vruntime entry)

def enqueueSe (k : Kernel τ) (se : τ) : Kernel τ :=
  let goLeft := enqueueLeft k (k.vruntime se)
  { k with
    runq :=
      { k.runq with
        root := b.insert goLeft se k.runq.root
        rbLeftmost := cacheLeftmost (k.runq.root.allLeft goLeft) se k.runq.rbLeftmost } }

def dequeueSe (k : Kernel τ) (se : τ) : Kernel τ :=
  { k with
    runq :=
      { k.runq with
        root := b.erase se k.runq.root
        rbLeftmost := if k.runq.rbLeftmost = some se then k.runq.root.next se
          else k.runq.rbLeftmost } }

/-- The two assignments of `update_vruntime_runq` to one entity, for a leftmost vruntime `l`. -/
def normal (l : ℕ) (e : SchedEntity) : SchedEntity :=
  let consumed := l >>> e.priDivShift
  { e with jiffiesConsumed := consumed, jiffiesVruntime := u32 (consumed * e.priority) }

def renorm (leftmost : τ) (k : Kernel τ) (t : τ) : Kernel τ :=
  k.setSe t (normal (k.vruntime leftmost) (k.se t))

def updateVruntimeRunq (k : Kernel τ) (se : τ) : Kernel τ :=
  match k.runq.rbLeftmost with
  | none => k
  | some leftmost => (k.runq.root.walk leftmost).foldl (renorm leftmost) (renorm leftmost k se)

def addPriority (k : Kernel τ) (se : τ) : Kernel τ :=
  { k with
    runq := { k.runq with prioritySum := u32 (k.runq.prioritySum + (k.se se).priority) } }

def subPriority (k : Kernel τ) (se : τ) : Kernel τ :=
  { k with
    runq := { k.runq with prioritySum := usub k.runq.prioritySum (k.se se).priority } }

/-- What `enqueue_se_to_runq` does before it takes the lock. -/
def wakeState (k : Kernel τ) (se : τ) : Kernel τ :=
  (removeFromWq (addPriority k se) se).setState se .taskRunning

/-- What `dequeue_se_to_wq` does before it takes the lock. -/
def sleepState (k : Kernel τ) (se : τ) : Kernel τ :=
  (addToWq (subPriority k se) se).setState se .taskWaiting

def enqueueSeToRunq (k : Kernel τ) (se : τ) : Kernel τ :=
  enqueueSe b (updateVruntimeRunq (wakeState k se) se) se

def dequeueSeToWq (k : Kernel τ) (se : τ) : Kernel τ :=
  dequeueSe b (updateVruntimeRunq (sleepState k se) se) se

def initRq (k : Kernel τ) : Kernel τ :=
  let k := enqueueSeToRunq b { k with
    runq := { root := .nil, rbLeftmost := some k.idleTask, prioritySum := 0, cfsTaskNum := 0 } }
    k.idleTask
  { k with runq := { k.runq with cfsTaskNum := k.runq.cfsTaskNum + 1 } }

def updateSe (k : Kernel τ) : Option (Kernel τ) :=
  k.runq.rbLeftmost.map fun cur =>
    let nextVruntime := match k.runq.root.next cur with
      | none => k.nullVruntime
      | some next => k.vruntime next
    if nextVruntime < k.vruntime cur then enqueueSe b (dequeueSe b k cur) cur else k

def updateCurrent (k : Kernel τ) (elapsed : ℕ) : Kernel τ :=
  let e := k.se k.current
  let ticks := (e.ticksConsumed + elapsed) % 2 ^ 64
  match (k.task k.current).type with
  | .cfsTask =>
      let consumed := u32 (e.jiffiesConsumed + 1)
      { k.setSe k.current { e with
          jiffiesConsumed := consumed, ticksConsumed := ticks
          jiffiesVruntime := u32 (consumed * e.priority) } with jiffies := u32 (k.jiffies + 1) }
  | .rtTask => k.setSe k.current { e with ticksConsumed := ticks }
  | .oneshotTask => k

/-- The task `schedule` switches to; the switch itself only moves register contexts. -/
def schedule (k : Kernel τ) : Option (Kernel τ) :=
  k.runq.rbLeftmost.map fun next => { k with current := next }

/-- An entity as `forkyi` and `init_idletask` set it up and the scheduler keeps it. -/
structure SchedEntity.Ok (e : SchedEntity) : Prop where
  shift : e.priDivShift ≤ 4
  priority : e.priority = 1 <<< e.priDivShift
  dvd : e.priority ∣ e.jiffiesVruntime
  lt : e.jiffiesVruntime < size

theorem SchedEntity.Ok.priority_eq {e : SchedEntity} (h : e.Ok) :
    e.priority = 2 ^ e.priDivShift := by
  rw [h.priority, Nat.shiftLeft_eq, Nat.one_mul]

/-- A multiple of a priority stays one when it wraps. -/
theorem SchedEntity.Ok.dvd_u32_mul {e : SchedEntity} (h : e.Ok) (n : ℕ) :
    e.priority ∣ u32 (n * e.priority) := by
  have hsize : e.priority ∣ size := by
    rw [h.priority_eq]
    exact (Nat.pow_dvd_pow 2 (h.shift.trans (by decide : 4 ≤ 32))).trans (by decide)
  exact (Nat.dvd_mod_iff hsize).mpr (Nat.dvd_mul_left _ n)

theorem normal_vruntime {e : SchedEntity} (h : e.Ok) {l : ℕ} (hl : l < size) :
    (normal l e).jiffiesVruntime = l - l % e.priority := by
  have hdiv : (l >>> e.priDivShift) * e.priority = l - l % e.priority := by
    rw [Nat.shiftRight_eq_div_pow, ← h.priority_eq, Nat.mul_comm]
    have := Nat.div_add_mod l e.priority
    omega
  change u32 ((l >>> e.priDivShift) * e.priority) = _
  rw [hdiv, u32_of_lt ((Nat.sub_le _ _).trans_lt hl)]

theorem normal_ok {e : SchedEntity} (h : e.Ok) (l : ℕ) : (normal l e).Ok :=
  ⟨h.shift, h.priority, h.dvd_u32_mul _, u32_lt _⟩

@[simp] theorem normal_normal (l : ℕ) (e : SchedEntity) : normal l (normal l e) = normal l e := rfl

theorem setSe_seOnly (k : Kernel τ) (t : τ) (e : SchedEntity) : SeOnly k (k.setSe t e) := by
  refine ⟨rfl, rfl, rfl, rfl, rfl, rfl, rfl, fun u => ?_⟩
  by_cases hu : u = t
  · subst hu
    simp [setSe]
  · simp [setSe, setTask_of_ne k _ hu]

theorem foldl_renorm_seOnly (leftmost : τ) (ts : List τ) (k : Kernel τ) :
    SeOnly k (ts.foldl (renorm leftmost) k) := by
  induction ts generalizing k with
  | nil => exact ⟨rfl, rfl, rfl, rfl, rfl, rfl, rfl, fun _ => rfl⟩
  | cons t ts ih => exact (setSe_seOnly k t _).trans (ih _)

theorem updateVruntimeRunq_seOnly (k : Kernel τ) (se : τ) :
    SeOnly k (updateVruntimeRunq k se) := by
  unfold updateVruntimeRunq
  split
  · exact ⟨rfl, rfl, rfl, rfl, rfl, rfl, rfl, fun _ => rfl⟩
  · exact (setSe_seOnly k se _).trans (foldl_renorm_seOnly _ _ _)

theorem renorm_se (leftmost : τ) (k : Kernel τ) (t u : τ) :
    (renorm leftmost k t).se u =
      if u = t then normal (k.vruntime leftmost) (k.se u) else k.se u := by
  by_cases hu : u = t
  · rw [if_pos hu, hu, renorm, setSe_self]
  · rw [if_neg hu, renorm, setSe_of_ne k _ hu]

/-- The loop of `update_vruntime_runq`, when it leaves the leftmost vruntime as it is. -/
theorem foldl_renorm_se {leftmost : τ} {k : Kernel τ}
    (hl : (normal (k.vruntime leftmost) (k.se leftmost)).jiffiesVruntime = k.vruntime leftmost)
    (ts : List τ) (u : τ) : (ts.foldl (renorm leftmost) k).se u =
      if u ∈ ts then normal (k.vruntime leftmost) (k.se u) else k.se u := by
  induction ts generalizing k with
  | nil => rfl
  | cons t ts ih =>
      have hkeep : (renorm leftmost k t).vruntime leftmost = k.vruntime leftmost := by
        rw [vruntime, renorm_se]
        split
        · exact hl
        · rfl
      have hl' : (normal ((renorm leftmost k t).vruntime leftmost)
          ((renorm leftmost k t).se leftmost)).jiffiesVruntime =
          (renorm leftmost k t).vruntime leftmost := by
        rw [hkeep, renorm_se]
        split
        · rw [normal_normal]
          exact hl
        · exact hl
      rw [List.foldl_cons, ih hl', hkeep, renorm_se]
      by_cases hu : u = t
      · subst hu
        simp
      · simp [hu]

theorem updateVruntimeRunq_se {k : Kernel τ} {leftmost : τ}
    (hcached : k.runq.rbLeftmost = some leftmost) (hhead : k.queue.head? = some leftmost)
    (hl : (normal (k.vruntime leftmost) (k.se leftmost)).jiffiesVruntime = k.vruntime leftmost)
    (se u : τ) : (updateVruntimeRunq k se).se u =
      if u ∈ k.queue ∨ u = se then normal (k.vruntime leftmost) (k.se u) else k.se u := by
  have hfold : updateVruntimeRunq k se = (se :: k.queue).foldl (renorm leftmost) k := by
    unfold updateVruntimeRunq
    rw [hcached, List.foldl_cons, queue, ← BinTree.walk_head hhead]
  rw [hfold, foldl_renorm_se hl]
  simp [or_comm]

theorem SameSched.setState {k k' : Kernel τ} (h : SameSched k k') (t : τ) (st : TaskState) :
    SameSched k (k'.setState t st) := by
  refine ⟨h.root, h.rbLeftmost, h.current, fun u => ?_, fun u => ?_⟩
  · rw [← h.se u, Kernel.se, Kernel.se, Kernel.setState]
    by_cases hu : u = t
    · rw [hu, setTask_self]
    · rw [setTask_of_ne _ _ hu]
  · rw [← h.type u, Kernel.setState]
    by_cases hu : u = t
    · rw [hu, setTask_self]
    · rw [setTask_of_ne _ _ hu]

theorem wakeState_sameSched (k : Kernel τ) (se : τ) : SameSched k (wakeState k se) := by
  have h := (removeFromWq_waitOnly (addPriority k se) se).sameSched
  have h' : SameSched k (removeFromWq (addPriority k se) se) :=
    ⟨h.root, h.rbLeftmost, h.current, h.se, h.type⟩
  exact h'.setState se .taskRunning

theorem sleepState_sameSched (k : Kernel τ) (se : τ) : SameSched k (sleepState k se) := by
  have h := (addToWq_waitOnly (subPriority k se) se).sameSched
  have h' : SameSched k (addToWq (subPriority k se) se) :=
    ⟨h.root, h.rbLeftmost, h.current, h.se, h.type⟩
  exact h'.setState se .taskWaiting

theorem updateVruntimeRunq_queue (k : Kernel τ) (se : τ) :
    (updateVruntimeRunq k se).queue = k.queue := by
  rw [queue, (updateVruntimeRunq_seOnly k se).runq, queue]

theorem renorm_ok {k : Kernel τ} (h : ∀ t, (k.se t).Ok) (leftmost u t : τ) :
    ((renorm leftmost k u).se t).Ok := by
  rw [renorm_se]
  split
  · exact normal_ok (h t) _
  · exact h t

theorem foldl_renorm_ok {k : Kernel τ} (h : ∀ t, (k.se t).Ok) (leftmost : τ) (ts : List τ) :
    ∀ t, ((ts.foldl (renorm leftmost) k).se t).Ok := by
  induction ts generalizing k with
  | nil => exact h
  | cons u ts ih => exact ih (renorm_ok h leftmost u)

theorem updateVruntimeRunq_ok {k : Kernel τ} (h : ∀ t, (k.se t).Ok) (se t : τ) :
    ((updateVruntimeRunq k se).se t).Ok := by
  unfold updateVruntimeRunq
  split
  · exact h t
  · exact foldl_renorm_ok (renorm_ok h _ se) _ _ t

theorem enqueueSe_queue {k : Kernel τ} (hnd : k.queue.Nodup) {se : τ} (hse : se ∉ k.queue) :
    (enqueueSe b k se).queue =
      (k.runq.root.link (enqueueLeft k (k.vruntime se)) se).inorder :=
  Balancer.inorder_insert hnd hse

theorem enqueueSe_leftmost {k : Kernel τ} (hnd : k.queue.Nodup) {se : τ} (hse : se ∉ k.queue)
    (hcached : k.runq.rbLeftmost = k.queue.head?) :
    (enqueueSe b k se).runq.rbLeftmost = (enqueueSe b k se).queue.head? := Balancer.head_insert hnd hse hcached

theorem dequeueSe_queue {k : Kernel τ} (hnd : k.queue.Nodup) {se : τ} (hse : se ∈ k.queue) :
    (dequeueSe b k se).queue = k.queue.erase se :=
  b.inorder_erase se _ hnd hse

theorem dequeueSe_leftmost {k : Kernel τ} (hnd : k.queue.Nodup) {se : τ} (hse : se ∈ k.queue)
    (hcached : k.runq.rbLeftmost = k.queue.head?) :
    (dequeueSe b k se).runq.rbLeftmost = (dequeueSe b k se).queue.head? := by
  rw [dequeueSe_queue b hnd hse, dequeueSe, hcached]
  exact BinTree.head_erase hse

theorem enqueueSeToRunq_queue {k : Kernel τ} (hnd : k.queue.Nodup) (hcached : k.runq.rbLeftmost = k.queue.head?)
    {se : τ} (hse : se ∉ k.queue) : (enqueueSeToRunq b k se).queue.Perm (se :: k.queue) ∧
      (enqueueSeToRunq b k se).runq.rbLeftmost = (enqueueSeToRunq b k se).queue.head? := by
  have hsched := wakeState_sameSched k se
  have hqueue : (updateVruntimeRunq (wakeState k se) se).queue = k.queue :=
    (updateVruntimeRunq_queue _ se).trans hsched.queue
  have hleft : (updateVruntimeRunq (wakeState k se) se).runq.rbLeftmost = k.runq.rbLeftmost := by
    rw [(updateVruntimeRunq_seOnly (wakeState k se) se).runq, hsched.rbLeftmost]
  obtain ⟨k₁, hk₁⟩ : ∃ k₁, k₁ = updateVruntimeRunq (wakeState k se) se := ⟨_, rfl⟩
  rw [enqueueSeToRunq, ← hk₁]
  rw [← hk₁] at hqueue hleft
  rw [← hqueue] at hnd hse hcached ⊢
  rw [← hleft] at hcached
  exact ⟨b.perm_insert hnd hse, enqueueSe_leftmost b hnd hse hcached⟩

theorem dequeueSeToWq_queue {k : Kernel τ} (hnd : k.queue.Nodup) (hcached : k.runq.rbLeftmost = k.queue.head?)
    {se : τ} (hse : se ∈ k.queue) : (dequeueSeToWq b k se).queue = k.queue.erase se ∧
      (dequeueSeToWq b k se).runq.rbLeftmost = (dequeueSeToWq b k se).queue.head? := by
  have hsched := sleepState_sameSched k se
  have hqueue : (updateVruntimeRunq (sleepState k se) se).queue = k.queue :=
    (updateVruntimeRunq_queue _ se).trans hsched.queue
  have hleft : (updateVruntimeRunq (sleepState k se) se).runq.rbLeftmost = k.runq.rbLeftmost := by
    rw [(updateVruntimeRunq_seOnly (sleepState k se) se).runq, hsched.rbLeftmost]
  obtain ⟨k₁, hk₁⟩ : ∃ k₁, k₁ = updateVruntimeRunq (sleepState k se) se := ⟨_, rfl⟩
  rw [dequeueSeToWq, ← hk₁]
  rw [← hk₁] at hqueue hleft
  rw [← hqueue] at hnd hse hcached ⊢
  rw [← hleft] at hcached
  exact ⟨dequeueSe_queue b hnd hse, dequeueSe_leftmost b hnd hse hcached⟩

/-- `update_se` puts back the entity it takes out. -/
theorem updateSe_perm {k k' : Kernel τ} (hnd : k.queue.Nodup) (hcached : k.runq.rbLeftmost = k.queue.head?)
    (h : updateSe b k = some k') :
    k'.queue.Perm k.queue ∧ k'.runq.rbLeftmost = k'.queue.head? ∧ k'.task = k.task ∧ k'.idleTask = k.idleTask := by
  obtain ⟨cur, hcur, rfl⟩ := Option.map_eq_some_iff.mp h
  dsimp only
  split_ifs
  · have hmem : cur ∈ k.queue := List.mem_of_head? (hcached ▸ hcur)
    have hqueue := dequeueSe_queue b hnd hmem
    have hnd' : (dequeueSe b k cur).queue.Nodup := hqueue ▸ hnd.erase cur
    have hnew : cur ∉ (dequeueSe b k cur).queue := by
      rw [hqueue]
      exact hnd.not_mem_erase
    have hcached' := dequeueSe_leftmost b hnd hmem hcached
    have hperm : (enqueueSe b (dequeueSe b k cur) cur).queue.Perm k.queue := by
      refine (b.perm_insert hnd' hnew).trans ?_
      change (cur :: (dequeueSe b k cur).queue).Perm k.queue
      rw [hqueue]
      exact (List.perm_cons_erase hmem).symm
    exact ⟨hperm, enqueueSe_leftmost b hnd' hnew hcached', rfl, rfl⟩
  · exact ⟨List.Perm.refl _, hcached, rfl, rfl⟩

theorem wakeState_timers (k : Kernel τ) (se : τ) : (wakeState k se).timers = k.timers :=
  (removeFromWq_waitOnly (addPriority k se) se).timers

@[simp] theorem enqueueSeToRunq_timers (k : Kernel τ) (se : τ) :
    (enqueueSeToRunq b k se).timers = k.timers :=
  (updateVruntimeRunq_seOnly _ se).timers.trans (wakeState_timers k se)

theorem updateSe_timers {k k' : Kernel τ} (h : updateSe b k = some k') :
    k'.timers = k.timers := by
  obtain ⟨cur, -, rfl⟩ := Option.map_eq_some_iff.mp h
  dsimp only
  split_ifs <;> rfl

omit [DecidableEq τ] in
theorem schedule_timers {k k' : Kernel τ} (h : schedule k = some k') : k'.timers = k.timers := by
  obtain ⟨next, -, rfl⟩ := Option.map_eq_some_iff.mp h
  rfl

@[simp] theorem updateCurrent_timers (k : Kernel τ) (elapsed : ℕ) :
    (updateCurrent k elapsed).timers = k.timers := by
  unfold updateCurrent
  split <;> rfl

/-- `init_rq` leaves the idle task as the only entity queued. -/
theorem initRq_queue (k : Kernel τ) :
    (initRq b k).queue = [k.idleTask] ∧ (initRq b k).runq.rbLeftmost = some k.idleTask := by
  let k₀ : Kernel τ := { k with
    runq := { root := .nil, rbLeftmost := some k.idleTask, prioritySum := 0, cfsTaskNum := 0 } }
  let k₁ := updateVruntimeRunq (wakeState k₀ k.idleTask) k.idleTask
  have hs := wakeState_sameSched k₀ k.idleTask
  have hse := updateVruntimeRunq_seOnly (wakeState k₀ k.idleTask) k.idleTask
  have hroot : k₁.runq.root = .nil := (congrArg CfsRq.root hse.runq).trans hs.root
  have hempty : k₁.queue = [] := congrArg BinTree.inorder hroot
  have hidle : k.idleTask ∉ k₁.queue := by rw [hempty]; exact List.not_mem_nil
  constructor
  · have hlink := enqueueSe_queue b (hempty ▸ List.nodup_nil) hidle
    rw [hroot] at hlink
    exact hlink
  · change cacheLeftmost (k₁.runq.root.allLeft _) k.idleTask _ = _
    rw [hroot]
    rfl

/-- What moving an entity between the queues does to a task: its entity, its list node, and the state
of the task that is moved. -/
def Moved (se : τ) (st : TaskState) (k k' : Kernel τ) : Prop :=
  ∀ t, ∃ e prev next, k'.task t = { k.task t with
    se := e, waitPrev := prev, waitNext := next, state := if t = se then st else (k.task t).state }

theorem moved_setState {k k' : Kernel τ} (h : ∀ t, k'.task t = { k.task t with
      waitPrev := (k'.task t).waitPrev, waitNext := (k'.task t).waitNext }) (se : τ) (st : TaskState)
    {k'' : Kernel τ} (hse : ∀ t, k''.task t = { (k'.setState se st).task t with se := (k''.task t).se }) :
    Moved se st k k'' := by
  intro t
  refine ⟨(k''.task t).se, (k'.task t).waitPrev, (k'.task t).waitNext, ?_⟩
  rw [hse t, Kernel.setState]
  by_cases ht : t = se
  · subst ht
    rw [setTask_self, if_pos rfl, h t]
  · rw [setTask_of_ne _ _ ht, if_neg ht, h t]

theorem enqueueSeToRunq_moved (k : Kernel τ) (se : τ) :
    Moved se .taskRunning k (enqueueSeToRunq b k se) := by
  have hwait := removeFromWq_waitOnly (addPriority k se) se
  exact moved_setState hwait.task se .taskRunning (updateVruntimeRunq_seOnly (wakeState k se) se).task

theorem dequeueSeToWq_moved (k : Kernel τ) (se : τ) :
    Moved se .taskWaiting k (dequeueSeToWq b k se) := by
  have hwait := addToWq_waitOnly (subPriority k se) se
  exact moved_setState hwait.task se .taskWaiting (updateVruntimeRunq_seOnly (sleepState k se) se).task

theorem Moved.state {k k' : Kernel τ} {se : τ} {st : TaskState} (h : Moved se st k k') (t : τ) :
    (k'.task t).state = if t = se then st else (k.task t).state := by
  obtain ⟨e, prev, next, ht⟩ := h t
  rw [ht]

theorem Moved.yieldTask {k k' : Kernel τ} {se : τ} {st : TaskState} (h : Moved se st k k') (t : τ) :
    (k'.task t).yieldTask = (k.task t).yieldTask := by
  obtain ⟨e, prev, next, ht⟩ := h t
  rw [ht]

@[simp] theorem enqueueSeToRunq_current (k : Kernel τ) (se : τ) :
    (enqueueSeToRunq b k se).current = k.current :=
  (updateVruntimeRunq_seOnly _ se).current.trans (wakeState_sameSched k se).current

@[simp] theorem enqueueSeToRunq_idleTask (k : Kernel τ) (se : τ) :
    (enqueueSeToRunq b k se).idleTask = k.idleTask :=
  (updateVruntimeRunq_seOnly _ se).idleTask.trans (removeFromWq_waitOnly (addPriority k se) se).idleTask

/-- The idle task `0` before `init_rq`, and tasks forked with priority 1. -/
def bootKernel : Kernel ℕ where
  task t := if t = 0 then initIdletask rawTask 0 else forkTask rawTask t .cfsTask 1 0 0
  runq := { root := .nil, rbLeftmost := none, prioritySum := 0, cfsTaskNum := 0 }
  wq := { next := none, count := 0 }
  timers :=
    { root := .nil, rbLeftmost := none
      timer := fun _ => { tc := 0, intvl := 0, pt := 0, type := .oneshotTimer }
      oneshotTimerIdx := 0, rtCreated := 0, ticksPerSec := 333333343, load := 0 }
  current := 0
  idleTask := 0
  jiffies := 0
  nullVruntime := 0

end Slos
