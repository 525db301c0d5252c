import Slos.KernelAlone

/-!
# The atomic machine of the scheduler

Its steps are the interrupts and the calls as the functions of the atomic model, each at once. `Disciplined` is what the
scheduler relies on: only an unlinked entity is enqueued and only a linked one dequeued, and a oneshot timer is started in a
slot that is free. Then every pointer of the scheduler leads to a created task, no task is in both queues, and there are
never more tasks than `MAX_TASK`.
-/

namespace Slos.KernelCode
open Word Kernel
open SearchTree (Balancer BinTree)
open QueueMembers (Unmoved place place_eq_iff shellTask expiring)
open WorkerWakeup (WorkFunc)
open Mailbox (LetterType)
open YieldChain (yieldOf)

variable {τ : Type} [DecidableEq τ]

/-- What the functions share: the kernel, the list of all tasks with its counters, and the worker with its ring. -/
structure System (τ : Type) extends Tasks τ where
  q : Worker WorkFunc ℕ
  worker : Option τ

namespace System

/-- `enqueue_workq` and `wakeup_workq_worker`. -/
def wake (s : System τ) (func : WorkFunc) (arg : ℕ) : Option (System τ) :=
  s.worker.map fun worker => { s with
    kernel := Slos.enqueueSeToRunq (Balancer.redBlack τ) s.kernel worker
    q := (Slos.enqueueWorkq s.q func arg).1 }

def irq (s : System τ) : Source → Option (System τ)
  | .timer => (Slos.timerIrq (Balancer.redBlack τ) (Balancer.redBlack TimerId) s.kernel).map fun k => { s with kernel := k }
  | .sgi .empty _ => some s
  | .sgi .taskStat _ => s.wake .printTaskStat 0
  | .sgi .taskOdev arg => s.wake .createOdevTask arg

/-- The memory of a new task is not that of a task. -/
def call (s : System τ) : Call τ → Option (System τ)
  | .mdelay msecs => (Slos.mdelay (Balancer.redBlack τ) (Balancer.redBlack TimerId) s.kernel msecs).map fun k =>
      { s with kernel := k }
  | .createCfsTask pt pri =>
      if pt ∈ s.tasks then none
      else (Slos.createCfsTask (Balancer.redBlack τ) s.toTasks pt pri).map fun u => { s with toTasks := u }
  | .sleep byte => some { s with
      kernel := QueueMembers.shellSleep (Balancer.redBlack τ) s.kernel (shellTask s.toTasks byte) }
  | .run byte => some { s with
      kernel := QueueMembers.shellRun (Balancer.redBlack τ) s.kernel (shellTask s.toTasks byte) }

def step (s : System τ) : Source ⊕ Call τ → Option (System τ)
  | .inl source => s.irq source
  | .inr c => s.call c

/-- What the step passes to `enqueue_se_to_runq`, a new task apart. -/
def enqueued (s : System τ) : Source ⊕ Call τ → Option τ
  | .inl .timer => expiring s.kernel
  | .inl (.sgi letter _) => if letter = .empty then none else s.worker
  | .inr (.run byte) => (shellTask s.toTasks byte).filter fun t => (s.kernel.task t).state = .taskWaiting
  | _ => none

/-- What the step passes to `dequeue_se_to_wq`. -/
def dequeued (s : System τ) : Source ⊕ Call τ → Option τ
  | .inr (.mdelay _) => some s.kernel.current
  | .inr (.sleep byte) => (shellTask s.toTasks byte).filter fun t => (s.kernel.task t).state = .taskRunning
  | _ => none

/-- The slot in which the step starts a oneshot timer. -/
def armed (s : System τ) : Source ⊕ Call τ → Option TimerId
  | .inr (.mdelay _) => some (.oneshot s.kernel.timers.oneshotTimerIdx)
  | _ => none

structure Disciplined (s : System τ) (x : Source ⊕ Call τ) : Prop where
  enqueued : ∀ t ∈ s.enqueued x, t ∉ s.kernel.queue
  dequeued : ∀ t ∈ s.dequeued x, t ∈ s.kernel.queue
  armed : ∀ t ∈ s.armed x, t ∉ s.kernel.timers.queue

instance (s : System τ) (x : Source ⊕ Call τ) : Decidable (s.Disciplined x) :=
  decidable_of_iff ((∀ t ∈ s.enqueued x, t ∉ s.kernel.queue) ∧ (∀ t ∈ s.dequeued x, t ∈ s.kernel.queue) ∧
    ∀ t ∈ s.armed x, t ∉ s.kernel.timers.queue) ⟨fun h => ⟨h.1, h.2.1, h.2.2⟩, fun h => ⟨h.1, h.2, h.3⟩⟩

end System

/-- The tasks of the two queues are created, and no task is in both; those in the wait queue all point back at its head. -/
structure Parted (k : Kernel τ) (ts ws : List τ) : Prop where
  queued : ∀ t ∈ k.queue, t ∈ ts
  waits : Waits k.task k.wq.next ws
  back : ∀ t ∈ ws, (k.task t).waitPrev = some .head
  nodup : ws.Nodup
  waiting : ∀ t ∈ ws, t ∈ ts ∧ t ∉ k.queue

/-- Every pointer of the scheduler leads to a created task. -/
structure Closed (k : Kernel τ) (ts : List τ) : Prop where
  current : k.current ∈ ts
  idle : k.idleTask ∈ ts
  yields : ∀ t ∈ ts, ∀ y ∈ (k.task t).yieldTask, y ∈ ts
  timed : ∀ t ∈ k.timers.queue, (k.timers.timer t).pt ∈ ts

section Queues

variable {k k' : Kernel τ} {ts ts' ws : List τ} {p : τ}

omit [DecidableEq τ] in
theorem Waits.append {task : τ → Task τ} {q : Option τ} {l r : List τ} (h : Waits task q (l ++ p :: r)) :
    Waits task (task p).waitNext r := by
  induction l generalizing q with
  | nil => exact h.2
  | cons w l ih => exact ih h.2

omit [DecidableEq τ] in
theorem Waits.congr {task task' : τ → Task τ} {q : Option τ} (h : Waits task q ws)
    (heq : ∀ t ∈ ws, (task' t).waitNext = (task t).waitNext) : Waits task' q ws := by
  induction ws generalizing q with
  | nil => exact h
  | cons w ws ih =>
      refine ⟨h.1, ?_⟩
      rw [heq w List.mem_cons_self]
      exact ih h.2 fun t ht => heq t (List.mem_cons_of_mem _ ht)

/-- A task that points back at the head is unlinked together with all tasks before it. -/
theorem unlinkWait_first {l r : List τ} (hwaits : Waits k.task k.wq.next (l ++ p :: r)) (hnd : (l ++ p :: r).Nodup)
    (hback : ∀ t ∈ l ++ p :: r, (k.task t).waitPrev = some .head) :
    (Slos.unlinkWait k p).wq.next = (k.task p).waitNext ∧ ∀ t, t ≠ p → (Slos.unlinkWait k p).task t = k.task t := by
  have hprev := hback p (by simp)
  have hafter := Waits.append hwaits
  have hnodup := (List.nodup_append.mp hnd).2.1
  cases hnext : (k.task p).waitNext with
  | none =>
      constructor
      · simp [Slos.unlinkWait, Slos.setPrevNext, Slos.setNextPrev, hprev, hnext]
      · intro t ht
        simp [Slos.unlinkWait, Slos.setPrevNext, Slos.setNextPrev, hprev, hnext, setTask_of_ne _ _ ht]
  | some q =>
      have hq : q ∈ r := by
        rw [hnext] at hafter
        cases r with
        | nil => cases hafter
        | cons w r =>
            cases hafter.1
            exact List.mem_cons_self
      have hne : q ≠ p := fun heq => (List.nodup_cons.mp hnodup).1 (heq ▸ hq)
      have hsame : { k.task q with waitPrev := some .head } = k.task q := by
        rw [← hback q (List.mem_append_right _ (List.mem_cons_of_mem _ hq))]
      constructor
      · simp [Slos.unlinkWait, Slos.setPrevNext, Slos.setNextPrev, hprev, hnext, Kernel.setTask]
      · intro t ht
        simp only [Slos.unlinkWait, Slos.setPrevNext, Slos.setNextPrev, hprev, hnext]
        rw [setTask_of_ne _ _ ht]
        by_cases htq : t = q
        · rw [htq, setTask_self]
          exact hsame
        · rw [setTask_of_ne _ _ htq]

/-- What `remove_from_wq` leaves of the wait queue: if the task is in it, the tasks after it. -/
theorem removeFromWq_waits (hwaits : Waits k.task k.wq.next ws) (hlen : ws.length < Word.size) (hnd : ws.Nodup)
    (hback : ∀ t ∈ ws, (k.task t).waitPrev = some .head) : ∃ ws', ws'.Sublist ws ∧ p ∉ ws' ∧
      Waits (Slos.removeFromWq k p).task (Slos.removeFromWq k p).wq.next ws' ∧
      ∀ t ∈ ws', ((Slos.removeFromWq k p).task t).waitPrev = some .head := by
  have hfind : findWait k p = ws.find? (· == p) := findWait_eq hlen hwaits
  rw [Slos.removeFromWq, hfind]
  cases hfound : ws.find? (· == p) with
  | none =>
      refine ⟨ws, List.Sublist.refl _, fun hmem => ?_, hwaits, hback⟩
      exact List.find?_eq_none.mp hfound p hmem (beq_self_eq_true p)
  | some pt =>
      obtain rfl : pt = p := by simpa using List.find?_some hfound
      obtain ⟨l, r, rfl⟩ := List.append_of_mem (List.mem_of_find?_eq_some hfound)
      obtain ⟨hnext, hothers⟩ := unlinkWait_first hwaits hnd hback
      have hnot : pt ∉ r := (List.nodup_cons.mp (List.nodup_append.mp hnd).2.1).1
      have hother (t : τ) (ht : t ∈ r) : (Slos.unlinkWait k pt).task t = k.task t :=
        hothers t fun heq => hnot (heq ▸ ht)
      refine ⟨r, List.sublist_append_of_sublist_right (List.sublist_cons_self _ _), hnot, ?_, fun t ht => ?_⟩
      · dsimp only
        rw [hnext]
        exact (Waits.append hwaits).congr fun t ht => by rw [hother t ht]
      · dsimp only
        rw [hother t ht]
        exact hback t (List.mem_append_right _ (List.mem_cons_of_mem _ ht))

omit [DecidableEq τ] in
/-- A change that keeps every task in its queue. -/
theorem Parted.moves (h : Parted k ts ws) (hqueue : k'.queue.Perm k.queue) (hnext : k'.wq.next = k.wq.next)
    (hplace : ∀ t ∈ ts, place (k'.task t) = place (k.task t)) (hsub : ∀ t ∈ ts, t ∈ ts') : Parted k' ts' ws := by
  have hsame (t : τ) (ht : t ∈ ws) := place_eq_iff.mp (hplace t (h.waiting t ht).1)
  constructor
  · exact fun t ht => hsub t (h.queued t (hqueue.mem_iff.mp ht))
  · rw [hnext]
    exact h.waits.congr fun t ht => (hsame t ht).2.2.2
  · intro t ht
    rw [(hsame t ht).2.2.1]
    exact h.back t ht
  · exact h.nodup
  · intro t ht
    rw [hqueue.mem_iff]
    exact ⟨hsub t (h.waiting t ht).1, (h.waiting t ht).2⟩

omit [DecidableEq τ] in
theorem Parted.unmoved (h : Parted k ts ws) (hsame : Unmoved k k') : Parted k' ts ws := by
  have hqueue : k'.queue = k.queue := congrArg BinTree.inorder hsame.root
  exact h.moves (hqueue ▸ .refl _) hsame.next (fun t _ => hsame.place t) fun _ ht => ht

variable (b : Balancer τ)

theorem Parted.wake (h : Parted k ts ws) (hlen : ws.length < Word.size) (hnd : k.queue.Nodup)
    (hcached : k.runq.rbLeftmost = k.queue.head?) (hp : p ∈ ts) (hnew : p ∉ k.queue) :
    ∃ ws', Parted (Slos.enqueueSeToRunq b k p) ts ws' := by
  obtain ⟨ws', hsub, hnot, hwaits, hback⟩ :=
    removeFromWq_waits (k := addPriority k p) (p := p) h.waits hlen h.nodup h.back
  obtain ⟨hperm, -⟩ := enqueueSeToRunq_queue b hnd hcached hnew
  have hwq : (Slos.enqueueSeToRunq b k p).wq = (Slos.removeFromWq (addPriority k p) p).wq :=
    (updateVruntimeRunq_seOnly (wakeState k p) p).wq
  have hplace (t : τ) (ht : t ∈ ws') : place ((Slos.enqueueSeToRunq b k p).task t) =
      place ((Slos.removeFromWq (addPriority k p) p).task t) := by
    have hne : t ≠ p := fun heq => hnot (heq ▸ ht)
    rw [QueueMembers.enqueueSeToRunq_place, wakeState, Kernel.setState, setTask_of_ne _ _ hne]
  refine ⟨ws', ?_, ?_, ?_, hsub.nodup h.nodup, ?_⟩
  · intro t ht
    rcases List.mem_cons.mp (hperm.mem_iff.mp ht) with rfl | ht
    · exact hp
    · exact h.queued t ht
  · rw [hwq]
    exact hwaits.congr fun t ht => (place_eq_iff.mp (hplace t ht)).2.2.2
  · intro t ht
    rw [(place_eq_iff.mp (hplace t ht)).2.2.1]
    exact hback t ht
  · intro t ht
    obtain ⟨hmem, hout⟩ := h.waiting t (hsub.subset ht)
    refine ⟨hmem, fun hin => ?_⟩
    rcases List.mem_cons.mp (hperm.mem_iff.mp hin) with rfl | hin
    · exact hnot ht
    · exact hout hin

theorem Parted.sleep (h : Parted k ts ws) (hnd : k.queue.Nodup) (hcached : k.runq.rbLeftmost = k.queue.head?)
    (hp : p ∈ k.queue) : Parted (Slos.dequeueSeToWq b k p) ts (p :: ws) := by
  have hnot : p ∉ ws := fun hmem => (h.waiting p hmem).2 hp
  obtain ⟨herase, -⟩ := dequeueSeToWq_queue b hnd hcached hp
  have hwq : (Slos.dequeueSeToWq b k p).wq.next = some p :=
    congrArg WaitQueue.next (updateVruntimeRunq_seOnly (sleepState k p) p).wq
  have hself : ((Slos.dequeueSeToWq b k p).task p).waitPrev = some .head ∧
      ((Slos.dequeueSeToWq b k p).task p).waitNext = k.wq.next := by
    have hplace := place_eq_iff.mp (QueueMembers.dequeueSeToWq_place b k p p)
    rw [hplace.2.2.1, hplace.2.2.2, sleepState, Kernel.setState, setTask_self]
    simp [Slos.addToWq, subPriority]
  have hplace (t : τ) (ht : t ∈ ws) : place ((Slos.dequeueSeToWq b k p).task t) = place (k.task t) := by
    have hne : t ≠ p := fun heq => hnot (heq ▸ ht)
    rw [QueueMembers.dequeueSeToWq_place, sleepState, Kernel.setState, setTask_of_ne _ _ hne]
    simp [Slos.addToWq, subPriority, setTask_of_ne _ _ hne]
  constructor
  · intro t ht
    rw [herase] at ht
    exact h.queued t (List.mem_of_mem_erase ht)
  · refine ⟨hwq, ?_⟩
    rw [hself.2]
    exact h.waits.congr fun t ht => (place_eq_iff.mp (hplace t ht)).2.2.2
  · intro t ht
    rcases List.mem_cons.mp ht with rfl | ht
    · exact hself.1
    · rw [(place_eq_iff.mp (hplace t ht)).2.2.1]
      exact h.back t ht
  · exact List.nodup_cons.mpr ⟨hnot, h.nodup⟩
  · intro t ht
    rw [herase]
    rcases List.mem_cons.mp ht with rfl | ht
    · exact ⟨h.queued t hp, hnd.not_mem_erase⟩
    · exact ⟨(h.waiting t ht).1, fun hin => (h.waiting t ht).2 (List.mem_of_mem_erase hin)⟩

end Queues

section Pointers

variable {k k' : Kernel τ} {ts ts' ws : List τ} {p : τ}

omit [DecidableEq τ] in
theorem Closed.congr (h : Closed k ts) (hcurrent : k'.current ∈ ts) (hidle : k'.idleTask = k.idleTask)
    (hyields : ∀ t ∈ ts, yieldOf k' t = yieldOf k t) (htimed : ∀ t ∈ k'.timers.queue, (k'.timers.timer t).pt ∈ ts) :
    Closed k' ts := by
  constructor
  · exact hcurrent
  · rw [hidle]
    exact h.idle
  · intro t ht y hy
    exact h.yields t ht y ((hyields t ht).symm.trans hy)
  · exact htimed

omit [DecidableEq τ] in
/-- A change that leaves the pointers alone. -/
theorem Closed.same (h : Closed k ts) (hcurrent : k'.current = k.current) (hidle : k'.idleTask = k.idleTask)
    (hyields : ∀ t ∈ ts, yieldOf k' t = yieldOf k t) (htimers : k'.timers = k.timers) : Closed k' ts := by
  refine h.congr ?_ hidle hyields ?_
  · rw [hcurrent]
    exact h.current
  · rw [htimers]
    exact h.timed

theorem enqueueSeToRunq_closed (b : Balancer τ) (h : Closed k ts) (p : τ) : Closed (Slos.enqueueSeToRunq b k p) ts :=
  h.same (enqueueSeToRunq_current b k p) (enqueueSeToRunq_idleTask b k p)
    (fun t _ => (enqueueSeToRunq_moved b k p).yieldTask t) (enqueueSeToRunq_timers b k p)

theorem dequeueSeToWq_idleTask (b : Balancer τ) (k : Kernel τ) (p : τ) : (Slos.dequeueSeToWq b k p).idleTask = k.idleTask :=
  (updateVruntimeRunq_seOnly _ p).idleTask.trans (addToWq_waitOnly (subPriority k p) p).idleTask

theorem dequeueSeToWq_closed (b : Balancer τ) (h : Closed k ts) (p : τ) : Closed (Slos.dequeueSeToWq b k p) ts :=
  h.same (Sleepers.dequeueSeToWq_current b k p) (dequeueSeToWq_idleTask b k p)
    (fun t _ => (dequeueSeToWq_moved b k p).yieldTask t) (dequeueSeToWq_timers b k p)

omit [DecidableEq τ] in
theorem yieldyi_closed (h : Closed k ts) : Closed (Slos.yieldyi k) ts := by
  have hyields : ∀ t ∈ ts, yieldOf (Slos.yieldyi k) t = yieldOf k t := fun t _ => by rw [yieldOf, yieldyi_task, yieldOf]
  unfold Slos.yieldyi at hyields ⊢
  split
  · exact h
  · next y hy =>
      refine h.congr ?_ rfl (fun _ _ => rfl) h.timed
      dsimp only
      split
      · exact h.yields _ h.current y hy
      · exact h.idle

theorem switchToTimer_closed (h : Closed k ts) (hp : p ∈ ts) : Closed (Slos.switchToTimer k k.current p) ts := by
  rcases eq_or_ne p k.current with rfl | hne
  · rw [Slos.switchToTimer, if_pos rfl]
    exact h
  · obtain ⟨hcurrent, hself, hother, hidle, -⟩ := YieldChain.switchToTimer_spec hne
    constructor
    · rw [hcurrent]
      exact hp
    · rw [hidle]
      exact h.idle
    · intro t ht y hy
      by_cases htp : t = p
      · subst htp
        obtain rfl := Option.some.inj (hself.symm.trans hy)
        exact h.current
      · exact h.yields t ht y ((hother t htp).symm.trans hy)
    · rw [switchToTimer_timers]
      exact h.timed

omit [DecidableEq τ] in
theorem createOneshotTimer_closed {s : Timers τ} {tc : ℕ} (bt : Balancer TimerId) (hnd : s.queue.Nodup)
    (hslot : .oneshot s.oneshotTimerIdx ∉ s.queue) (hp : p ∈ ts) (htimed : ∀ t ∈ s.queue, (s.timer t).pt ∈ ts) :
    ∀ t ∈ (Slos.createOneshotTimer bt s p tc).queue, ((Slos.createOneshotTimer bt s p tc).timer t).pt ∈ ts := by
  intro t ht
  have htimer : (Slos.createOneshotTimer bt s p tc).timer =
      (s.setTimer (.oneshot s.oneshotTimerIdx) ⟨tc, tc, p, .oneshotTimer⟩).timer := rfl
  have hperm : (Slos.createOneshotTimer bt s p tc).queue.Perm (.oneshot s.oneshotTimerIdx :: s.queue) :=
    bt.perm_insert hnd hslot
  rw [htimer, Timers.setTimer]
  rcases List.mem_cons.mp (hperm.mem_iff.mp ht) with rfl | ht
  · simpa using hp
  · have hne : t ≠ .oneshot s.oneshotTimerIdx := fun heq => hslot (heq ▸ ht)
    simp only [Function.update_of_ne hne]
    exact htimed t ht

end Pointers

/-- The queues and the pointers of a kernel are in order. -/
structure Sound (k : Kernel τ) (ts ws : List τ) : Prop where
  parted : Parted k ts ws
  closed : Closed k ts

section Interrupt

variable {m : Mem τ} {o : Others τ} {k k' : Kernel τ} {ts ws : List τ} {p : τ}

theorem Sound.wake (h : Sound k ts ws) (hshows : Shows m k o) (hlen : ws.length < Word.size) (hp : p ∈ ts)
    (hnew : p ∉ k.queue) :
    ∃ ws', Sound (Slos.enqueueSeToRunq (Balancer.redBlack τ) k p) ts ws' := by
  obtain ⟨ws', hparted⟩ := h.parted.wake (Balancer.redBlack τ) hlen hshows.linked.nodup hshows.leftmost hp hnew
  exact ⟨ws', hparted, enqueueSeToRunq_closed _ h.closed p⟩

theorem Sound.sleep (h : Sound k ts ws) (hshows : Shows m k o) (hp : p ∈ k.queue) :
    Sound (Slos.dequeueSeToWq (Balancer.redBlack τ) k p) ts (p :: ws) :=
  ⟨h.parted.sleep _ hshows.linked.nodup hshows.leftmost hp, dequeueSeToWq_closed _ h.closed p⟩

theorem schedExpired_sound {pct : TimerId} (h : Sound k ts ws) (hnd : k.queue.Nodup)
    (hcached : k.runq.rbLeftmost = k.queue.head?)
    (hp : p ∈ ts) (hk : Slos.schedExpired (Balancer.redBlack τ) k p pct = some k') : Sound k' ts ws := by
  unfold Slos.schedExpired at hk
  split_ifs at hk
  · cases hk
    exact h
  obtain ⟨k₂, hk₂, rfl⟩ := Option.map_eq_some_iff.mp hk
  obtain ⟨k₁, hk₁, hk₂⟩ := Option.bind_eq_some_iff.mp hk₂
  obtain ⟨next, hnext, rfl⟩ := Option.map_eq_some_iff.mp hk₂
  obtain ⟨hperm, hcached₁, htask, hidle⟩ := updateSe_perm _ hnd hcached hk₁
  have htimers : k₁.timers = k.timers := updateSe_timers _ hk₁
  have hwq : k₁.wq = k.wq := by
    obtain ⟨cur, -, rfl⟩ := Option.map_eq_some_iff.mp hk₁
    dsimp only
    split_ifs <;> rfl
  constructor
  · refine h.parted.moves hperm (congrArg WaitQueue.next hwq) (fun t _ => ?_) fun _ ht => ht
    exact congrArg (fun f => place (f t)) htask
  · have hmem : next ∈ k₁.queue := List.mem_of_head? (hcached₁.symm.trans hnext)
    refine h.closed.congr (h.parted.queued next (hperm.mem_iff.mp hmem)) hidle (fun t _ => ?_) fun t ht => ?_
    · exact congrArg (fun f => (f t).yieldTask) htask
    · change (Function.update k₁.timers.timer pct _ t).pt ∈ ts
      rw [htimers]
      rcases eq_or_ne t pct with rfl | hne
      · simpa using hp
      · rw [Function.update_of_ne hne]
        refine h.closed.timed t ?_
        rw [← htimers]
        exact ht

theorem realtimeExpired_sound {pct : TimerId} (h : Sound k ts ws) (hpct : (k.timers.timer pct).pt ∈ ts) :
    Sound (Slos.realtimeExpired k k.current pct) ts ws := by
  have hswitch := switchToTimer_closed h.closed hpct
  refine ⟨h.parted.unmoved (QueueMembers.realtimeExpired_unmoved k k.current pct), ?_⟩
  unfold Slos.realtimeExpired
  dsimp only
  split_ifs
  · refine hswitch.same rfl rfl (fun t _ => ?_) rfl
    exact (YieldChain.setTask_sameYield _ k.current (by rfl)).yieldTask t
  · exact hswitch

theorem oneshotExpired_sound {pct : TimerId} (h : Sound k ts ws) (hlen : ws.length < Word.size) (hnd : k.queue.Nodup)
    (hcached : k.runq.rbLeftmost = k.queue.head?) (htimers : k.timers.queue.Nodup) (hmem : pct ∈ k.timers.queue)
    (hwaiting : (k.task (k.timers.timer pct).pt).state = .taskWaiting → (k.timers.timer pct).pt ∉ k.queue) :
    ∃ ws', Sound (Slos.oneshotExpired (Balancer.redBlack τ) (Balancer.redBlack TimerId) k k.current pct) ts ws' := by
  obtain ⟨pt, hpt⟩ : ∃ pt, pt = (k.timers.timer pct).pt := ⟨_, rfl⟩
  obtain ⟨k₁, hk₁⟩ : ∃ k₁, k₁ = Slos.switchToTimer k k.current pt := ⟨_, rfl⟩
  have hpts : pt ∈ ts := hpt ▸ h.closed.timed pct hmem
  have hsame : Unmoved k k₁ := hk₁ ▸ QueueMembers.switchToTimer_unmoved k k.current pt
  have hqueue : k₁.queue = k.queue := congrArg BinTree.inorder hsame.root
  have hsame' : k₁.timers = k.timers := hk₁ ▸ switchToTimer_timers k k.current pt
  have hsound₁ : Sound k₁ ts ws := ⟨h.parted.unmoved hsame, hk₁ ▸ switchToTimer_closed h.closed hpts⟩
  have hdel {k₂ : Kernel τ} {ws' : List τ} (h : Sound k₂ ts ws') (hk₂ : k₂.timers = k.timers) :
      Sound { k₂ with timers := Slos.delTimer (Balancer.redBlack TimerId) k₂.timers pct } ts ws' := by
    refine ⟨h.parted.unmoved ⟨rfl, rfl, rfl, fun _ => rfl⟩, h.closed.congr h.closed.current rfl (fun _ _ => rfl) ?_⟩
    intro t ht
    have herase := delTimer_queue (Balancer.redBlack TimerId) (s := k₂.timers) (by rw [hk₂]; exact htimers)
      (by rw [hk₂]; exact hmem)
    exact h.closed.timed t (List.mem_of_mem_erase (herase ▸ ht))
  unfold Slos.oneshotExpired
  dsimp only
  rw [← hpt, ← hk₁]
  rw [← hpt] at hwaiting
  split_ifs with hstate
  · rw [hsame.state] at hstate
    have hnew : pt ∉ k₁.queue := hqueue ▸ hwaiting hstate
    have hcached₁ : k₁.runq.rbLeftmost = k₁.queue.head? := by rw [hsame.rbLeftmost, hqueue, hcached]
    obtain ⟨ws', hparted⟩ := hsound₁.parted.wake (Balancer.redBlack τ) hlen (hqueue ▸ hnd) hcached₁ hpts hnew
    exact ⟨ws', hdel ⟨hparted, enqueueSeToRunq_closed _ hsound₁.closed pt⟩ ((enqueueSeToRunq_timers _ k₁ pt).trans hsame')⟩
  · exact ⟨ws, hdel hsound₁ hsame'⟩

theorem timerIrq_sound (h : Sound k ts ws) (hshows : Shows m k o) (hlen : ws.length < Word.size)
    (hwaiting : ∀ t ∈ expiring k, t ∉ k.queue)
    (hk : Slos.timerIrq (Balancer.redBlack τ) (Balancer.redBlack TimerId) k = some k') : ∃ ws', Sound k' ts ws' := by
  obtain ⟨pct, hpct, hk⟩ := Option.bind_eq_some_iff.mp hk
  obtain ⟨k₁, hk₁, hk⟩ := Option.bind_eq_some_iff.mp hk
  have hmem : pct ∈ k.timers.queue := List.mem_of_head? (hshows.timersLeftmost.symm.trans hpct)
  have hspec (t : TimerId) := reprogram_spec t k.timers.load hshows hk₁
  obtain ⟨hsame, hthis, hperm, hpt, htype⟩ := hspec pct
  have hyield : YieldChain.SameYield k (Slos.updateCurrent k₁ k.timers.load) := by
    obtain ⟨s, -, hk₁⟩ := Option.bind_eq_some_iff.mp hk₁
    obtain ⟨pnt, -, hk₁⟩ := Option.bind_eq_some_iff.mp hk₁
    cases hk₁
    have hupdate := YieldChain.updateCurrent_sameYield { k with timers := { s with load := s.tc pnt } } k.timers.load
    exact ⟨hupdate.yieldTask, hupdate.idleTask⟩
  obtain ⟨k₂, hk₂⟩ : ∃ k₂, k₂ = Slos.updateCurrent k₁ k.timers.load := ⟨_, rfl⟩
  rw [← hk₂] at hspec hsame hthis hperm hpt htype hyield hk
  have hqueue : k₂.queue = k.queue := congrArg BinTree.inorder hsame.root
  have hmem₂ : pct ∈ k₂.timers.queue := hperm.mem_iff.mpr hmem
  have hnd₂ : k₂.queue.Nodup := hqueue ▸ hshows.linked.nodup
  have hcached₂ : k₂.runq.rbLeftmost = k₂.queue.head? := by rw [hsame.rbLeftmost, hqueue, hshows.leftmost]
  have hsound : Sound k₂ ts ws := by
    refine ⟨h.parted.unmoved hsame, h.closed.congr ?_ hyield.idleTask (fun t _ => hyield.yieldTask t) fun t ht => ?_⟩
    · rw [hthis]
      exact h.closed.current
    · rw [(hspec t).2.2.2.1]
      exact h.closed.timed t (hperm.mem_iff.mp ht)
  cases hkind : (k₂.timers.timer pct).type with
  | schedTimer =>
      simp only [hkind] at hk
      exact ⟨ws, schedExpired_sound hsound hnd₂ hcached₂ h.closed.current hk⟩
  | realtimeTimer =>
      simp only [hkind] at hk
      cases hk
      rw [← hthis]
      exact ⟨ws, realtimeExpired_sound hsound (hsound.closed.timed pct hmem₂)⟩
  | oneshotTimer =>
      simp only [hkind] at hk
      cases hk
      rw [← hthis]
      refine oneshotExpired_sound hsound hlen hnd₂ hcached₂ (hperm.nodup_iff.mpr hshows.linkedTimers.nodup) hmem₂ ?_
      rw [hpt, hsame.state, hqueue]
      intro hstate
      refine hwaiting _ ?_
      rw [expiring, hpct, Option.bind_some, if_pos ⟨htype.symm.trans hkind, hstate⟩]
      rfl

end Interrupt

section Calls

variable {m : Mem τ} {o : Others τ} {k k' : Kernel τ} {ts ws : List τ} {p : τ}

theorem mdelay_sound {msecs : ℕ} (h : Sound k ts ws) (hshows : Shows m k o) (hmem : k.current ∈ k.queue)
    (hslot : .oneshot k.timers.oneshotTimerIdx ∉ k.timers.queue)
    (hk : Slos.mdelay (Balancer.redBlack τ) (Balancer.redBlack TimerId) k msecs = some k') :
    Sound k' ts (k.current :: ws) := by
  obtain ⟨k₁, hk₁⟩ : ∃ k₁, k₁ = Slos.dequeueSeToWq (Balancer.redBlack τ) k k.current := ⟨_, rfl⟩
  have htimers : k₁.timers = k.timers := hk₁ ▸ dequeueSeToWq_timers _ k k.current
  have hsound₁ : Sound k₁ ts (k.current :: ws) := hk₁ ▸ h.sleep hshows hmem
  obtain ⟨yieldTask, hyield, rfl⟩ := Option.map_eq_some_iff.mp hk
  rw [← hk₁] at hyield ⊢
  obtain ⟨ticks, hticks⟩ : ∃ ticks, ticks = delayTicks k.timers.ticksPerSec msecs := ⟨_, rfl⟩
  rw [← hticks]
  obtain ⟨k₂, hk₂⟩ : ∃ k₂, k₂ = { k₁ with
    timers := Slos.createOneshotTimer (Balancer.redBlack TimerId) k₁.timers k.current ticks } := ⟨_, rfl⟩
  have hclosed₂ : Closed k₂ ts := by
    rw [hk₂]
    refine hsound₁.closed.congr hsound₁.closed.current rfl (fun _ _ => rfl) ?_
    exact createOneshotTimer_closed (Balancer.redBlack TimerId) (htimers ▸ hshows.linkedTimers.nodup)
      (htimers ▸ hslot) h.closed.current hsound₁.closed.timed
  have hparted₂ : Parted k₂ ts (k.current :: ws) := hsound₁.parted.unmoved (hk₂ ▸ ⟨rfl, rfl, rfl, fun _ => rfl⟩)
  rw [← hk₂]
  have hcorrected : Sound (k₂.setTask k.current { k₂.task k.current with yieldTask := some k₂.idleTask }) ts
    (k.current :: ws) := by
    refine ⟨hparted₂.unmoved (QueueMembers.setTask_unmoved k₂ k.current rfl), hclosed₂.current, hclosed₂.idle, ?_,
      hclosed₂.timed⟩
    intro t ht y hy
    by_cases htc : t = k.current
    · rw [htc, Kernel.setTask_self] at hy
      cases hy
      exact hclosed₂.idle
    · rw [Kernel.setTask_of_ne _ _ htc] at hy
      exact hclosed₂.yields t ht y hy
  split_ifs
  · exact ⟨hcorrected.parted.unmoved (QueueMembers.yieldyi_unmoved _), yieldyi_closed hcorrected.closed⟩
  · exact ⟨hparted₂.unmoved (QueueMembers.yieldyi_unmoved _), yieldyi_closed hclosed₂⟩

theorem createCfsTask_sound {s s' : Tasks τ} {pt : τ} {pri : ℕ} (h : Sound s.kernel s.tasks ws)
    (hshows : Shows m s.kernel o)
    (hlen : ws.length < Word.size) (hpt : pt ∉ s.tasks)
    (hs : Slos.createCfsTask (Balancer.redBlack τ) s pt pri = some s') : ∃ ws', Sound s'.kernel s'.tasks ws' := by
  obtain ⟨s₁, hs₁, rfl⟩ := Option.map_eq_some_iff.mp hs
  obtain ⟨htasks, shift, hk₁⟩ := YieldChain.forkyi_eq hs₁
  have hmem (t : τ) (ht : t ∈ s.tasks) : t ∈ s₁.tasks := by
    rw [htasks]
    exact List.mem_append_left _ ht
  have hnew : pt ∈ s₁.tasks := by
    rw [htasks]
    exact List.mem_append_right _ List.mem_cons_self
  have hother (t : τ) (ht : t ∈ s.tasks) : s₁.kernel.task t = s.kernel.task t := by
    have hne : t ≠ pt := fun heq => hpt (heq ▸ ht)
    rw [hk₁, Kernel.setTask_of_ne _ _ hne]
  have hrunq : s₁.kernel.runq = s.kernel.runq := by rw [hk₁]; rfl
  have hqueue : s₁.kernel.queue = s.kernel.queue := congrArg (fun r : CfsRq τ => r.root.inorder) hrunq
  have hparted : Parted s₁.kernel s₁.tasks ws := by
    refine h.parted.moves (by rw [hqueue]) (by rw [hk₁]; rfl) (fun t ht => ?_) hmem
    rw [hother t ht]
  have hclosed : Closed s₁.kernel s₁.tasks := by
    constructor
    · rw [hk₁]
      exact hmem _ h.closed.current
    · rw [hk₁]
      exact hmem _ h.closed.idle
    · intro t ht y hy
      rw [htasks] at ht
      rcases List.mem_append.mp ht with ht | ht
      · rw [hother t ht] at hy
        exact hmem y (h.closed.yields t ht y hy)
      · obtain rfl := List.mem_singleton.mp ht
        rw [hk₁, Kernel.setTask_self] at hy
        cases hy
        exact hmem _ h.closed.current
    · rw [hk₁]
      exact fun t ht => hmem _ (h.closed.timed t ht)
  obtain ⟨ws', hparted'⟩ := hparted.wake (Balancer.redBlack τ) (p := pt) hlen (by rw [hqueue]; exact hshows.linked.nodup)
    (by rw [hrunq, hqueue]; exact hshows.leftmost) hnew (by rw [hqueue]; exact fun hin => hpt (h.parted.queued pt hin))
  have hclosed' := enqueueSeToRunq_closed (Balancer.redBlack τ) hclosed pt
  exact ⟨ws', hparted'.unmoved ⟨rfl, rfl, rfl, fun _ => rfl⟩, hclosed'.current, hclosed'.idle, hclosed'.yields,
    hclosed'.timed⟩

end Calls

section CfsTaskNum

variable {k k' : Kernel τ} {p : τ} (b : Balancer τ) (bt : Balancer TimerId)

theorem enqueueSeToRunq_cfsTaskNum (k : Kernel τ) (p : τ) :
    (Slos.enqueueSeToRunq b k p).runq.cfsTaskNum = k.runq.cfsTaskNum := by
  change (Slos.updateVruntimeRunq (wakeState k p) p).runq.cfsTaskNum = _
  rw [(updateVruntimeRunq_seOnly (wakeState k p) p).runq]
  change (Slos.removeFromWq (addPriority k p) p).runq.cfsTaskNum = _
  rw [(removeFromWq_waitOnly (addPriority k p) p).runq]
  rfl

theorem dequeueSeToWq_cfsTaskNum (k : Kernel τ) (p : τ) :
    (Slos.dequeueSeToWq b k p).runq.cfsTaskNum = k.runq.cfsTaskNum := by
  change (Slos.updateVruntimeRunq (sleepState k p) p).runq.cfsTaskNum = _
  rw [(updateVruntimeRunq_seOnly (sleepState k p) p).runq]
  rfl

theorem switchToTimer_cfsTaskNum (k : Kernel τ) (t p : τ) :
    (Slos.switchToTimer k t p).runq.cfsTaskNum = k.runq.cfsTaskNum := by
  unfold Slos.switchToTimer
  split_ifs <;> rfl

theorem timerIrq_cfsTaskNum (hk : Slos.timerIrq b bt k = some k') : k'.runq.cfsTaskNum = k.runq.cfsTaskNum := by
  obtain ⟨pct, timers, k₁, -, rfl, -, hcases⟩ := YieldChain.timerIrq_cases hk
  have hupdate : (Slos.updateCurrent { k with timers := timers } k.timers.load).runq.cfsTaskNum = k.runq.cfsTaskNum := by
    rw [YieldChain.updateCurrent_runq]
  obtain ⟨k₁, hk₁⟩ : ∃ k₁, k₁ = Slos.updateCurrent { k with timers := timers } k.timers.load := ⟨_, rfl⟩
  rw [← hk₁] at hupdate hcases
  rw [← hupdate]
  rcases hcases with ⟨-, hsched⟩ | ⟨-, rfl⟩ | ⟨-, rfl⟩
  · unfold Slos.schedExpired at hsched
    split_ifs at hsched
    · cases hsched
      rfl
    · obtain ⟨k₃, hk₃, rfl⟩ := Option.map_eq_some_iff.mp hsched
      obtain ⟨k₂, hk₂, hk₃⟩ := Option.bind_eq_some_iff.mp hk₃
      obtain ⟨next, -, rfl⟩ := Option.map_eq_some_iff.mp hk₃
      obtain ⟨cur, -, rfl⟩ := Option.map_eq_some_iff.mp hk₂
      dsimp only
      split_ifs <;> rfl
  · have hswitch := switchToTimer_cfsTaskNum k₁ k.current (k₁.timers.timer pct).pt
    unfold Slos.realtimeExpired
    dsimp only
    split_ifs <;> exact hswitch
  · have hswitch := switchToTimer_cfsTaskNum k₁ k.current (k₁.timers.timer pct).pt
    unfold Slos.oneshotExpired
    dsimp only
    split_ifs
    · exact (enqueueSeToRunq_cfsTaskNum b _ _).trans hswitch
    · exact hswitch

end CfsTaskNum

namespace System

structure Intact (s : System τ) : Prop where
  nodup : s.tasks.Nodup
  count : s.taskCreatedNum = s.tasks.length
  bound : s.tasks.length ≤ maxTask
  cfs : s.kernel.runq.cfsTaskNum ≤ s.tasks.length
  sound : ∃ ws, Sound s.kernel s.tasks ws
  worker : ∀ t ∈ s.worker, t ∈ s.tasks

variable {s s' : System τ} {m : Mem τ} {o : Others τ} {ws : List τ} {k : Kernel τ} {x : Source ⊕ Call τ}

omit [DecidableEq τ] in
theorem Intact.waiting_lt (h : s.Intact) (hsound : Sound s.kernel s.tasks ws) : ws.length < Word.size := by
  have hsub : ws ⊆ s.tasks := fun t ht => (hsound.parted.waiting t ht).1
  have hle := (List.subperm_of_subset hsound.parted.nodup hsub).length_le
  have hbound := h.bound
  have hmax : maxTask < Word.size := by decide
  omega

omit [DecidableEq τ] in
/-- A step that creates no task. -/
theorem Intact.kernel (h : s.Intact) (hcfs : k.runq.cfsTaskNum = s.kernel.runq.cfsTaskNum)
    (hsound : ∃ ws, Sound k s.tasks ws) : Intact { s with kernel := k } := by
  refine ⟨h.nodup, h.count, h.bound, ?_, hsound, h.worker⟩
  dsimp only
  rw [hcfs]
  exact h.cfs

theorem wake_intact {func : WorkFunc} {arg : ℕ} (h : s.Intact) (hshows : Shows m s.kernel o)
    (hnew : ∀ t ∈ s.worker, t ∉ s.kernel.queue) (hs : s.wake func arg = some s') : s'.Intact := by
  obtain ⟨worker, hworker, rfl⟩ := Option.map_eq_some_iff.mp hs
  obtain ⟨ws, hsound⟩ := h.sound
  have hwoken := hsound.wake hshows (h.waiting_lt hsound) (h.worker worker hworker) (hnew worker hworker)
  have hkernel := h.kernel (enqueueSeToRunq_cfsTaskNum _ _ _) hwoken
  exact ⟨hkernel.nodup, hkernel.count, hkernel.bound, hkernel.cfs, hkernel.sound, hkernel.worker⟩

theorem irq_intact {source : Source} (h : s.Intact) (hshows : Shows m s.kernel o) (hd : s.Disciplined (.inl source))
    (hs : s.irq source = some s') : s'.Intact := by
  cases source with
  | timer =>
      obtain ⟨k, hk, rfl⟩ := Option.map_eq_some_iff.mp hs
      obtain ⟨ws, hsound⟩ := h.sound
      exact h.kernel (timerIrq_cfsTaskNum _ _ hk) (timerIrq_sound hsound hshows (h.waiting_lt hsound) hd.enqueued hk)
  | sgi letter arg =>
      cases letter with
      | empty =>
          cases hs
          exact h
      | taskStat => exact wake_intact h hshows hd.enqueued hs
      | taskOdev => exact wake_intact h hshows hd.enqueued hs

theorem createCfsTask_intact {pt : τ} {pri : ℕ} (h : s.Intact) (hshows : Shows m s.kernel o)
    (hs : s.call (.createCfsTask pt pri) = some s') : s'.Intact := by
  simp only [call] at hs
  split_ifs at hs with hpt
  obtain ⟨u, hu, rfl⟩ := Option.map_eq_some_iff.mp hs
  obtain ⟨ws, hsound⟩ := h.sound
  have hcreated := createCfsTask_sound hsound hshows (h.waiting_lt hsound) hpt hu
  obtain ⟨s₁, hs₁, rfl⟩ := Option.map_eq_some_iff.mp hu
  obtain ⟨htasks, shift, hk₁⟩ := YieldChain.forkyi_eq hs₁
  have hnum : s₁.taskCreatedNum = u32 (s.taskCreatedNum + 1) ∧ s.taskCreatedNum ≠ maxTask := by
    rw [Slos.forkyi] at hs₁
    split_ifs at hs₁ with hpri hmax
    cases hs₁
    exact ⟨rfl, hmax⟩
  have hlen : s₁.tasks.length = s.tasks.length + 1 := by simp [htasks]
  have hlt : s.tasks.length < maxTask := lt_of_le_of_ne h.bound fun heq => hnum.2 (h.count.trans heq)
  have hmem (t : τ) (ht : t ∈ s.tasks) : t ∈ s₁.tasks := by
    rw [htasks]
    exact List.mem_append_left _ ht
  constructor
  · change s₁.tasks.Nodup
    rw [htasks]
    exact List.nodup_append.mpr ⟨h.nodup, List.nodup_singleton pt, by
      rintro a ha b hb rfl
      exact hpt (List.mem_singleton.mp hb ▸ ha)⟩
  · change s₁.taskCreatedNum = s₁.tasks.length
    have hmax : maxTask < Word.size := by decide
    rw [hnum.1, hlen, h.count, Word.u32, Nat.mod_eq_of_lt (by omega)]
  · change s₁.tasks.length ≤ maxTask
    omega
  · change (Slos.enqueueSeToRunq (Balancer.redBlack τ) s₁.kernel pt).runq.cfsTaskNum + 1 ≤ s₁.tasks.length
    have hcfs : s₁.kernel.runq.cfsTaskNum = s.kernel.runq.cfsTaskNum := by
      rw [hk₁]
      rfl
    have hle := h.cfs
    rw [enqueueSeToRunq_cfsTaskNum, hcfs]
    omega
  · exact hcreated
  · exact fun t ht => hmem t (h.worker t ht)

/-- One step of a run. -/
theorem step_intact (h : s.Intact) (hshows : Shows m s.kernel o) (hd : s.Disciplined x) (hs : s.step x = some s') :
    s'.Intact := by
  obtain ⟨ws, hsound⟩ := h.sound
  rcases x with source | c
  · exact irq_intact h hshows hd hs
  cases c with
  | mdelay msecs =>
      obtain ⟨k, hk, rfl⟩ := Option.map_eq_some_iff.mp hs
      have hcfs : k.runq.cfsTaskNum = s.kernel.runq.cfsTaskNum := by
        obtain ⟨y, -, rfl⟩ := Option.map_eq_some_iff.mp hk
        have hyield (k : Kernel τ) : (Slos.yieldyi k).runq = k.runq := by
          unfold Slos.yieldyi
          split <;> rfl
        rw [hyield]
        split_ifs <;> exact dequeueSeToWq_cfsTaskNum _ _ _
      exact h.kernel hcfs ⟨_, mdelay_sound hsound hshows (hd.dequeued _ rfl) (hd.armed _ rfl) hk⟩
  | createCfsTask pt pri => exact createCfsTask_intact h hshows hs
  | sleep byte =>
      cases hs
      have hfound := hd.dequeued
      simp only [dequeued] at hfound
      cases hshell : shellTask s.toTasks byte with
      | none => exact h
      | some t =>
          rw [hshell] at hfound
          simp only [QueueMembers.shellSleep]
          split_ifs with hstate
          · exact h.kernel (dequeueSeToWq_cfsTaskNum _ _ _) ⟨_, hsound.sleep hshows (hfound t (by simp [hstate]))⟩
          · exact h
  | run byte =>
      cases hs
      have hfound := hd.enqueued
      simp only [enqueued] at hfound
      cases hshell : shellTask s.toTasks byte with
      | none => exact h
      | some t =>
          have hmem : t ∈ s.tasks := List.mem_of_mem_take (List.mem_of_find?_eq_some hshell)
          rw [hshell] at hfound
          simp only [QueueMembers.shellRun]
          split_ifs with hstate
          · exact h.kernel (enqueueSeToRunq_cfsTaskNum _ _ _)
              (hsound.wake hshows (h.waiting_lt hsound) hmem (hfound t (by simp [hstate])))
          · exact h

end System

end Slos.KernelCode
