import Slos.Machine
import Slos.Tasks

/-!
# The yield chain

A run creates tasks, takes timer interrupts in any order and lets the current task yield. Every task
that gets the CPU from a timer or is created points its `yield_task` at the task that was current, so the
pointers lead from the current task to the idle task as long as no timer gives the CPU to a task that
is itself waiting to have it handed back.
-/

namespace Slos.YieldChain
open Kernel SearchTree LinkedNodes

variable {τ : Type}

inductive Step (τ : Type)
  | createCfs (pt : τ) (pri : ℕ)
  | createRt (pt : τ) (msec : ℕ)
  | createOneshot (pt : τ) (msec : ℕ)
  | irq (pct : TimerId) (elapsed : ℕ)
  | job (done : ℕ)
  | yieldyi

def yieldOf (k : Kernel τ) (t : τ) : Option τ := (k.task t).yieldTask

/-- From the current task `yield_task` leads to the idle task and no task is met twice. -/
def Acyclic (s : Tasks τ) : Prop :=
  ∃ ts, Forward (yieldOf s.kernel) s.kernel.current ts ∧ (s.kernel.current :: ts).Nodup ∧
    ts.getLastD s.kernel.current = s.kernel.idleTask

/-- `t` waits for the current task, or one that task yields to, to hand the CPU back. -/
def Waits (k : Kernel τ) (t : τ) : Prop := ∃ ts, Forward (yieldOf k) k.current ts ∧ t ∈ ts

/-- A timer that gives the CPU to another task gives it to one that does not wait for it. -/
def Unnested (s : Tasks τ) : Step τ → Prop
  | .irq pct _ => (s.kernel.timers.timer pct).type ≠ .schedTimer →
      (s.kernel.timers.timer pct).pt ≠ s.kernel.current →
      ¬ Waits s.kernel (s.kernel.timers.timer pct).pt
  | _ => True

/-- The run queue holds created tasks that do not wait. -/
structure Queued (k : Kernel τ) (ts : List τ) : Prop where
  nodup : k.queue.Nodup
  cached : k.runq.rbLeftmost = k.queue.head?
  awake : ∀ t ∈ k.queue, t ∈ ts ∧ (k.task t).state ≠ .taskWaiting

structure Chained (k : Kernel τ) (ts : List τ) : Prop where
  idle : k.idleTask ∈ ts
  current : k.current ∈ ts
  closed : ∀ t, t ∈ ts → ∀ y, yieldOf k t = some y → y ∈ ts
  reaches : ∀ t, t ∈ ts → Reaches (yieldOf k) t k.idleTask

/-- `k'` has the yield pointers and the idle task of `k`. -/
structure SameYield (k k' : Kernel τ) : Prop where
  yieldTask : ∀ t, yieldOf k' t = yieldOf k t
  idleTask : k'.idleTask = k.idleTask

theorem SameYield.trans {k k' k'' : Kernel τ} (h : SameYield k k') (h' : SameYield k' k'') :
    SameYield k k'' :=
  ⟨fun t => (h'.yieldTask t).trans (h.yieldTask t), h'.idleTask.trans h.idleTask⟩

theorem SameYield.chained {k k' : Kernel τ} {ts : List τ} (hs : SameYield k k') (h : Chained k ts)
    (hcurrent : k'.current ∈ ts) : Chained k' ts where
  idle := hs.idleTask ▸ h.idle
  current := hcurrent
  closed t ht y hy := h.closed t ht y ((hs.yieldTask t).symm.trans hy)
  reaches t ht := hs.idleTask ▸ (h.reaches t ht).congr hs.yieldTask

theorem Chained.acyclic {s : Tasks τ} (h : Chained s.kernel s.tasks) : Acyclic s := by
  obtain ⟨ts, hts, hlast⟩ := h.reaches _ h.current
  exact ⟨ts, hts, hts.nodup, hlast⟩

/-- The task that gets the CPU is pointed at the one that had it. -/
theorem Chained.switch {k k' : Kernel τ} {ts : List τ} (h : Chained k ts) {pt : τ}
    (hpt : pt ≠ k.current) (hfree : ¬ Waits k pt) (hself : yieldOf k' pt = some k.current)
    (hother : ∀ t, t ≠ pt → yieldOf k' t = yieldOf k t) (hidle : k'.idleTask = k.idleTask)
    {ts' : List τ} (hts' : ∀ t, t ∈ ts' → t ∈ ts ∨ t = pt) (hsub : ∀ t, t ∈ ts → t ∈ ts')
    (hcurrent : k'.current ∈ ts') : Chained k' ts' := by
  obtain ⟨cs, hcs, hlast⟩ := h.reaches _ h.current
  have havoid : pt ∉ k.current :: cs := by
    intro hmem
    rcases List.mem_cons.mp hmem with he | hmem
    · exact hpt he
    · exact hfree ⟨cs, hcs, hmem⟩
  have hold : ∀ t, t ∈ ts → Reaches (yieldOf k') t k.idleTask := fun t ht =>
    Reaches.redirect hcs hlast havoid hself hother (h.reaches t ht)
  have hnew : Reaches (yieldOf k') pt k.idleTask := (hold _ h.current).cons hself
  refine ⟨hidle ▸ hsub _ h.idle, hcurrent, fun t ht y hy => ?_, fun t ht => ?_⟩
  · rcases eq_or_ne t pt with rfl | hne
    · obtain rfl := Option.some.inj (hself.symm.trans hy)
      exact hsub _ h.current
    · rw [hother t hne] at hy
      exact hsub y (h.closed t ((hts' t ht).resolve_right hne) y hy)
  · rw [hidle]
    rcases hts' t ht with hmem | rfl
    · exact hold t hmem
    · exact hnew

variable [DecidableEq τ] (b : Balancer τ) (bt : Balancer TimerId)

/-- What `timer_irq` does for the timer `pct` after the timer tree is updated. -/
def expire (k : Kernel τ) (elapsed : ℕ) (pct : TimerId) : Option (Kernel τ) :=
  let thisCurrent := k.current
  let k := updateCurrent k elapsed
  match (k.timers.timer pct).type with
  | .schedTimer => schedExpired b k thisCurrent pct
  | .realtimeTimer => some (realtimeExpired k thisCurrent pct)
  | .oneshotTimer => some (oneshotExpired b bt k thisCurrent pct)

theorem timerIrq_eq_expire (k : Kernel τ) : timerIrq b bt k =
    k.timers.rbLeftmost.bind fun pct => (reprogram bt k).bind fun k' =>
      expire b bt k' k.timers.load pct := by
  unfold timerIrq
  cases hpct : k.timers.rbLeftmost with
  | none => rfl
  | some pct =>
      cases hk' : reprogram bt k with
      | none => rfl
      | some k' =>
          obtain ⟨timers, -, h⟩ := Option.bind_eq_some_iff.mp hk'
          obtain ⟨pnt, -, h⟩ := Option.bind_eq_some_iff.mp h
          cases h
          rfl

/-- What an interrupt does from `k` on, once the account of the current task is made. -/
def Handled (k k₁ k' : Kernel τ) (pct : TimerId) : Prop :=
  (k.timers.timer pct).type = .schedTimer ∧ schedExpired b k₁ k.current pct = some k' ∨
    (k.timers.timer pct).type = .realtimeTimer ∧ k' = realtimeExpired k₁ k.current pct ∨
    (k.timers.timer pct).type = .oneshotTimer ∧ k' = oneshotExpired b bt k₁ k.current pct

variable {b bt} {k k' : Kernel τ} {pct : TimerId} {elapsed : ℕ}

theorem expire_cases (h : expire b bt k elapsed pct = some k') : Handled b bt k (updateCurrent k elapsed) k' pct := by
  unfold expire at h
  dsimp only at h
  rw [Handled, ← updateCurrent_timers k elapsed]
  cases htype : ((updateCurrent k elapsed).timers.timer pct).type with
  | schedTimer =>
      rw [htype] at h
      exact Or.inl ⟨rfl, h⟩
  | realtimeTimer =>
      rw [htype] at h
      cases h
      exact Or.inr (Or.inl ⟨rfl, rfl⟩)
  | oneshotTimer =>
      rw [htype] at h
      cases h
      exact Or.inr (Or.inr ⟨rfl, rfl⟩)

/-- An interrupt updates the timers and the account of the current task, and then does what the type of the timer asks
for. -/
theorem timerIrq_cases (h : timerIrq b bt k = some k') : ∃ pct timers k₁,
    k.timers.rbLeftmost = some pct ∧ k₁ = updateCurrent { k with timers := timers } k.timers.load ∧
      (k₁.timers.timer pct).pt = (k.timers.timer pct).pt ∧ Handled b bt k k₁ k' pct := by
  rw [timerIrq_eq_expire] at h
  obtain ⟨pct, hpct, h⟩ := Option.bind_eq_some_iff.mp h
  obtain ⟨k₀, hk₀, h⟩ := Option.bind_eq_some_iff.mp h
  obtain ⟨timers, htimers, hk₀⟩ := Option.bind_eq_some_iff.mp hk₀
  obtain ⟨pnt, -, hk₀⟩ := Option.bind_eq_some_iff.mp hk₀
  cases hk₀
  have htimer : timers.timer pct = { k.timers.timer pct with tc := timers.tc pct } :=
    updateTimerTree_timer bt htimers pct
  have hhandled := expire_cases h
  rw [Handled] at hhandled
  dsimp only at hhandled
  rw [htimer] at hhandled
  refine ⟨pct, _, _, hpct, rfl, ?_, hhandled⟩
  rw [updateCurrent_timers]
  dsimp only
  rw [htimer]

variable (b bt)

/-- The task a linked timer is for is one that was created; the current task sets its `done`. -/
def step (s : Tasks τ) : Step τ → Option (Tasks τ)
  | .createCfs pt pri => if pt ∈ s.tasks then none else createCfsTask b s pt pri
  | .createRt pt msec => if pt ∈ s.tasks then none else createRtTask bt s pt msec
  | .createOneshot pt msec => if pt ∈ s.tasks then none else createOneshotTask bt s pt msec
  | .irq pct elapsed =>
      if pct ∈ s.kernel.timers.queue ∧ (s.kernel.timers.timer pct).pt ∈ s.tasks then
        (expire b bt s.kernel elapsed pct).map fun k => { s with kernel := k }
      else none
  | .job done =>
      let k := s.kernel
      some { s with kernel := k.setTask k.current { k.task k.current with done := done } }
  | .yieldyi => some { s with kernel := yieldyi s.kernel }

theorem enqueueSeToRunq_queued {k : Kernel τ} {ts : List τ} (h : Queued k ts) {pt : τ} (hpt : pt ∈ ts)
    (hnew : pt ∉ k.queue) : Queued (enqueueSeToRunq b k pt) ts := by
  obtain ⟨hperm, hcached⟩ := enqueueSeToRunq_queue b h.nodup h.cached hnew
  refine ⟨hperm.nodup_iff.mpr (List.nodup_cons.mpr ⟨hnew, h.nodup⟩), hcached, fun t ht => ?_⟩
  rw [(enqueueSeToRunq_moved b k pt).state]
  rcases List.mem_cons.mp (hperm.mem_iff.mp ht) with rfl | hmem
  · exact ⟨hpt, by rw [if_pos rfl]; decide⟩
  · refine ⟨(h.awake t hmem).1, ?_⟩
    split
    · decide
    · exact (h.awake t hmem).2

omit [DecidableEq τ] in
theorem Queued.congr {k k' : Kernel τ} {ts ts' : List τ} (h : Queued k ts)
    (hroot : k'.runq.root = k.runq.root) (hleft : k'.runq.rbLeftmost = k.runq.rbLeftmost)
    (hstate : ∀ t, t ∈ ts → (k'.task t).state = (k.task t).state) (hsub : ∀ t, t ∈ ts → t ∈ ts') :
    Queued k' ts' := by
  have hqueue : k'.queue = k.queue := congrArg BinTree.inorder hroot
  refine ⟨hqueue ▸ h.nodup, by rw [hleft, hqueue, h.cached], fun t ht => ?_⟩
  obtain ⟨hmem, hawake⟩ := h.awake t (hqueue ▸ ht)
  exact ⟨hsub t hmem, hstate t hmem ▸ hawake⟩

theorem forkyi_eq {s s' : Tasks τ} {pt : τ} {type : TaskType} {pri : ℕ}
    (h : forkyi s pt type pri = some s') : s'.tasks = s.tasks ++ [pt] ∧ ∃ shift,
      s'.kernel = s.kernel.setTask pt
        (forkTask (s.kernel.task pt) s.pid type pri shift s.kernel.current) := by
  simp only [forkyi, Option.ite_none_left_eq_some, Option.some.injEq] at h
  obtain ⟨-, -, rfl⟩ := h
  exact ⟨rfl, _, rfl⟩

/-- A created task is not one that any task yields to yet. -/
theorem forkyi_chained {s s' : Tasks τ} {pt : τ} {type : TaskType} {pri : ℕ}
    (h : forkyi s pt type pri = some s') (hpt : pt ∉ s.tasks) (hs : Chained s.kernel s.tasks) :
    Chained s'.kernel s'.tasks := by
  obtain ⟨htasks, shift, hk⟩ := forkyi_eq h
  have hne : pt ≠ s.kernel.current := fun he => hpt (he ▸ hs.current)
  have hfree : ¬ Waits s.kernel pt := by
    rintro ⟨ts, hts, hmem⟩
    exact hpt (hts.mem_of_closed hs.closed hs.current pt (List.mem_cons_of_mem _ hmem))
  have hother : ∀ t, t ≠ pt → yieldOf s'.kernel t = yieldOf s.kernel t := fun t ht => by
    rw [yieldOf, hk, setTask_of_ne _ _ ht, yieldOf]
  refine hs.switch hne hfree ?_ hother (by rw [hk]; rfl) ?_ ?_ ?_
  · rw [yieldOf, hk, setTask_self, forkTask]
  · intro t ht
    rw [htasks] at ht
    simpa using ht
  · intro t ht
    rw [htasks]
    exact List.mem_append_left _ ht
  · rw [hk, htasks]
    exact List.mem_append_left _ hs.current

theorem forkyi_queued {s s' : Tasks τ} {pt : τ} {type : TaskType} {pri : ℕ}
    (h : forkyi s pt type pri = some s') (hpt : pt ∉ s.tasks) (hs : Queued s.kernel s.tasks) :
    Queued s'.kernel s'.tasks ∧ pt ∉ s'.kernel.queue := by
  obtain ⟨htasks, shift, hk⟩ := forkyi_eq h
  constructor
  · refine hs.congr (by rw [hk]; rfl) (by rw [hk]; rfl) (fun t ht => ?_) fun t ht => ?_
    · have hne : t ≠ pt := fun he => hpt (he ▸ ht)
      rw [hk, setTask_of_ne _ _ hne]
    · rw [htasks]
      exact List.mem_append_left _ ht
  · rw [hk]
    exact fun hmem => hpt (hs.awake pt hmem).1

theorem setTask_sameYield (k : Kernel τ) (t : τ) {p : Task τ} (hp : p.yieldTask = (k.task t).yieldTask) :
    SameYield k (k.setTask t p) := by
  refine ⟨fun u => ?_, rfl⟩
  by_cases hu : u = t
  · rw [yieldOf, hu, setTask_self, hp, yieldOf]
  · rw [yieldOf, setTask_of_ne _ _ hu, yieldOf]

theorem setTask_chained {k : Kernel τ} {ts : List τ} (h : Chained k ts) (t : τ) {p : Task τ}
    (hp : p.yieldTask = (k.task t).yieldTask) : Chained (k.setTask t p) ts :=
  (setTask_sameYield k t hp).chained h h.current

theorem setTask_queued {k : Kernel τ} {ts : List τ} (h : Queued k ts) (t : τ) {p : Task τ}
    (hp : (k.task t).state ≠ .taskWaiting → p.state ≠ .taskWaiting) : Queued (k.setTask t p) ts := by
  refine ⟨h.nodup, h.cached, fun u hu => ⟨(h.awake u hu).1, ?_⟩⟩
  by_cases hut : u = t
  · rw [hut, setTask_self]
    exact hp (hut ▸ (h.awake u hu).2)
  · rw [setTask_of_ne _ _ hut]
    exact (h.awake u hu).2

theorem updateCurrent_task (k : Kernel τ) (elapsed : ℕ) (t : τ) :
    ∃ e, (updateCurrent k elapsed).task t = { k.task t with se := e } := by
  have hset : ∀ e, ∃ e', (k.setSe k.current e).task t = { k.task t with se := e' } := fun e =>
    ⟨((k.setSe k.current e).task t).se, (setSe_seOnly k k.current e).task t⟩
  unfold updateCurrent
  split
  · exact hset _
  · exact hset _
  · exact ⟨(k.task t).se, rfl⟩

theorem updateCurrent_current (k : Kernel τ) (elapsed : ℕ) :
    (updateCurrent k elapsed).current = k.current := by
  unfold updateCurrent
  split <;> rfl

theorem updateCurrent_runq (k : Kernel τ) (elapsed : ℕ) :
    (updateCurrent k elapsed).runq = k.runq := by
  unfold updateCurrent
  split <;> rfl

theorem updateCurrent_sameYield (k : Kernel τ) (elapsed : ℕ) :
    SameYield k (updateCurrent k elapsed) := by
  refine ⟨fun t => ?_, ?_⟩
  · obtain ⟨e, he⟩ := updateCurrent_task k elapsed t
    rw [yieldOf, he, yieldOf]
  · unfold updateCurrent
    split <;> rfl

theorem updateCurrent_queued {k : Kernel τ} {ts : List τ} (h : Queued k ts) (elapsed : ℕ) :
    Queued (updateCurrent k elapsed) ts := by
  have hrunq := updateCurrent_runq k elapsed
  refine h.congr (by rw [hrunq]) (by rw [hrunq]) (fun t _ => ?_) fun t ht => ht
  obtain ⟨e, he⟩ := updateCurrent_task k elapsed t
  rw [he]

theorem updateSe_queued {k k' : Kernel τ} {ts : List τ} (hk : updateSe b k = some k')
    (h : Queued k ts) : Queued k' ts ∧ k'.task = k.task ∧ k'.idleTask = k.idleTask := by
  obtain ⟨hperm, hcached, htask, hidle⟩ := updateSe_perm b h.nodup h.cached hk
  refine ⟨⟨hperm.nodup_iff.mpr h.nodup, hcached, fun t ht => ?_⟩, htask, hidle⟩
  rw [htask]
  exact h.awake t (hperm.mem_iff.mp ht)

theorem cfsScheduler_chained {k k' : Kernel τ} {ts : List τ} (hk : cfsScheduler b k = some k')
    (h : Chained k ts) (hq : Queued k ts) : Chained k' ts ∧ Queued k' ts := by
  obtain ⟨k₁, hk₁, hk'⟩ := Option.bind_eq_some_iff.mp hk
  obtain ⟨next, hnext, rfl⟩ := Option.map_eq_some_iff.mp hk'
  obtain ⟨hq₁, htask, hidle⟩ := updateSe_queued b hk₁ hq
  have hmem : next ∈ k₁.queue := List.mem_of_head? (hq₁.cached ▸ hnext)
  have hsame : SameYield k { k₁ with current := next } :=
    ⟨fun t => congrArg (fun f => (f t).yieldTask) htask, hidle⟩
  exact ⟨hsame.chained h (hq₁.awake next hmem).1, hq₁.congr rfl rfl (fun _ _ => rfl) fun _ ht => ht⟩

theorem schedExpired_chained {k k' : Kernel τ} {ts : List τ} {thisCurrent : τ} {pct : TimerId}
    (hk : schedExpired b k thisCurrent pct = some k') (h : Chained k ts) (hq : Queued k ts) :
    Chained k' ts ∧ Queued k' ts := by
  unfold schedExpired at hk
  split at hk
  · cases hk
    exact ⟨h, hq⟩
  · obtain ⟨k₁, hk₁, rfl⟩ := Option.map_eq_some_iff.mp hk
    obtain ⟨h₁, hq₁⟩ := cfsScheduler_chained b hk₁ h hq
    exact ⟨⟨h₁.idle, h₁.current, h₁.closed, h₁.reaches⟩, ⟨hq₁.nodup, hq₁.cached, hq₁.awake⟩⟩

/-- The tasks of `switch_to_timer`: only the yield pointer of the task that gets the CPU changes. -/
theorem switchToTimer_spec {k : Kernel τ} {pt : τ} (hne : pt ≠ k.current) :
    (switchToTimer k k.current pt).current = pt ∧
      yieldOf (switchToTimer k k.current pt) pt = some k.current ∧
      (∀ t, t ≠ pt → yieldOf (switchToTimer k k.current pt) t = yieldOf k t) ∧
      (switchToTimer k k.current pt).idleTask = k.idleTask ∧
      ∀ ts, Queued k ts → Queued (switchToTimer k k.current pt) ts := by
  unfold switchToTimer
  rw [if_neg hne.symm]
  obtain ⟨k₁, hk₁⟩ : ∃ k₁, k₁ = if (k.task k.current).type = .rtTask then
      k.setTask k.current { k.task k.current with preempted := 1 } else k := ⟨_, rfl⟩
  have hframe : SameYield k k₁ ∧ ∀ ts, Queued k ts → Queued k₁ ts := by
    rw [hk₁]
    split
    · exact ⟨setTask_sameYield k _ rfl, fun ts h => setTask_queued h _ fun hs => hs⟩
    · exact ⟨⟨fun _ => rfl, rfl⟩, fun _ h => h⟩
  rw [← hk₁]
  refine ⟨rfl, ?_, fun t ht => ?_, hframe.1.idleTask, fun ts h => ?_⟩
  · exact congrArg Task.yieldTask (setTask_self k₁ pt _)
  · exact (congrArg Task.yieldTask (setTask_of_ne k₁ _ ht)).trans (hframe.1.yieldTask t)
  · have hset := setTask_queued (hframe.2 ts h) pt
      (p := { k₁.task pt with yieldTask := some k.current }) fun hs => hs
    exact ⟨hset.nodup, hset.cached, hset.awake⟩

theorem switchToTimer_chained {k : Kernel τ} {ts : List τ} (h : Chained k ts) {pt : τ} (hpt : pt ∈ ts)
    (hfree : pt ≠ k.current → ¬ Waits k pt) : Chained (switchToTimer k k.current pt) ts := by
  rcases eq_or_ne pt k.current with he | hne
  · rw [switchToTimer, if_pos he.symm]
    exact h
  · obtain ⟨hcurrent, hself, hother, hidle, -⟩ := switchToTimer_spec hne
    exact h.switch hne (hfree hne) hself hother hidle (fun t ht => Or.inl ht) (fun t ht => ht)
      (by rw [hcurrent]; exact hpt)

theorem switchToTimer_queued {k : Kernel τ} {ts : List τ} (h : Queued k ts) (pt : τ) :
    Queued (switchToTimer k k.current pt) ts := by
  rcases eq_or_ne pt k.current with he | hne
  · rw [switchToTimer, if_pos he.symm]
    exact h
  · exact (switchToTimer_spec hne).2.2.2.2 ts h

theorem enqueueSeToRunq_sameYield (k : Kernel τ) (pt : τ) :
    SameYield k (enqueueSeToRunq b k pt) :=
  ⟨(enqueueSeToRunq_moved b k pt).yieldTask, enqueueSeToRunq_idleTask b k pt⟩

theorem realtimeExpired_sameYield (k : Kernel τ) (thisCurrent : τ) (pct : TimerId) :
    SameYield (switchToTimer k thisCurrent (k.timers.timer pct).pt) (realtimeExpired k thisCurrent pct) ∧
      (realtimeExpired k thisCurrent pct).current =
        (switchToTimer k thisCurrent (k.timers.timer pct).pt).current := by
  unfold realtimeExpired
  dsimp only
  split
  · exact ⟨setTask_sameYield _ _ (by rfl), rfl⟩
  · exact ⟨⟨fun _ => rfl, rfl⟩, rfl⟩

theorem oneshotExpired_sameYield (k : Kernel τ) (thisCurrent : τ) (pct : TimerId) :
    SameYield (switchToTimer k thisCurrent (k.timers.timer pct).pt)
        (oneshotExpired b bt k thisCurrent pct) ∧
      (oneshotExpired b bt k thisCurrent pct).current =
        (switchToTimer k thisCurrent (k.timers.timer pct).pt).current := by
  unfold oneshotExpired
  dsimp only
  split
  · have h := enqueueSeToRunq_sameYield b (switchToTimer k thisCurrent (k.timers.timer pct).pt)
      (k.timers.timer pct).pt
    exact ⟨⟨h.yieldTask, h.idleTask⟩, enqueueSeToRunq_current b _ _⟩
  · exact ⟨⟨fun _ => rfl, rfl⟩, rfl⟩

theorem realtimeExpired_queued {k : Kernel τ} {ts : List τ} (h : Queued k ts) (pct : TimerId) :
    Queued (realtimeExpired k k.current pct) ts := by
  have h₁ := switchToTimer_queued h (k.timers.timer pct).pt
  unfold realtimeExpired
  dsimp only
  split
  · exact setTask_queued h₁ _ fun hs => hs
  · exact h₁

theorem oneshotExpired_queued {k : Kernel τ} {ts : List τ} (h : Queued k ts) {pct : TimerId}
    (hpt : (k.timers.timer pct).pt ∈ ts) : Queued (oneshotExpired b bt k k.current pct) ts := by
  have h₁ := switchToTimer_queued h (k.timers.timer pct).pt
  unfold oneshotExpired
  dsimp only
  split
  case isTrue hwaiting =>
    have hnew : (k.timers.timer pct).pt ∉ (switchToTimer k k.current (k.timers.timer pct).pt).queue :=
      fun hmem => (h₁.awake _ hmem).2 hwaiting
    have h₂ := enqueueSeToRunq_queued b h₁ hpt hnew
    exact ⟨h₂.nodup, h₂.cached, h₂.awake⟩
  case isFalse => exact ⟨h₁.nodup, h₁.cached, h₁.awake⟩

omit [DecidableEq τ] in
theorem SameYield.waits {k k' : Kernel τ} (h : SameYield k k') (hcurrent : k'.current = k.current) {t : τ}
    (hw : Waits k' t) : Waits k t := by
  obtain ⟨ts, hts, hmem⟩ := hw
  rw [hcurrent] at hts
  exact ⟨ts, hts.congr fun q _ => (h.yieldTask q).symm, hmem⟩

/-- An interrupt of a realtime or oneshot timer switches to the timer's task. -/
theorem expire_switch {k k' : Kernel τ} {pct : TimerId} {elapsed : ℕ}
    (hk : expire b bt k elapsed pct = some k') (htype : (k.timers.timer pct).type ≠ .schedTimer) :
    SameYield (switchToTimer (updateCurrent k elapsed) k.current (k.timers.timer pct).pt) k' ∧
      k'.current =
        (switchToTimer (updateCurrent k elapsed) k.current (k.timers.timer pct).pt).current := by
  rw [← updateCurrent_timers k elapsed]
  rcases expire_cases hk with ⟨hsched, -⟩ | ⟨-, rfl⟩ | ⟨-, rfl⟩
  · exact absurd hsched htype
  · exact realtimeExpired_sameYield _ _ _
  · exact oneshotExpired_sameYield b bt _ _ _

theorem expire_queued {k k' : Kernel τ} {ts : List τ} {pct : TimerId} {elapsed : ℕ}
    (hk : expire b bt k elapsed pct = some k') (htype : (k.timers.timer pct).type ≠ .schedTimer)
    (h : Queued k ts) (hpt : (k.timers.timer pct).pt ∈ ts) : Queued k' ts := by
  have h₁ := updateCurrent_queued h elapsed
  rw [← updateCurrent_timers k elapsed] at hpt
  rcases expire_cases hk with ⟨hsched, -⟩ | ⟨-, rfl⟩ | ⟨-, rfl⟩
  · exact absurd hsched htype
  · rw [← updateCurrent_current k elapsed]
    exact realtimeExpired_queued h₁ pct
  · rw [← updateCurrent_current k elapsed]
    exact oneshotExpired_queued b bt h₁ hpt

theorem expire_inv {k k' : Kernel τ} {ts : List τ} {pct : TimerId} {elapsed : ℕ}
    (hk : expire b bt k elapsed pct = some k') (h : Chained k ts) (hq : Queued k ts)
    (hpt : (k.timers.timer pct).pt ∈ ts)
    (hfree : (k.timers.timer pct).type ≠ .schedTimer → (k.timers.timer pct).pt ≠ k.current →
      ¬ Waits k (k.timers.timer pct).pt) : Chained k' ts ∧ Queued k' ts := by
  have hsame := updateCurrent_sameYield k elapsed
  have hcurrent := updateCurrent_current k elapsed
  have h₁ : Chained (updateCurrent k elapsed) ts := hsame.chained h (hcurrent ▸ h.current)
  by_cases htype : (k.timers.timer pct).type = .schedTimer
  · rcases expire_cases hk with ⟨-, hsched⟩ | ⟨hreal, -⟩ | ⟨honeshot, -⟩
    · exact schedExpired_chained b hsched h₁ (updateCurrent_queued hq elapsed)
    · exact absurd (htype.symm.trans hreal) (by decide)
    · exact absurd (htype.symm.trans honeshot) (by decide)
  · obtain ⟨hsame', hcurrent'⟩ := expire_switch b bt hk htype
    rw [← hcurrent] at hsame' hcurrent' hfree
    have h₂ := switchToTimer_chained h₁ hpt fun hne hw => hfree htype hne (hsame.waits hcurrent hw)
    exact ⟨hsame'.chained h₂ (hcurrent' ▸ h₂.current), expire_queued b bt hk htype hq hpt⟩

omit [DecidableEq τ] in
theorem yieldyi_chained {k : Kernel τ} {ts : List τ} (h : Chained k ts) (hq : Queued k ts) :
    Chained (yieldyi k) ts ∧ Queued (yieldyi k) ts := by
  unfold yieldyi
  split
  · exact ⟨h, hq⟩
  case h_2 y hy =>
    refine ⟨⟨h.idle, ?_, h.closed, h.reaches⟩, hq.nodup, hq.cached, hq.awake⟩
    dsimp only
    split
    · exact h.closed _ h.current y hy
    · exact h.idle

def Inv (s : Tasks τ) : Prop := Chained s.kernel s.tasks ∧ Queued s.kernel s.tasks

theorem createCfsTask_inv {s s' : Tasks τ} {pt : τ} {pri : ℕ} (hs : createCfsTask b s pt pri = some s')
    (h : Inv s) (hpt : pt ∉ s.tasks) : Inv s' := by
  obtain ⟨s₁, hs₁, rfl⟩ := Option.map_eq_some_iff.mp hs
  have h₁ := forkyi_chained hs₁ hpt h.1
  obtain ⟨hq₁, hnew⟩ := forkyi_queued hs₁ hpt h.2
  have hmem : pt ∈ s₁.tasks := by
    rw [(forkyi_eq hs₁).1]
    exact List.mem_append_right _ List.mem_cons_self
  have hcurrent : (enqueueSeToRunq b s₁.kernel pt).current ∈ s₁.tasks := by
    rw [enqueueSeToRunq_current]
    exact h₁.current
  have h₂ := (enqueueSeToRunq_sameYield b s₁.kernel pt).chained h₁ hcurrent
  have hq₂ := enqueueSeToRunq_queued b hq₁ hmem hnew
  exact ⟨⟨h₂.idle, h₂.current, h₂.closed, h₂.reaches⟩, ⟨hq₂.nodup, hq₂.cached, hq₂.awake⟩⟩

/-- A task that is not for the run queue gets its state and its timer. -/
theorem forkyi_inv {s s' : Tasks τ} {pt : τ} {type : TaskType} {timers : Timers τ}
    (hs : forkyi s pt type 0 = some s') (h : Inv s) (hpt : pt ∉ s.tasks) :
    Inv { s' with kernel := { s'.kernel.setState pt .taskRunning with timers := timers } } := by
  have h₁ := forkyi_chained hs hpt h.1
  obtain ⟨hq₁, -⟩ := forkyi_queued hs hpt h.2
  have h₂ : Chained (s'.kernel.setState pt .taskRunning) s'.tasks :=
    setTask_chained h₁ pt (by rfl)
  have hq₂ : Queued (s'.kernel.setState pt .taskRunning) s'.tasks :=
    setTask_queued hq₁ pt fun _ => by simp
  exact ⟨⟨h₂.idle, h₂.current, h₂.closed, h₂.reaches⟩, ⟨hq₂.nodup, hq₂.cached, hq₂.awake⟩⟩

theorem step_inv (s : Tasks τ) (i : Step τ) (t : Tasks τ) (h : Inv s) (hc : Unnested s i)
    (ht : step b bt s i = some t) : Inv t := by
  cases i with
  | createCfs pt pri =>
      simp only [step, Option.ite_none_left_eq_some] at ht
      exact createCfsTask_inv b ht.2 h ht.1
  | createRt pt msec =>
      simp only [step, Option.ite_none_left_eq_some] at ht
      obtain ⟨s₁, hs₁, rfl⟩ := Option.map_eq_some_iff.mp ht.2
      exact forkyi_inv hs₁ h ht.1
  | createOneshot pt msec =>
      simp only [step, Option.ite_none_left_eq_some] at ht
      obtain ⟨s₁, hs₁, rfl⟩ := Option.map_eq_some_iff.mp ht.2
      exact forkyi_inv hs₁ h ht.1
  | irq pct elapsed =>
      simp only [step, Option.ite_none_right_eq_some] at ht
      obtain ⟨k, hk, rfl⟩ := Option.map_eq_some_iff.mp ht.2
      exact expire_inv b bt hk h.1 h.2 ht.1.2 hc
  | job done =>
      cases ht
      exact ⟨setTask_chained h.1 _ (by rfl), setTask_queued h.2 _ fun hs => hs⟩
  | yieldyi =>
      cases ht
      exact yieldyi_chained h.1 h.2

omit [DecidableEq τ] in
/-- Giving the CPU to a task that waits for it closes a cycle. -/
theorem Waits.not_acyclic {k : Kernel τ} {pt : τ} (h : Waits k pt) {s : Tasks τ}
    (hcurrent : s.kernel.current = pt) (hself : yieldOf s.kernel pt = some k.current)
    (hother : ∀ t, t ≠ pt → yieldOf s.kernel t = yieldOf k t) : ¬ Acyclic s := by
  rintro ⟨ts', hts', hnd, -⟩
  obtain ⟨ts, hts, hmem⟩ := h
  rw [hcurrent] at hts' hnd
  cases ts' with
  | nil => exact absurd (hself.symm.trans hts') (Option.some_ne_none _)
  | cons q ts' =>
      obtain rfl := Option.some.inj (hself.symm.trans hts'.1)
      have hback := hts.mem_of_agree (List.mem_cons_of_mem _ hmem) hother hts'.2
      exact (List.nodup_cons.mp hnd).1 hback

theorem unnested_of_acyclic (s : Tasks τ) (i : Step τ) (t : Tasks τ) (_ : Inv s)
    (ht : step b bt s i = some t) (hacyclic : Acyclic t) : Unnested s i := by
  cases i with
  | irq pct elapsed =>
      intro htype hne hw
      simp only [step, Option.ite_none_right_eq_some] at ht
      obtain ⟨k', hk, rfl⟩ := Option.map_eq_some_iff.mp ht.2
      obtain ⟨hsame, hcurrent⟩ := expire_switch b bt hk htype
      have hold := updateCurrent_sameYield s.kernel elapsed
      have heq := updateCurrent_current s.kernel elapsed
      rw [← heq] at hne hsame hcurrent
      obtain ⟨hpt, hself, hother, -, -⟩ := switchToTimer_spec hne
      refine hw.not_acyclic (hcurrent.trans hpt) ?_ (fun t ht => ?_) hacyclic
      · rw [hsame.yieldTask, hself, heq]
      · rw [hsame.yieldTask, hother t ht, hold.yieldTask]
  | createCfs pt pri => trivial
  | createRt pt msec => trivial
  | createOneshot pt msec => trivial
  | job done => trivial
  | yieldyi => trivial

theorem initTasks_inv (k : Kernel τ) (pt : τ) (cpuid pid : ℕ) : Inv (initTasks b k pt cpuid pid) := by
  obtain ⟨k₀, hk₀⟩ : ∃ k₀, k₀ = WaitQueueLinks.initWq
      { k.setTask pt (initIdletask (k.task pt) cpuid) with idleTask := pt, current := pt } := ⟨_, rfl⟩
  have hkernel : (initTasks b k pt cpuid pid).kernel = initRq b k₀ := by rw [hk₀]; rfl
  have htasks : (initTasks b k pt cpuid pid).tasks = [pt] := rfl
  have hidle : k₀.idleTask = pt := by rw [hk₀]; rfl
  have hcurrent : k₀.current = pt := by rw [hk₀]; rfl
  have hyield : yieldOf k₀ pt = none := by
    rw [hk₀]
    exact congrArg Task.yieldTask (setTask_self k pt _)
  have hmoved := enqueueSeToRunq_moved b { k₀ with
    runq := { root := .nil, rbLeftmost := some k₀.idleTask, prioritySum := 0, cfsTaskNum := 0 } }
    k₀.idleTask
  have hend : yieldOf (initRq b k₀) pt = none := (hmoved.yieldTask pt).trans hyield
  have hidle' : (initRq b k₀).idleTask = pt := (enqueueSeToRunq_idleTask b _ _).trans hidle
  have hcurrent' : (initRq b k₀).current = pt := (enqueueSeToRunq_current b _ _).trans hcurrent
  obtain ⟨hqueue, hcached⟩ := initRq_queue b k₀
  rw [Inv, hkernel, htasks]
  refine ⟨⟨?_, ?_, fun t ht y hy => ?_, fun t ht => ?_⟩, ?_, ?_, fun t ht => ?_⟩
  · rw [hidle']
    exact List.mem_cons_self
  · rw [hcurrent']
    exact List.mem_cons_self
  · rw [List.mem_singleton.mp ht, hend] at hy
    cases hy
  · rw [List.mem_singleton.mp ht, hidle']
    exact ⟨[], hend, rfl⟩
  · rw [hqueue]
    exact List.nodup_singleton _
  · rw [hqueue, hcached]
    rfl
  · rw [hqueue, hidle] at ht
    refine ⟨ht, ?_⟩
    have hstate := hmoved.state pt
    rw [List.mem_singleton.mp ht]
    change ((initRq b k₀).task pt).state = _ at hstate
    rw [hstate, if_pos hidle.symm]
    decide

/-- From boot on, `yield_task` leads from the current task to the idle task in every state exactly when
no timer gives the CPU to a task that waits to have it handed back. -/
theorem yield_chain_acyclic_iff (k : Kernel τ) (pt : τ) (cpuid pid : ℕ) (is : List (Step τ)) :
    Machine.Always (step b bt) Acyclic (initTasks b k pt cpuid pid) is ↔
      Machine.StepsMeet (step b bt) Unnested (initTasks b k pt cpuid pid) is :=
  Machine.always_iff_stepsMeet Inv (fun _ h => h.1.acyclic) (step_inv b bt) (unnested_of_acyclic b bt)
    (initTasks_inv b k pt cpuid pid)

/-- The jobs of two RT tasks are still running when the first timer fires again. -/
def nestedTimers : List (Step ℕ) :=
  [.createRt 1 120, .createRt 2 125, .irq (.rt 0) 39999960, .irq (.rt 1) 1666665, .irq (.rt 0) 38333295]

theorem rt_tasks_yield_to_each_other :
    ∃ s, Machine.exec (step (Balancer.plain ℕ) (Balancer.plain TimerId))
        (initTasks (Balancer.plain ℕ) bootKernel 0 0 1) nestedTimers = some s ∧
      yieldOf s.kernel 1 = some 2 ∧ yieldOf s.kernel 2 = some 1 ∧ ¬ Acyclic s := by
  have hrun : (Machine.exec (step (Balancer.plain ℕ) (Balancer.plain TimerId))
      (initTasks (Balancer.plain ℕ) bootKernel 0 0 1) nestedTimers).map
      (fun s => (s.kernel.current, yieldOf s.kernel 1, yieldOf s.kernel 2)) = some (1, some 2, some 1) := by
    decide +kernel
  obtain ⟨s, hs, hv⟩ := Option.map_eq_some_iff.mp hrun
  simp only [Prod.mk.injEq] at hv
  obtain ⟨hcurrent, hfirst, hsecond⟩ := hv
  refine ⟨s, hs, hfirst, hsecond, fun h => ?_⟩
  obtain ⟨ts, hts, hnd, -⟩ := h
  rw [hcurrent] at hts hnd
  have hback : 1 ∈ ts.tail := by
    cases ts with
    | nil => exact absurd (hfirst.symm.trans hts) (by decide)
    | cons q ts =>
        obtain rfl := Option.some.inj (hfirst.symm.trans hts.1)
        cases ts with
        | nil => exact absurd (hsecond.symm.trans hts.2) (by decide)
        | cons r ts =>
            obtain rfl := Option.some.inj (hsecond.symm.trans hts.2.1)
            exact List.mem_cons_self
  exact (List.nodup_cons.mp hnd).1 (List.mem_of_mem_tail hback)

end Slos.YieldChain
