import Slos.TimerOrder
import Slos.YieldChain

/-!
# Sleeping tasks

`delay` one statement at a time, with timer interrupts between any two of them. A task leaves the run queue
before its oneshot timer is armed. Once the timer is armed the task has a wakeup pending until the timer
expires, which makes it runnable, as long as no slot of the ring is taken again while its timer is linked.
-/

namespace Slos.Sleepers
open Word SearchTree Kernel YieldChain
open TimerOrder (slot)

variable {τ : Type}

/-- What a task has done of `delay`: nothing, left the run queue, armed its timer, corrected its yield
pointer. -/
inductive DelayLoc
  | outside
  | dequeued (ticks : ℕ)
  | armed
  | corrected
  deriving DecidableEq

structure State (τ : Type) extends Tasks τ where
  loc : τ → DelayLoc

/-- `statement` is the next statement of `delay` of the current task; `yieldyi` and `job` are what a task does
outside it. -/
inductive Step (τ : Type)
  | createCfs (pt : τ) (pri : ℕ)
  | createRt (pt : τ) (msec : ℕ)
  | createOneshot (pt : τ) (msec : ℕ)
  | mdelay (msecs : ℕ)
  | statement
  | irq
  | job (done : ℕ)
  | yieldyi

/-- A oneshot timer of the task is armed. -/
def HasTimer (s : Timers τ) (t : τ) : Prop := ∃ idx, .oneshot idx ∈ s.queue ∧ (s.timer (.oneshot idx)).pt = t

/-- Every sleeper is the current task or has a wakeup pending. -/
def NoneLost (s : State τ) : Prop :=
  ∀ t ∈ s.tasks, (s.kernel.task t).state = .taskWaiting → t = s.kernel.current ∨ HasTimer s.kernel.timers t

/-- No timer interrupt comes between leaving the run queue and arming the timer, and no slot of the ring is
taken while its timer is linked. -/
def Undisturbed (s : State τ) : Step τ → Prop
  | .irq => ∀ ticks, s.loc s.kernel.current ≠ .dequeued ticks
  | .createOneshot _ _ => slot s.kernel.timers ∉ s.kernel.timers.queue
  | .statement => (∃ ticks, s.loc s.kernel.current = .dequeued ticks) →
      slot s.kernel.timers ∉ s.kernel.timers.queue
  | _ => True

def decidableDequeued (l : DelayLoc) : Decidable (∃ ticks, l = .dequeued ticks) :=
  match l with
  | .dequeued ticks => isTrue ⟨ticks, rfl⟩
  | .outside => isFalse (by rintro ⟨_, ⟨⟩⟩)
  | .armed => isFalse (by rintro ⟨_, ⟨⟩⟩)
  | .corrected => isFalse (by rintro ⟨_, ⟨⟩⟩)

instance (s : State τ) (i : Step τ) : Decidable (Undisturbed s i) :=
  have := decidableDequeued (s.loc s.kernel.current)
  match i with
  | .irq => decidable_of_iff (¬ ∃ ticks, s.loc s.kernel.current = .dequeued ticks) not_exists
  | .createOneshot _ _ => inferInstanceAs (Decidable (_ ∉ _))
  | .statement => inferInstanceAs (Decidable (_ → _ ∉ _))
  | .createCfs _ _ => isTrue trivial
  | .createRt _ _ => isTrue trivial
  | .mdelay _ => isTrue trivial
  | .job _ => isTrue trivial
  | .yieldyi => isTrue trivial

/-- The timers of the ring are oneshot timers. -/
def Typed (s : Timers τ) : Prop := ∀ idx, .oneshot idx ∈ s.queue → (s.timer (.oneshot idx)).type = .oneshotTimer

structure Inv (s : State τ) : Prop where
  linked : Linked s.kernel.timers
  typed : Typed s.kernel.timers
  window : ∀ t ticks, s.loc t = .dequeued ticks → t = s.kernel.current ∧ ticks < size
  asleep : ∀ t ∈ s.tasks, (s.kernel.task t).state = .taskWaiting →
    (∃ ticks, s.loc t = .dequeued ticks) ∨ HasTimer s.kernel.timers t

theorem Inv.noneLost {s : State τ} (h : Inv s) : NoneLost s := fun t ht hstate =>
  (h.asleep t ht hstate).imp_left fun ⟨ticks, hloc⟩ => (h.window t ticks hloc).1

variable [DecidableEq τ] (b : Balancer τ) (bt : Balancer TimerId)

def State.at (s : State τ) (k : Kernel τ) (l : DelayLoc) : State τ :=
  { s with kernel := k, loc := Function.update s.loc s.kernel.current l }

/-- `if (this_current->yield_task->state == TASK_WAITING) this_current->yield_task = this_idle_task;` -/
def correctYield (k : Kernel τ) : Option (Kernel τ) :=
  (k.task k.current).yieldTask.map fun yieldTask =>
    if (k.task yieldTask).state = .taskWaiting then
      k.setTask k.current { k.task k.current with yieldTask := some k.idleTask }
    else k

def delayStatement (s : State τ) : Option (State τ) :=
  let k := s.kernel
  match s.loc k.current with
  | .outside => none
  | .dequeued ticks => some (s.at { k with timers := createOneshotTimer bt k.timers k.current ticks } .armed)
  | .armed => (correctYield k).map fun k => s.at k .corrected
  | .corrected => some (s.at (yieldyi k) .outside)

/-- A call the current task makes outside `delay`. -/
def outside (s : State τ) (call : Option (Tasks τ)) : Option (State τ) :=
  if s.loc s.kernel.current = .outside then call.map fun t => { s with toTasks := t } else none

def step (s : State τ) : Step τ → Option (State τ)
  | .createCfs pt pri => outside s (if pt ∈ s.tasks then none else createCfsTask b s.toTasks pt pri)
  | .createRt pt msec => outside s (if pt ∈ s.tasks then none else createRtTask bt s.toTasks pt msec)
  | .createOneshot pt msec => outside s (if pt ∈ s.tasks then none else createOneshotTask bt s.toTasks pt msec)
  | .mdelay msecs =>
      if s.loc s.kernel.current = .outside ∧ (s.kernel.task s.kernel.current).type = .cfsTask then
        some (s.at (dequeueSeToWq b s.kernel s.kernel.current)
          (.dequeued (delayTicks s.kernel.timers.ticksPerSec msecs)))
      else none
  | .statement => delayStatement bt s
  | .irq => (timerIrq b bt s.kernel).map fun k => { s with kernel := k }
  | .job done => outside s (some { s.toTasks with
      kernel := s.kernel.setTask s.kernel.current { s.kernel.task s.kernel.current with done := done } })
  | .yieldyi => outside s (some { s.toTasks with kernel := yieldyi s.kernel })

/-- Boot has run `init_idletask`, `init_wq` and `init_rq`, and started the timer of the scheduler. -/
def start (k : Kernel τ) (pt : τ) (cpuid pid : ℕ) : State τ :=
  { initTasks b k pt cpuid pid with loc := fun _ => .outside }

section Timers

variable {s s' : Timers τ} {t : τ} {pct : TimerId}

/-- The timers linked in `s` are linked in `s'` for the same tasks; what is new in the ring is a oneshot
timer. -/
structure Keeps (s s' : Timers τ) : Prop where
  mem : ∀ u ∈ s.queue, u ∈ s'.queue
  timer : ∀ u ∈ s.queue, s'.timer u = s.timer u
  new : ∀ idx, .oneshot idx ∈ s'.queue → .oneshot idx ∈ s.queue ∨ (s'.timer (.oneshot idx)).type = .oneshotTimer

omit [DecidableEq τ] in
theorem Keeps.typed (h : Keeps s s') (ht : Typed s) : Typed s' := by
  intro idx hidx
  rcases h.new idx hidx with hold | hnew
  · rw [h.timer _ hold]
    exact ht idx hold
  · exact hnew

omit [DecidableEq τ] in
theorem Keeps.hasTimer (h : Keeps s s') (ht : HasTimer s t) : HasTimer s' t := by
  obtain ⟨idx, hmem, hpt⟩ := ht
  refine ⟨idx, h.mem _ hmem, ?_⟩
  rw [h.timer _ hmem]
  exact hpt

omit [DecidableEq τ] in
theorem createRtTimer_keeps (hl : Linked s) (rtTask : τ) (msec : ℕ) : Keeps s (createRtTimer bt s rtTask msec) := by
  have hperm := (createRtTimer_inserted bt hl rtTask msec).perm
  have hnew : .rt s.rtCreated ∉ s.queue := fun hmem => (hl.fresh _ hmem).ne rfl
  constructor
  · intro u hu
    exact hperm.mem_iff.mpr (List.mem_cons_of_mem _ hu)
  · intro u hu
    exact setTimer_queued hnew hu _
  · intro idx hidx
    rcases List.mem_cons.mp (hperm.mem_iff.mp hidx) with he | hold
    · cases he
    · exact Or.inl hold

omit [DecidableEq τ] in
theorem createOneshotTimer_keeps (hl : Linked s) (oneshotTask : τ) {tc : ℕ} (htc : tc < size)
    (hfree : slot s ∉ s.queue) : Keeps s (createOneshotTimer bt s oneshotTask tc) ∧
      HasTimer (createOneshotTimer bt s oneshotTask tc) oneshotTask := by
  have hperm := (createOneshotTimer_inserted bt hl oneshotTask htc hfree).perm
  have hself : (createOneshotTimer bt s oneshotTask tc).timer (slot s) = _ := setTimer_self s (slot s) _
  constructor
  · constructor
    · intro u hu
      exact hperm.mem_iff.mpr (List.mem_cons_of_mem _ hu)
    · intro u hu
      exact setTimer_queued hfree hu _
    · intro idx hidx
      rcases List.mem_cons.mp (hperm.mem_iff.mp hidx) with he | hold
      · rw [he]
        exact Or.inr (congrArg TimerStruct.type hself)
      · exact Or.inl hold
  · exact ⟨_, hperm.mem_iff.mpr List.mem_cons_self, congrArg TimerStruct.pt hself⟩

/-- An interrupt keeps the timers of all tasks but the one whose oneshot timer expires. -/
theorem timerIrq_keeps {k k' : Kernel τ} (h : timerIrq b bt k = some k') (hl : Linked k.timers)
    (ht : Typed k.timers) : Linked k'.timers ∧ Typed k'.timers ∧ ∀ t, HasTimer k.timers t →
      (∀ pct, k.timers.rbLeftmost = some pct → (k.timers.timer pct).type = .oneshotTimer →
        (k.timers.timer pct).pt ≠ t) → HasTimer k'.timers t := by
  obtain ⟨pct, hirq⟩ := timerIrq_interrupted bt b h hl
  refine ⟨hirq.linked, fun idx hidx => (hirq.type _).trans (ht idx (hirq.mem bt hidx)), fun t hown hne => ?_⟩
  obtain ⟨idx, hidx, hpt⟩ := hown
  refine ⟨idx, ?_, ?_⟩
  · rw [hirq.queue.mem_iff]
    split
    · rename_i honeshot
      apply (List.mem_erase_of_ne _).mpr hidx
      rintro rfl
      exact hne _ hirq.expired honeshot hpt
    · exact hidx
  · rcases hirq.pt (.oneshot idx) with hsame | ⟨rfl, hsched⟩
    · exact hsame.trans hpt
    · exact absurd (hsched.symm.trans (ht idx hidx)) (by decide)

end Timers

section States

variable {k k' : Kernel τ} {t : τ}

/-- All tasks are in the state they were in. -/
def SameState (k k' : Kernel τ) : Prop := ∀ t, (k'.task t).state = (k.task t).state

omit [DecidableEq τ] in
theorem SameState.trans {k'' : Kernel τ} (h : SameState k k') (h' : SameState k' k'') : SameState k k'' :=
  fun t => (h' t).trans (h t)

theorem setTask_sameState (k : Kernel τ) (t : τ) {p : Task τ} (hp : p.state = (k.task t).state) :
    SameState k (k.setTask t p) := by
  intro u
  by_cases hu : u = t
  · rw [hu, setTask_self, hp]
  · rw [setTask_of_ne _ _ hu]

theorem updateCurrent_sameState (k : Kernel τ) (elapsed : ℕ) : SameState k (updateCurrent k elapsed) := by
  intro t
  obtain ⟨e, he⟩ := updateCurrent_task k elapsed t
  rw [he]

theorem cfsScheduler_sameState (h : cfsScheduler b k = some k') : SameState k k' := by
  obtain ⟨k₁, hk₁, hk'⟩ := Option.bind_eq_some_iff.mp h
  obtain ⟨cur, -, rfl⟩ := Option.map_eq_some_iff.mp hk₁
  obtain ⟨next, -, rfl⟩ := Option.map_eq_some_iff.mp hk'
  intro t
  dsimp only
  split_ifs
  · rfl
  · rfl

theorem schedExpired_sameState {thisCurrent : τ} {pct : TimerId} (h : schedExpired b k thisCurrent pct = some k') :
    SameState k k' := by
  unfold schedExpired at h
  split_ifs at h
  · cases h
    exact fun _ => rfl
  · obtain ⟨k₁, hk₁, rfl⟩ := Option.map_eq_some_iff.mp h
    have hsame := cfsScheduler_sameState b hk₁
    exact hsame

theorem switchToTimer_sameState (k : Kernel τ) (thisCurrent pt : τ) :
    SameState k (switchToTimer k thisCurrent pt) := by
  have hpreempted : SameState k (if (k.task thisCurrent).type = .rtTask then
      k.setTask thisCurrent { k.task thisCurrent with preempted := 1 } else k) := by
    split
    · apply setTask_sameState
      rfl
    · exact fun _ => rfl
  have hgiven (k₁ : Kernel τ) : SameState k₁ { k₁.setTask pt { k₁.task pt with yieldTask := some thisCurrent } with
      current := pt } := by
    have hset := setTask_sameState k₁ pt (p := { k₁.task pt with yieldTask := some thisCurrent }) rfl
    exact hset
  unfold switchToTimer
  split
  · exact fun _ => rfl
  · exact hpreempted.trans (hgiven _)

theorem realtimeExpired_sameState (k : Kernel τ) (thisCurrent : τ) (pct : TimerId) :
    SameState k (realtimeExpired k thisCurrent pct) := by
  have hswitch := switchToTimer_sameState k thisCurrent (k.timers.timer pct).pt
  unfold realtimeExpired
  dsimp only
  split_ifs
  · exact hswitch.trans (setTask_sameState _ thisCurrent rfl)
  · exact hswitch

/-- The expiry of a oneshot timer wakes its task, and no task falls asleep. -/
theorem oneshotExpired_asleep {thisCurrent : τ} {pct : TimerId}
    (h : ((oneshotExpired b bt k thisCurrent pct).task t).state = .taskWaiting) :
    (k.task t).state = .taskWaiting ∧ (k.timers.timer pct).pt ≠ t := by
  obtain ⟨pt, hpt⟩ : ∃ pt, pt = (k.timers.timer pct).pt := ⟨_, rfl⟩
  obtain ⟨k₁, hk₁⟩ : ∃ k₁, k₁ = switchToTimer k thisCurrent pt := ⟨_, rfl⟩
  have hswitch : SameState k k₁ := hk₁ ▸ switchToTimer_sameState k thisCurrent pt
  unfold oneshotExpired at h
  dsimp only at h
  rw [← hpt, ← hk₁] at h
  rw [← hpt]
  by_cases hwaiting : (k₁.task pt).state = .taskWaiting
  · rw [if_pos hwaiting, (enqueueSeToRunq_moved b k₁ pt).state] at h
    by_cases ht : t = pt
    · rw [if_pos ht] at h
      cases h
    · rw [if_neg ht, hswitch] at h
      exact ⟨h, Ne.symm ht⟩
  · rw [if_neg hwaiting] at h
    refine ⟨(hswitch t).symm.trans h, ?_⟩
    rintro rfl
    exact hwaiting h

theorem timerIrq_asleep (h : timerIrq b bt k = some k') (ht : (k'.task t).state = .taskWaiting) :
    (k.task t).state = .taskWaiting ∧ ∀ pct, k.timers.rbLeftmost = some pct →
      (k.timers.timer pct).type = .oneshotTimer → (k.timers.timer pct).pt ≠ t := by
  obtain ⟨pct, timers, k₁, hpct, hk₁, hpt, hcases⟩ := timerIrq_cases h
  have hsame : SameState k k₁ := hk₁ ▸ updateCurrent_sameState { k with timers := timers } k.timers.load
  have hother (hkept : SameState k₁ k') (htype : (k.timers.timer pct).type ≠ .oneshotTimer) :
      (k.task t).state = .taskWaiting ∧ ∀ pct, k.timers.rbLeftmost = some pct →
        (k.timers.timer pct).type = .oneshotTimer → (k.timers.timer pct).pt ≠ t := by
    refine ⟨((hsame.trans hkept) t).symm.trans ht, fun pct' hpct' honeshot => ?_⟩
    obtain rfl := Option.some.inj (hpct.symm.trans hpct')
    exact absurd honeshot htype
  rcases hcases with ⟨htype, hsched⟩ | ⟨htype, rfl⟩ | ⟨-, rfl⟩
  · exact hother (schedExpired_sameState b hsched) (htype ▸ nofun)
  · exact hother (realtimeExpired_sameState k₁ k.current pct) (htype ▸ nofun)
  · obtain ⟨hstate, hne⟩ := oneshotExpired_asleep b bt ht
    rw [hpt] at hne
    refine ⟨(hsame t).symm.trans hstate, fun pct' hpct' _ => ?_⟩
    obtain rfl := Option.some.inj (hpct.symm.trans hpct')
    exact hne

end States

section Steps

variable {s t : State τ} {u v : Tasks τ} {pt : τ}

/-- The task `pt` is new and awake; the timers linked before are kept. -/
structure Created (u v : Tasks τ) (pt : τ) : Prop where
  tasks : v.tasks = u.tasks ++ [pt]
  current : v.kernel.current = u.kernel.current
  awake : (v.kernel.task pt).state ≠ .taskWaiting
  others : ∀ t, t ≠ pt → (v.kernel.task t).state = (u.kernel.task t).state
  linked : Linked v.kernel.timers
  timers : Keeps u.kernel.timers v.kernel.timers

omit [DecidableEq τ] in
theorem Created.inv (h : Created s.toTasks u pt) (hs : Inv s) : Inv { s with toTasks := u } := by
  constructor
  · exact h.linked
  · exact h.timers.typed hs.typed
  · intro t ticks hloc
    obtain ⟨hcurrent, hticks⟩ := hs.window t ticks hloc
    exact ⟨hcurrent.trans h.current.symm, hticks⟩
  · intro t ht hstate
    have hne : t ≠ pt := by
      rintro rfl
      exact h.awake hstate
    have hold : t ∈ s.tasks := by
      rw [h.tasks, List.mem_append, List.mem_singleton] at ht
      exact ht.resolve_right hne
    exact (hs.asleep t hold ((h.others t hne).symm.trans hstate)).imp_right h.timers.hasTimer

omit [DecidableEq τ] in
theorem Keeps.refl (s : Timers τ) : Keeps s s := ⟨fun _ h => h, fun _ _ => rfl, fun _ h => Or.inl h⟩

theorem forkyi_state {type : TaskType} {pri : ℕ} (h : forkyi u pt type pri = some v) :
    v.tasks = u.tasks ++ [pt] ∧ v.kernel.current = u.kernel.current ∧ v.kernel.timers = u.kernel.timers ∧
      ∀ t, t ≠ pt → v.kernel.task t = u.kernel.task t := by
  obtain ⟨htasks, shift, hk⟩ := forkyi_eq h
  refine ⟨htasks, by rw [hk]; rfl, by rw [hk]; rfl, fun t ht => ?_⟩
  rw [hk, setTask_of_ne _ _ ht]

theorem createCfsTask_created {pri : ℕ} (h : createCfsTask b u pt pri = some v) (hl : Linked u.kernel.timers) :
    Created u v pt := by
  obtain ⟨u₁, hu₁, rfl⟩ := Option.map_eq_some_iff.mp h
  obtain ⟨htasks, hcurrent, htimers, htask⟩ := forkyi_state hu₁
  have hmoved := enqueueSeToRunq_moved b u₁.kernel pt
  have htimers' : (startCfs b u₁.kernel pt).timers = u.kernel.timers :=
    (enqueueSeToRunq_timers b u₁.kernel pt).trans htimers
  constructor
  · exact htasks
  · exact (enqueueSeToRunq_current b u₁.kernel pt).trans hcurrent
  · have hstate := hmoved.state pt
    rw [if_pos rfl] at hstate
    exact fun hwaiting => absurd (hstate.symm.trans hwaiting) (by decide)
  · intro t ht
    have hstate := hmoved.state t
    rw [if_neg ht, htask t ht] at hstate
    exact hstate
  · exact htimers'.symm ▸ hl
  · exact htimers'.symm ▸ Keeps.refl _

/-- A task with a timer of its own is made runnable directly. -/
theorem forkyi_created {type : TaskType} {timers : Timers τ} (h : forkyi u pt type 0 = some v)
    (hl : Linked timers) (hk : Keeps u.kernel.timers timers) :
    Created u { v with kernel := { v.kernel.setState pt .taskRunning with timers := timers } } pt := by
  obtain ⟨htasks, hcurrent, -, htask⟩ := forkyi_state h
  constructor
  · exact htasks
  · exact hcurrent
  · have hstate : ((v.kernel.setState pt .taskRunning).task pt).state = .taskRunning :=
      congrArg Task.state (setTask_self ..)
    exact fun hwaiting => absurd (hstate.symm.trans hwaiting) (by decide)
  · intro t ht
    have hstate : ((v.kernel.setState pt .taskRunning).task t).state = (v.kernel.task t).state :=
      congrArg Task.state (setTask_of_ne _ _ ht)
    exact hstate.trans (congrArg Task.state (htask t ht))
  · exact hl
  · exact hk

/-- A step that only moves the current task on in `delay`, or lets another task run. -/
theorem Inv.moved {k : Kernel τ} {l : DelayLoc} (h : Inv s) (hl : Linked k.timers) (ht : Typed k.timers)
    (hkeep : ∀ t, HasTimer s.kernel.timers t → HasTimer k.timers t)
    (hstate : ∀ t, t ≠ s.kernel.current → (k.task t).state = (s.kernel.task t).state)
    (hloc : ∀ ticks, l = .dequeued ticks → k.current = s.kernel.current ∧ ticks < size)
    (hself : s.kernel.current ∈ s.tasks → (k.task s.kernel.current).state = .taskWaiting →
      (∃ ticks, l = .dequeued ticks) ∨ HasTimer k.timers s.kernel.current) : Inv (s.at k l) := by
  have hother {t : τ} (hne : t ≠ s.kernel.current) : (s.at k l).loc t = s.loc t := Function.update_of_ne hne ..
  have hcurrent : (s.at k l).loc s.kernel.current = l := Function.update_self ..
  constructor
  · exact hl
  · exact ht
  · intro t ticks hin
    by_cases hne : t = s.kernel.current
    · subst hne
      obtain ⟨hsame, hticks⟩ := hloc ticks (hcurrent.symm.trans hin)
      exact ⟨hsame.symm, hticks⟩
    · exact absurd (h.window t ticks ((hother hne).symm.trans hin)).1 hne
  · intro t hmem hwaiting
    by_cases hne : t = s.kernel.current
    · subst hne
      rw [hcurrent]
      exact hself hmem hwaiting
    · rw [hother hne]
      exact (h.asleep t hmem ((hstate t hne).symm.trans hwaiting)).imp_right (hkeep t)

theorem correctYield_spec {k k' : Kernel τ} (h : correctYield k = some k') :
    k'.current = k.current ∧ k'.timers = k.timers ∧ SameState k k' := by
  obtain ⟨yieldTask, -, rfl⟩ := Option.map_eq_some_iff.mp h
  split
  · exact ⟨rfl, rfl, setTask_sameState k k.current rfl⟩
  · exact ⟨rfl, rfl, fun _ => rfl⟩

/-- A step of the current task that arms no timer and puts no task to sleep. -/
theorem Inv.sameState {k : Kernel τ} {l : DelayLoc} (h : Inv s) (htimers : k.timers = s.kernel.timers)
    (hstate : SameState s.kernel k) (hold : ∀ ticks, s.loc s.kernel.current ≠ .dequeued ticks)
    (hnew : ∀ ticks, l ≠ .dequeued ticks) : Inv (s.at k l) := by
  apply h.moved
  · exact htimers ▸ h.linked
  · exact htimers ▸ h.typed
  · intro t ht
    exact htimers ▸ ht
  · intro t _
    exact hstate t
  · intro ticks hticks
    exact absurd hticks (hnew ticks)
  · intro hmem hwaiting
    rcases h.asleep _ hmem ((hstate _).symm.trans hwaiting) with ⟨ticks, hticks⟩ | htimer
    · exact absurd hticks (hold ticks)
    · exact Or.inr (htimers ▸ htimer)

theorem delayStatement_inv (h : delayStatement bt s = some t) (hs : Inv s) (hc : Undisturbed s .statement) :
    Inv t := by
  unfold delayStatement at h
  dsimp only at h
  cases hloc : s.loc s.kernel.current with
  | outside =>
      rw [hloc] at h
      cases h
  | dequeued ticks =>
      rw [hloc] at h
      cases h
      obtain ⟨hkeeps, hself⟩ := createOneshotTimer_keeps bt hs.linked s.kernel.current
        (hs.window _ _ hloc).2 (hc ⟨ticks, hloc⟩)
      apply hs.moved
      · exact (createOneshotTimer_inserted bt hs.linked s.kernel.current (hs.window _ _ hloc).2
          (hc ⟨ticks, hloc⟩)).linked
      · exact hkeeps.typed hs.typed
      · intro t ht
        exact hkeeps.hasTimer ht
      · intro t _
        rfl
      · intro ticks hticks
        cases hticks
      · intro _ _
        exact Or.inr hself
  | armed =>
      rw [hloc] at h
      obtain ⟨k, hk, rfl⟩ := Option.map_eq_some_iff.mp h
      obtain ⟨-, htimers, hstate⟩ := correctYield_spec hk
      exact hs.sameState htimers hstate (fun ticks hticks => by rw [hloc] at hticks; cases hticks)
        fun ticks hticks => by cases hticks
  | corrected =>
      rw [hloc] at h
      cases h
      apply hs.sameState (yieldyi_timers _)
      · intro t
        rw [yieldyi_task]
      · intro ticks hticks
        rw [hloc] at hticks
        cases hticks
      · intro ticks hticks
        cases hticks

theorem dequeueSeToWq_current (k : Kernel τ) (se : τ) : (dequeueSeToWq b k se).current = k.current :=
  (updateVruntimeRunq_seOnly _ se).current.trans (addToWq_waitOnly (subPriority k se) se).current

theorem mdelay_inv {msecs : ℕ} (hs : Inv s) : Inv (s.at (dequeueSeToWq b s.kernel s.kernel.current)
    (.dequeued (delayTicks s.kernel.timers.ticksPerSec msecs))) := by
  have htimers := dequeueSeToWq_timers b s.kernel s.kernel.current
  have hmoved := dequeueSeToWq_moved b s.kernel s.kernel.current
  apply hs.moved
  · exact htimers ▸ hs.linked
  · exact htimers ▸ hs.typed
  · intro t ht
    exact htimers ▸ ht
  · intro t hne
    rw [hmoved.state, if_neg hne]
  · intro ticks hticks
    cases hticks
    exact ⟨dequeueSeToWq_current b s.kernel s.kernel.current, u32_lt _⟩
  · intro _ _
    exact Or.inl ⟨_, rfl⟩

theorem irq_inv {k : Kernel τ} (h : timerIrq b bt s.kernel = some k) (hs : Inv s)
    (hc : ∀ ticks, s.loc s.kernel.current ≠ .dequeued ticks) : Inv { s with kernel := k } := by
  obtain ⟨hlinked, htyped, hkeep⟩ := timerIrq_keeps b bt h hs.linked hs.typed
  have hnone (t : τ) (ticks : ℕ) : s.loc t ≠ .dequeued ticks := by
    intro hloc
    obtain ⟨rfl, -⟩ := hs.window t ticks hloc
    exact hc ticks hloc
  constructor
  · exact hlinked
  · exact htyped
  · intro t ticks hloc
    exact absurd hloc (hnone t ticks)
  · intro t hmem hwaiting
    obtain ⟨hold, hne⟩ := timerIrq_asleep b bt h hwaiting
    rcases hs.asleep t hmem hold with ⟨ticks, hloc⟩ | htimer
    · exact absurd hloc (hnone t ticks)
    · exact Or.inr (hkeep t htimer hne)

omit [DecidableEq τ] in
theorem outside_eq {call : Option (Tasks τ)} (h : outside s call = some t) :
    s.loc s.kernel.current = .outside ∧ ∃ u, call = some u ∧ t = { s with toTasks := u } := by
  unfold outside at h
  split_ifs at h with hloc
  obtain ⟨u, hu, rfl⟩ := Option.map_eq_some_iff.mp h
  exact ⟨hloc, u, hu, rfl⟩

/-- What the current task does outside `delay` without a timer. -/
theorem Inv.outside {k : Kernel τ} (h : Inv s) (hloc : s.loc s.kernel.current = .outside)
    (htimers : k.timers = s.kernel.timers) (hstate : SameState s.kernel k) : Inv { s with kernel := k } := by
  have hat : s.at k .outside = { s with kernel := k } := by
    rw [State.at, ← hloc, Function.update_eq_self]
  rw [← hat]
  apply h.sameState htimers hstate
  · intro ticks hticks
    rw [hloc] at hticks
    cases hticks
  · intro ticks hticks
    cases hticks

theorem step_inv {i : Step τ} (hs : Inv s) (hc : Undisturbed s i) (h : step b bt s i = some t) : Inv t := by
  cases i with
  | createCfs pt pri =>
      obtain ⟨-, u, hu, rfl⟩ := outside_eq h
      split_ifs at hu
      exact (createCfsTask_created b hu hs.linked).inv hs
  | createRt pt msec =>
      obtain ⟨-, u, hu, rfl⟩ := outside_eq h
      split_ifs at hu
      obtain ⟨v, hv, rfl⟩ := Option.map_eq_some_iff.mp hu
      obtain ⟨-, -, htimers, -⟩ := forkyi_state hv
      have hlinked := (createRtTimer_inserted bt hs.linked pt msec).linked
      have hkeeps := createRtTimer_keeps bt hs.linked pt msec
      have hcreated := forkyi_created hv hlinked hkeeps
      rw [← htimers] at hcreated
      exact hcreated.inv hs
  | createOneshot pt msec =>
      obtain ⟨-, u, hu, rfl⟩ := outside_eq h
      split_ifs at hu
      obtain ⟨v, hv, rfl⟩ := Option.map_eq_some_iff.mp hu
      obtain ⟨-, -, htimers, -⟩ := forkyi_state hv
      have htc : msecToTc s.kernel.timers.ticksPerSec msec < size := u32_lt _
      have hlinked := (createOneshotTimer_inserted bt hs.linked pt htc hc).linked
      have hkeeps := (createOneshotTimer_keeps bt hs.linked pt htc hc).1
      have hcreated := forkyi_created hv hlinked hkeeps
      rw [← htimers] at hcreated
      exact hcreated.inv hs
  | mdelay msecs =>
      simp only [step] at h
      split_ifs at h
      cases h
      exact mdelay_inv b hs
  | statement => exact delayStatement_inv bt h hs hc
  | irq =>
      obtain ⟨k, hk, rfl⟩ := Option.map_eq_some_iff.mp h
      exact irq_inv b bt hk hs hc
  | job done =>
      obtain ⟨hloc, u, hu, rfl⟩ := outside_eq h
      cases hu
      exact hs.outside hloc rfl (setTask_sameState s.kernel _ rfl)
  | yieldyi =>
      obtain ⟨hloc, u, hu, rfl⟩ := outside_eq h
      cases hu
      apply hs.outside hloc (yieldyi_timers _)
      intro t
      rw [yieldyi_task]

theorem start_inv {k : Kernel τ} (h : TimerOrder.Start k.timers) (pt : τ) (cpuid pid : ℕ) :
    Inv (start b k pt cpuid pid) := by
  obtain ⟨k₀, hk₀⟩ : ∃ k₀, k₀ = WaitQueueLinks.initWq
      { k.setTask pt (initIdletask (k.task pt) cpuid) with idleTask := pt, current := pt } := ⟨_, rfl⟩
  have hkernel : (start b k pt cpuid pid).kernel = initRq b k₀ := by rw [hk₀]; rfl
  have htimers : (initRq b k₀).timers = k.timers := by
    have hrunq := enqueueSeToRunq_timers b { k₀ with
      runq := { root := .nil, rbLeftmost := some k₀.idleTask, prioritySum := 0, cfsTaskNum := 0 } } k₀.idleTask
    rw [hk₀] at hrunq ⊢
    exact hrunq
  have hidle : k₀.idleTask = pt := by rw [hk₀]; rfl
  have hmem (idx : ℕ) : .oneshot idx ∉ k.timers.queue := by
    rw [h.root]
    simp
  constructor
  · rw [hkernel, htimers]
    exact (TimerOrder.start_armed h).linked
  · rw [hkernel, htimers]
    exact fun idx hidx => absurd hidx (hmem idx)
  · intro t ticks hloc
    cases hloc
  · intro t ht hwaiting
    obtain rfl : t = pt := List.mem_singleton.mp ht
    have hmoved := enqueueSeToRunq_moved b { k₀ with
      runq := { root := .nil, rbLeftmost := some k₀.idleTask, prioritySum := 0, cfsTaskNum := 0 } } k₀.idleTask
    have hstate : ((initRq b k₀).task t).state = _ := hmoved.state t
    rw [if_pos hidle.symm] at hstate
    rw [hkernel, hstate] at hwaiting
    cases hwaiting

end Steps

/-- Without an interrupt the statements make up the whole call. -/
theorem delay_uninterrupted {s : State τ} (hloc : s.loc s.kernel.current = .outside)
    (htype : (s.kernel.task s.kernel.current).type = .cfsTask) (msecs : ℕ) :
    Machine.exec (step b bt) s [.mdelay msecs, .statement, .statement, .statement] =
      (mdelay b bt s.kernel msecs).map fun k => { s with kernel := k } := by
  obtain ⟨k, hk⟩ : ∃ k, k = dequeueSeToWq b s.kernel s.kernel.current := ⟨_, rfl⟩
  have hcurrent : k.current = s.kernel.current := hk ▸ dequeueSeToWq_current b s.kernel s.kernel.current
  obtain ⟨ticks, hticks⟩ : ∃ ticks, ticks = delayTicks s.kernel.timers.ticksPerSec msecs := ⟨_, rfl⟩
  have hcall : mdelay b bt s.kernel msecs = (correctYield { k with
      timers := createOneshotTimer bt k.timers k.current ticks }).map yieldyi := by
    unfold mdelay delay correctYield
    dsimp only
    rw [← hk, ← hticks, ← hcurrent, Option.map_map]
    rfl
  have hself (s : State τ) (k : Kernel τ) (l : DelayLoc) (h : k.current = s.kernel.current) :
      (s.at k l).loc (s.at k l).kernel.current = l := by
    rw [show (s.at k l).kernel.current = s.kernel.current from h]
    exact Function.update_self ..
  have hback (k : Kernel τ) (l l' : DelayLoc) (h : k.current = s.kernel.current) (k' : Kernel τ) :
      (s.at k l).at k' l' = s.at k' l' := by
    simp [State.at, h]
  obtain ⟨k₁, hk₁⟩ : ∃ k₁, k₁ = { k with timers := createOneshotTimer bt k.timers k.current ticks } := ⟨_, rfl⟩
  have hcurrent₁ : k₁.current = s.kernel.current := by
    rw [hk₁]
    exact hcurrent
  have hfirst : step b bt s (.mdelay msecs) = some (s.at k (.dequeued ticks)) := by
    simp [step, hloc, htype, hk, hticks]
  have hsecond : step b bt (s.at k (.dequeued ticks)) .statement = some (s.at k₁ .armed) := by
    simp only [step, delayStatement, hself s k (.dequeued ticks) hcurrent, hback k _ _ hcurrent]
    rw [hk₁]
    rfl
  have hthird : step b bt (s.at k₁ .armed) .statement = (correctYield k₁).map fun k => s.at k .corrected := by
    simp only [step, delayStatement, hself s k₁ .armed hcurrent₁, hback k₁ _ _ hcurrent₁]
    rfl
  simp only [Machine.exec_cons, Machine.exec_nil, hfirst, hsecond, hthird, hcall, ← hk₁, Option.bind_some,
    Option.map_map]
  cases hk₂ : correctYield k₁ with
  | none => rfl
  | some k₂ =>
      obtain ⟨hcurrent₂, -, -⟩ := correctYield_spec hk₂
      have hfourth : step b bt (s.at k₂ .corrected) .statement = some { s with kernel := yieldyi k₂ } := by
        simp only [step, delayStatement, hself s k₂ .corrected (hcurrent₂.trans hcurrent₁),
          hback k₂ _ _ (hcurrent₂.trans hcurrent₁)]
        rw [State.at, ← hloc, Function.update_eq_self]
        rfl
      simp [hfourth]

/-- In every run in which no timer interrupt comes between leaving the run queue and arming the timer, and no
slot of the ring is taken while its timer is linked, a sleeper is the current task or has a wakeup
pending, in every state. -/
theorem sleepers_have_wakeup {k : Kernel τ} (h : TimerOrder.Start k.timers) (pt : τ) (cpuid pid : ℕ)
    (is : List (Step τ)) (hc : Machine.StepsMeet (step b bt) Undisturbed (start b k pt cpuid pid) is) :
    Machine.Always (step b bt) NoneLost (start b k pt cpuid pid) is :=
  Machine.always_of_stepsMeet Inv (fun _ h => h.noneLost) (fun _ _ _ => step_inv b bt)
    (start_inv b h pt cpuid pid) hc

/-- A task that sleeps for 100 ms while the scheduler's timer ticks. -/
theorem sleeper_has_wakeup : Machine.Always (step (Balancer.plain ℕ) (Balancer.plain TimerId)) NoneLost
    (start (Balancer.plain ℕ) TimerOrder.bootScheduled 0 0 1)
    [.createCfs 1 1, .irq, .mdelay 100, .statement, .irq, .irq, .statement] :=
  sleepers_have_wakeup (Balancer.plain ℕ) (Balancer.plain TimerId) TimerOrder.bootTimers_start 0 0 1 _
    (by decide +kernel)

/-- The tick comes before the oneshot timer is armed: the task is not run again and nothing will wake it. -/
theorem sleeper_lost : ∃ s, Machine.exec (step (Balancer.plain ℕ) (Balancer.plain TimerId))
      (start (Balancer.plain ℕ) TimerOrder.bootScheduled 0 0 1) [.createCfs 1 1, .irq, .mdelay 100, .irq] = some s ∧
    (s.kernel.task 1).state = .taskWaiting ∧ s.kernel.current = 0 ∧ s.kernel.timers.queue = [.sched] ∧
    1 ∉ s.kernel.queue ∧ ¬ NoneLost s := by
  have hrun : (Machine.exec (step (Balancer.plain ℕ) (Balancer.plain TimerId))
      (start (Balancer.plain ℕ) TimerOrder.bootScheduled 0 0 1) [.createCfs 1 1, .irq, .mdelay 100, .irq]).map
      (fun s => (s.tasks, (s.kernel.task 1).state, s.kernel.current, s.kernel.timers.queue, s.kernel.queue)) =
      some ([0, 1], .taskWaiting, 0, [.sched], [0]) := by
    decide +kernel
  obtain ⟨s, hs, hv⟩ := Option.map_eq_some_iff.mp hrun
  simp only [Prod.mk.injEq] at hv
  obtain ⟨htasks, hstate, hcurrent, htimers, hqueue⟩ := hv
  refine ⟨s, hs, hstate, hcurrent, htimers, by simp [hqueue], fun h => ?_⟩
  rcases h 1 (by simp [htasks]) hstate with he | ⟨idx, hidx, -⟩
  · exact absurd (he.trans hcurrent) (by decide)
  · simp [htimers] at hidx

end Slos.Sleepers
