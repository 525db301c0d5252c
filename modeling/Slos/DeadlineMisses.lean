import Slos.QueueMembers

/-!
# Missed deadlines

`timer_irq` counts a missed deadline on the task that was current, and not if that task has ever been preempted, for
`preempted` is never cleared. Beside a run stands for each task how often its own realtime timer has found it
unfinished; `InPlace` says at which interrupts the two agree.
-/

namespace Slos.DeadlineMisses
open Word SearchTree Kernel
open QueueMembers (State Step Loc step start)

variable {τ δ : Type}

/-- The task whose realtime timer expires while its job is unfinished. -/
def unfinished (k : Kernel τ) : Option τ :=
  k.timers.rbLeftmost.bind fun pct =>
    if (k.timers.timer pct).type = .realtimeTimer ∧ (k.task (k.timers.timer pct).pt).done = 0 then
      some (k.timers.timer pct).pt
    else none

def expired (s : State τ δ) : Step τ δ → Option τ
  | .irq => unfinished s.kernel
  | _ => none

def created : Step τ δ → Option τ
  | .createCfs pt _ => some pt
  | .createRt pt _ => some pt
  | .createOneshot pt _ => some pt
  | .createWorker pt => some pt
  | _ => none

/-- A state of the kernel, and how often the realtime timer of each task has found it unfinished since the task was
created. -/
structure Counted (τ δ : Type) where
  state : State τ δ
  misses : τ → ℕ

variable [DecidableEq τ] (b : Balancer τ) (bt : Balancer TimerId)

def countStep (r : Counted τ δ) (i : Step τ δ) : Option (Counted τ δ) :=
  (step b bt r.state i).map fun s =>
    { state := s
      misses := fun t =>
        if created i = some t then 0
        else if expired r.state i = some t then r.misses t + 1
        else r.misses t }

omit [DecidableEq τ] in
/-- The count of each RT task is the number of its own misses. -/
def MissesCounted (r : Counted τ δ) : Prop := ∀ t ∈ r.state.tasks, (r.state.kernel.task t).type = .rtTask →
  (r.state.kernel.task t).missedCnt = r.misses t

omit [DecidableEq τ] in
/-- An RT task that its timer finds unfinished is current and has never been preempted, and its count does not wrap. -/
def InPlace (r : Counted τ δ) (i : Step τ δ) : Prop := ∀ t ∈ r.state.tasks,
  (r.state.kernel.task t).type = .rtTask → expired r.state i = some t →
    t = r.state.kernel.current ∧ (r.state.kernel.task t).preempted = 0 ∧
      (r.state.kernel.task t).missedCnt + 1 < size

section Accounts

variable {k k' k'' : Kernel τ} {t u : τ} {se : τ} {st : TaskState} {pct : TimerId} {thisCurrent pt : τ}

def account (p : Task τ) : TaskType × ℕ := (p.type, p.missedCnt)

/-- No task changes its type or its count. -/
def Kept (k k' : Kernel τ) : Prop := ∀ t, account (k'.task t) = account (k.task t)

omit [DecidableEq τ] in
theorem Kept.trans (h : Kept k k') (h' : Kept k' k'') : Kept k k'' := fun t => (h' t).trans (h t)

omit [DecidableEq τ] in
theorem kept_of_task (h : k'.task = k.task) : Kept k k' := fun t => by rw [h]

theorem setTask_kept (k : Kernel τ) (u : τ) {p : Task τ} (hp : account p = account (k.task u)) :
    Kept k (k.setTask u p) := by
  intro t
  by_cases ht : t = u
  · rw [ht, setTask_self, hp]
  · rw [setTask_of_ne _ _ ht]

theorem Kept.of_moved (h : Moved se st k k') : Kept k k' := by
  intro t
  obtain ⟨e, prev, next, ht⟩ := h t
  rw [ht]
  rfl

theorem updateCurrent_kept (k : Kernel τ) (elapsed : ℕ) : Kept k (updateCurrent k elapsed) := by
  intro t
  obtain ⟨e, he⟩ := YieldChain.updateCurrent_task k elapsed t
  rw [he]
  rfl

theorem switchToTimer_kept (k : Kernel τ) (thisCurrent pt : τ) : Kept k (switchToTimer k thisCurrent pt) := by
  have hpreempted : Kept k (if (k.task thisCurrent).type = .rtTask then
      k.setTask thisCurrent { k.task thisCurrent with preempted := 1 } else k) := by
    split
    · exact setTask_kept k thisCurrent rfl
    · exact kept_of_task rfl
  have hgiven (k₁ : Kernel τ) : Kept k₁ { k₁.setTask pt { k₁.task pt with yieldTask := some thisCurrent } with
      current := pt } := by
    have hset : Kept k₁ (k₁.setTask pt { k₁.task pt with yieldTask := some thisCurrent }) := setTask_kept k₁ pt rfl
    exact hset
  unfold switchToTimer
  split
  · exact kept_of_task rfl
  · exact hpreempted.trans (hgiven _)

theorem schedExpired_kept (h : schedExpired b k thisCurrent pct = some k') : Kept k k' := by
  unfold schedExpired at h
  split_ifs at h
  · cases h
    exact kept_of_task rfl
  · obtain ⟨k₂, hk₂, rfl⟩ := Option.map_eq_some_iff.mp h
    obtain ⟨k₁, hk₁, hk₂⟩ := Option.bind_eq_some_iff.mp hk₂
    obtain ⟨next, -, rfl⟩ := Option.map_eq_some_iff.mp hk₂
    obtain ⟨cur, -, rfl⟩ := Option.map_eq_some_iff.mp hk₁
    apply kept_of_task
    dsimp only
    split_ifs <;> rfl

theorem oneshotExpired_kept (k : Kernel τ) (thisCurrent : τ) (pct : TimerId) :
    Kept k (oneshotExpired b bt k thisCurrent pct) := by
  have hswitch := switchToTimer_kept k thisCurrent (k.timers.timer pct).pt
  unfold oneshotExpired
  dsimp only
  split_ifs
  · exact hswitch.trans (Kept.of_moved (enqueueSeToRunq_moved b _ _))
  · exact hswitch

/-- The task that had the CPU is counted on only where the timer is its own: another timer marks it preempted. -/
theorem realtimeExpired_missedCnt (htype : (k.task t).type = .rtTask) :
    ((realtimeExpired k thisCurrent pct).task t).missedCnt =
      if (k.timers.timer pct).pt = t ∧ t = thisCurrent ∧ (k.task t).done = 0 ∧ (k.task t).preempted = 0 then
        u32 ((k.task t).missedCnt + 1)
      else (k.task t).missedCnt := by
  obtain ⟨pt, hpt⟩ : ∃ pt, pt = (k.timers.timer pct).pt := ⟨_, rfl⟩
  have hkept := switchToTimer_kept k thisCurrent pt t
  have hcnt : ((switchToTimer k thisCurrent pt).task t).missedCnt = (k.task t).missedCnt := congrArg Prod.snd hkept
  unfold realtimeExpired
  dsimp only
  rw [← hpt]
  by_cases hcurrent : t = thisCurrent
  · subst hcurrent
    by_cases hown : t = pt
    · subst hown
      have hsame : switchToTimer k t t = k := if_pos rfl
      rw [hsame]
      by_cases hmissed : (k.task t).done = 0 ∧ (k.task t).preempted = 0
      · rw [if_pos hmissed, if_pos ⟨rfl, rfl, hmissed⟩, setTask_self]
      · rw [if_neg hmissed, if_neg fun h => hmissed h.2.2]
    · have hpreempted : ((switchToTimer k t pt).task t).preempted = 1 := by
        rw [switchToTimer, if_neg hown, if_pos htype]
        change ((Kernel.setTask _ pt _).task t).preempted = 1
        rw [setTask_of_ne _ _ hown, setTask_self]
      rw [if_neg (fun h => absurd (hpreempted.symm.trans h.2) (by decide)), if_neg (fun h => hown h.1.symm), hcnt]
  · have hnot : ¬ (pt = t ∧ t = thisCurrent ∧ (k.task t).done = 0 ∧ (k.task t).preempted = 0) :=
      fun h => hcurrent h.2.1
    rw [if_neg hnot]
    split
    · rw [setTask_of_ne _ _ hcurrent, hcnt]
    · exact hcnt

theorem realtimeExpired_type (k : Kernel τ) (thisCurrent : τ) (pct : TimerId) (t : τ) :
    ((realtimeExpired k thisCurrent pct).task t).type = (k.task t).type := by
  have hswitch (u : τ) : ((switchToTimer k thisCurrent (k.timers.timer pct).pt).task u).type = (k.task u).type :=
    congrArg Prod.fst (switchToTimer_kept k thisCurrent _ u)
  unfold realtimeExpired
  dsimp only
  split
  · by_cases ht : t = thisCurrent
    · rw [ht, setTask_self]
      exact hswitch thisCurrent
    · rw [setTask_of_ne _ _ ht]
      exact hswitch t
  · exact hswitch t

/-- What an interrupt makes of the count of a task. -/
def irqCount (k : Kernel τ) (t : τ) : ℕ :=
  if unfinished k = some t ∧ t = k.current ∧ (k.task t).preempted = 0 then u32 ((k.task t).missedCnt + 1)
  else (k.task t).missedCnt

theorem irqCount_of_none (h : unfinished k = none) (t : τ) : irqCount k t = (k.task t).missedCnt := by
  rw [irqCount, h, if_neg (fun h => by cases h.1)]

/-- What an interrupt does to the count of an RT task. -/
structure IrqCounted (k k' : Kernel τ) : Prop where
  type : ∀ t, (k'.task t).type = (k.task t).type
  missedCnt : ∀ t, (k.task t).type = .rtTask → (k'.task t).missedCnt = irqCount k t

theorem Kept.irqCounted (h : Kept k k') (hnone : unfinished k = none) : IrqCounted k k' := by
  constructor
  · exact fun t => congrArg Prod.fst (h t)
  · intro t _
    rw [irqCount_of_none hnone]
    exact congrArg Prod.snd (h t)

/-- The interrupt of a realtime timer, once the current task has its account. -/
theorem realtimeExpired_irqCounted (hpct : k.timers.rbLeftmost = some pct)
    (htask : ∀ t, ∃ e, k'.task t = { k.task t with se := e })
    (htimer : (k'.timers.timer pct).pt = (k.timers.timer pct).pt)
    (htype : (k.timers.timer pct).type = .realtimeTimer) : IrqCounted k (realtimeExpired k' k.current pct) := by
  have hunfinished : unfinished k = if (k.task (k.timers.timer pct).pt).done = 0 then some (k.timers.timer pct).pt
      else none := by
    rw [unfinished, hpct, Option.bind_some, htype]
    exact if_congr (and_iff_right rfl) rfl rfl
  constructor
  · intro t
    obtain ⟨e, he⟩ := htask t
    rw [realtimeExpired_type, he]
  · intro t ht
    obtain ⟨e, he⟩ := htask t
    have hrt : (k'.task t).type = .rtTask := by rwa [he]
    have hiff : (k.timers.timer pct).pt = t ∧ t = k.current ∧ (k.task t).done = 0 ∧ (k.task t).preempted = 0 ↔
        unfinished k = some t ∧ t = k.current ∧ (k.task t).preempted = 0 := by
      rw [hunfinished, Option.ite_none_right_eq_some, Option.some.injEq]
      constructor
      · rintro ⟨rfl, hcurrent, hdone, hpreempted⟩
        exact ⟨⟨hdone, rfl⟩, hcurrent, hpreempted⟩
      · rintro ⟨⟨hdone, rfl⟩, hcurrent, hpreempted⟩
        exact ⟨rfl, hcurrent, hdone, hpreempted⟩
    rw [realtimeExpired_missedCnt hrt, htimer, he]
    exact if_congr hiff rfl rfl

theorem timerIrq_irqCounted (h : timerIrq b bt k = some k') : IrqCounted k k' := by
  obtain ⟨pct, timers, k₁, hpct, hk₁, hpt, hcases⟩ := YieldChain.timerIrq_cases h
  have hkept : Kept k k₁ := hk₁ ▸ updateCurrent_kept { k with timers := timers } k.timers.load
  have hnone (hother : (k.timers.timer pct).type ≠ .realtimeTimer) : unfinished k = none := by
    rw [unfinished, hpct, Option.bind_some, if_neg fun h => hother h.1]
  rcases hcases with ⟨htype, hsched⟩ | ⟨htype, rfl⟩ | ⟨htype, rfl⟩
  · exact (hkept.trans (schedExpired_kept b hsched)).irqCounted (hnone (htype ▸ nofun))
  · apply realtimeExpired_irqCounted hpct _ hpt htype
    intro t
    rw [hk₁]
    exact YieldChain.updateCurrent_task _ _ t
  · exact (hkept.trans (oneshotExpired_kept b bt k₁ k.current pct)).irqCounted (hnone (htype ▸ nofun))

end Accounts

section Steps

variable {s s' : State τ δ} {u : Tasks τ} {k : Kernel τ} {pt : τ} {i : Step τ δ} {l : Loc}

/-- A task is created with no misses, and the others stay as they are. -/
structure Created (v : Tasks τ) (pt : τ) (u : Tasks τ) : Prop where
  tasks : u.tasks = v.tasks ++ [pt]
  missedCnt : (u.kernel.task pt).missedCnt = 0
  others : ∀ t, t ≠ pt → account (u.kernel.task t) = account (v.kernel.task t)

omit [DecidableEq τ] in
theorem Created.kept {v : Tasks τ} (h : Created v pt u) (hk : Kept u.kernel k) : Created v pt { u with kernel := k } := by
  constructor
  · exact h.tasks
  · exact (congrArg Prod.snd (hk pt)).trans h.missedCnt
  · exact fun t ht => (hk t).trans (h.others t ht)

theorem forkyi_created {v : Tasks τ} {type : TaskType} {pri : ℕ} (h : forkyi v pt type pri = some u) :
    Created v pt u := by
  obtain ⟨htasks, shift, hk⟩ := YieldChain.forkyi_eq h
  constructor
  · exact htasks
  · rw [hk, setTask_self, forkTask]
  · intro t ht
    rw [hk, setTask_of_ne _ _ ht]

theorem createCfsTask_created {v : Tasks τ} {pri : ℕ} (h : createCfsTask b v pt pri = some u) : Created v pt u := by
  obtain ⟨w, hfork, rfl⟩ := Option.map_eq_some_iff.mp h
  have hstart : Kept w.kernel (startCfs b w.kernel pt) := Kept.of_moved (enqueueSeToRunq_moved b w.kernel pt)
  exact (forkyi_created hfork).kept hstart

theorem createRtTask_created {v : Tasks τ} {msec : ℕ} (h : createRtTask bt v pt msec = some u) : Created v pt u := by
  obtain ⟨w, hfork, rfl⟩ := Option.map_eq_some_iff.mp h
  have hstate : Kept w.kernel (w.kernel.setState pt .taskRunning) := setTask_kept w.kernel pt rfl
  exact (forkyi_created hfork).kept (hstate.trans (kept_of_task rfl))

theorem createOneshotTask_created {v : Tasks τ} {msec : ℕ} (h : createOneshotTask bt v pt msec = some u) :
    Created v pt u := by
  obtain ⟨w, hfork, rfl⟩ := Option.map_eq_some_iff.mp h
  have hstate : Kept w.kernel (w.kernel.setState pt .taskRunning) := setTask_kept w.kernel pt rfl
  exact (forkyi_created hfork).kept (hstate.trans (kept_of_task rfl))

theorem create_created {call : Option (Tasks τ)} (h : QueueMembers.create s pt l call = some s')
    (hcall : ∀ u, call = some u → Created s.toTasks pt u) : Created s.toTasks pt s'.toTasks := by
  unfold QueueMembers.create at h
  split_ifs at h
  obtain ⟨u, hu, rfl⟩ := Option.map_eq_some_iff.mp h
  exact hcall u hu

/-- A step that creates no task and is no timer interrupt. -/
structure Quiet (s s' : State τ δ) : Prop where
  tasks : s'.tasks = s.tasks
  kept : Kept s.kernel s'.kernel

theorem delayStatement_quiet {d : Sleepers.DelayLoc} (h : QueueMembers.delayStatement bt s d = some s') : Quiet s s' := by
  cases d with
  | outside => cases h
  | dequeued ticks =>
      cases h
      exact ⟨rfl, kept_of_task rfl⟩
  | armed =>
      obtain ⟨k, hk, rfl⟩ := Option.map_eq_some_iff.mp h
      obtain ⟨y, -, rfl⟩ := Option.map_eq_some_iff.mp hk
      refine ⟨rfl, ?_⟩
      change Kept s.kernel (if _ then _ else _)
      split
      · exact setTask_kept s.kernel _ rfl
      · exact kept_of_task rfl
  | corrected =>
      cases h
      exact ⟨rfl, kept_of_task (yieldyi_task s.kernel)⟩

theorem workerStatement_quiet (s : State τ δ) (point : WorkerPoint) :
    Quiet s (QueueMembers.workerStatement b s point) := by
  refine ⟨rfl, ?_⟩
  change Kept s.kernel (QueueMembers.workerCall b s.kernel point)
  cases point with
  | sleep => exact Kept.of_moved (dequeueSeToWq_moved b s.kernel s.kernel.current)
  | yield => exact kept_of_task (yieldyi_task s.kernel)
  | _ => exact kept_of_task rfl

theorem sgiIrq_quiet {letter : Mailbox.LetterType} {arg : Option δ} (h : QueueMembers.sgiIrq b s letter arg = some s') :
    Quiet s s' := by
  have hwake (func : WorkerWakeup.WorkFunc) (arg : Option δ)
      (h : QueueMembers.wakeupWorkqWorker b (QueueMembers.enqueueWork s func arg) = some s') : Quiet s s' := by
    obtain ⟨t, -, rfl⟩ := Option.map_eq_some_iff.mp h
    exact ⟨rfl, Kept.of_moved (enqueueSeToRunq_moved b s.kernel t)⟩
  cases letter with
  | empty =>
      cases h
      exact ⟨rfl, kept_of_task rfl⟩
  | taskStat => exact hwake _ _ h
  | taskOdev => exact hwake _ _ h

/-- Apart from the timer interrupt no step touches a count. -/
theorem step_cases (h : step b bt s i = some s') (hirq : i ≠ .irq) :
    created i = none ∧ Quiet s s' ∨ ∃ pt, created i = some pt ∧ Created s.toTasks pt s'.toTasks := by
  cases i with
  | createCfs pt pri => exact Or.inr ⟨pt, rfl, create_created h fun u => createCfsTask_created b⟩
  | createRt pt msec => exact Or.inr ⟨pt, rfl, create_created h fun u => createRtTask_created bt⟩
  | createOneshot pt msec => exact Or.inr ⟨pt, rfl, create_created h fun u => createOneshotTask_created bt⟩
  | createWorker pt =>
      rw [step] at h
      split_ifs at h
      obtain ⟨v, hv, rfl⟩ := Option.map_eq_some_iff.mp h
      have hcreated : Created s.toTasks pt v.toTasks := create_created hv fun u => createCfsTask_created b
      exact Or.inr ⟨pt, rfl, hcreated⟩
  | mdelay msecs =>
      rw [step] at h
      split_ifs at h
      cases h
      exact Or.inl ⟨rfl, rfl, Kept.of_moved (dequeueSeToWq_moved b s.kernel s.kernel.current)⟩
  | sleep byte =>
      rw [step] at h
      split_ifs at h
      cases h
      refine Or.inl ⟨rfl, rfl, ?_⟩
      change Kept s.kernel (QueueMembers.shellSleep b s.kernel _)
      unfold QueueMembers.shellSleep
      split
      · exact kept_of_task rfl
      · split
        · exact Kept.of_moved (dequeueSeToWq_moved b s.kernel _)
        · exact kept_of_task rfl
  | run byte =>
      rw [step] at h
      split_ifs at h
      cases h
      refine Or.inl ⟨rfl, rfl, ?_⟩
      change Kept s.kernel (QueueMembers.shellRun b s.kernel _)
      unfold QueueMembers.shellRun
      split
      · exact kept_of_task rfl
      · split
        · exact Kept.of_moved (enqueueSeToRunq_moved b s.kernel _)
        · exact kept_of_task rfl
  | statement =>
      rw [step, QueueMembers.statement] at h
      split at h
      · cases h
      · exact Or.inl ⟨rfl, delayStatement_quiet bt h⟩
      · cases h
        exact Or.inl ⟨rfl, workerStatement_quiet b s _⟩
  | irq => exact absurd rfl hirq
  | sgi letter arg => exact Or.inl ⟨rfl, sgiIrq_quiet b h⟩
  | job done =>
      rw [step] at h
      split_ifs at h
      cases h
      exact Or.inl ⟨rfl, rfl, setTask_kept s.kernel _ rfl⟩
  | yieldyi =>
      rw [step] at h
      split_ifs at h
      cases h
      exact Or.inl ⟨rfl, rfl, kept_of_task (yieldyi_task s.kernel)⟩

variable {r r' : Counted τ δ}

/-- A step that is no interrupt keeps the counts right. -/
theorem counted_other (hr : MissesCounted r) (h : step b bt r.state i = some s') (hirq : i ≠ .irq) :
    MissesCounted ⟨s', fun t => if created i = some t then 0 else if expired r.state i = some t then r.misses t + 1
      else r.misses t⟩ := by
  have hexpired : expired r.state i = none := by
    cases i with
    | irq => exact absurd rfl hirq
    | _ => rfl
  intro t ht htype
  dsimp only at ht htype ⊢
  rw [hexpired]
  rcases step_cases b bt h hirq with ⟨hnone, hquiet⟩ | ⟨pt, hpt, hcreated⟩
  · have hsame := hquiet.kept t
    rw [hnone, if_neg nofun, if_neg nofun]
    exact (congrArg Prod.snd hsame).trans (hr t (hquiet.tasks ▸ ht) ((congrArg Prod.fst hsame).symm.trans htype))
  · by_cases hnew : pt = t
    · subst hnew
      rw [if_pos hpt]
      exact hcreated.missedCnt
    · have hsame := hcreated.others t (Ne.symm hnew)
      have hold : t ∈ r.state.tasks := by
        have hmem : t ∈ r.state.tasks ++ [pt] := hcreated.tasks ▸ ht
        rcases List.mem_append.mp hmem with hold | hlast
        · exact hold
        · exact absurd (List.mem_singleton.mp hlast).symm hnew
      rw [hpt, if_neg (fun he => hnew (Option.some.inj he)), if_neg nofun]
      exact (congrArg Prod.snd hsame).trans (hr t hold ((congrArg Prod.fst hsame).symm.trans htype))

/-- An interrupt keeps the counts right exactly if the task it finds unfinished is in place. -/
theorem counted_irq_iff (hr : MissesCounted r) (h : timerIrq b bt r.state.kernel = some k) :
    MissesCounted ⟨{ r.state with kernel := k }, fun t => if created (Step.irq : Step τ δ) = some t then 0
      else if expired r.state .irq = some t then r.misses t + 1 else r.misses t⟩ ↔ InPlace r .irq := by
  obtain ⟨htype, hcnt⟩ := timerIrq_irqCounted b bt h
  have hnone (t : τ) : ¬ created (Step.irq : Step τ δ) = some t := nofun
  constructor
  · intro hr' t ht hrt hexpired
    have hafter := hr' t ht ((htype t).trans hrt)
    have hbefore := hr t ht hrt
    dsimp only at hafter
    rw [if_neg (hnone t), if_pos hexpired, hcnt t hrt, irqCount, ← hbefore] at hafter
    by_cases hplace : t = r.state.kernel.current ∧ (r.state.kernel.task t).preempted = 0
    · rw [if_pos ⟨hexpired, hplace⟩] at hafter
      exact ⟨hplace.1, hplace.2, hafter ▸ u32_lt _⟩
    · rw [if_neg (fun h => hplace h.2)] at hafter
      exact absurd hafter (Nat.ne_of_lt (Nat.lt_succ_self _))
  · intro hplace t ht hrt
    have hrt' : (r.state.kernel.task t).type = .rtTask := (htype t).symm.trans hrt
    have hbefore := hr t ht hrt'
    dsimp only
    rw [if_neg (hnone t), hcnt t hrt', irqCount, ← hbefore]
    by_cases hexpired : expired r.state .irq = some t
    · obtain ⟨hcurrent, hpreempted, hlt⟩ := hplace t ht hrt' hexpired
      have hunfinished : unfinished r.state.kernel = some t := hexpired
      rw [if_pos ⟨hunfinished, hcurrent, hpreempted⟩, if_pos hexpired, u32_of_lt hlt]
    · have hunfinished : ¬ unfinished r.state.kernel = some t := hexpired
      rw [if_neg (fun h => hunfinished h.1), if_neg hexpired]

end Steps

theorem start_counted (k : Kernel τ) (pt : τ) (cpuid pid : ℕ) (q : Worker WorkerWakeup.WorkFunc (Option δ))
    (misses : τ → ℕ) : MissesCounted ⟨start b k pt cpuid pid q, misses⟩ := by
  intro t ht hrt
  have hpt : t = pt := List.mem_singleton.mp ht
  have hidle : account ((start b k pt cpuid pid q).kernel.task pt) = (.cfsTask, 0) := by
    have hkept := Kept.of_moved (enqueueSeToRunq_moved b
      { WaitQueueLinks.initWq { k.setTask pt (initIdletask (k.task pt) cpuid) with idleTask := pt, current := pt } with
        runq := { root := .nil, rbLeftmost := some pt, prioritySum := 0, cfsTaskNum := 0 } } pt) pt
    refine hkept.trans ?_
    change account ((k.setTask pt (initIdletask (k.task pt) cpuid)).task pt) = _
    rw [setTask_self]
    rfl
  subst hpt
  have hcfs : ((start b k t cpuid pid q).kernel.task t).type = .cfsTask := congrArg Prod.fst hidle
  exact absurd (hcfs.symm.trans hrt) (by decide)

/-- From boot on, every RT task's count is the number of its own misses in every state exactly if at each of them the
task is current and has never been preempted. -/
theorem misses_counted_iff (k : Kernel τ) (pt : τ) (cpuid pid : ℕ) (q : Worker WorkerWakeup.WorkFunc (Option δ))
    (misses : τ → ℕ) (is : List (Step τ δ)) :
    Machine.Always (countStep b bt) MissesCounted ⟨start b k pt cpuid pid q, misses⟩ is ↔
      Machine.StepsMeet (countStep b bt) InPlace ⟨start b k pt cpuid pid q, misses⟩ is := by
  apply Machine.always_iff_stepsMeet MissesCounted (fun _ h => h)
  · intro r i r' hr hplace hstep
    obtain ⟨s', hs, rfl⟩ := Option.map_eq_some_iff.mp hstep
    by_cases hirq : i = .irq
    · subst hirq
      obtain ⟨k', hk', rfl⟩ := Option.map_eq_some_iff.mp hs
      exact (counted_irq_iff b bt hr hk').mpr hplace
    · exact counted_other b bt hr hs hirq
  · intro r i r' hr hstep hr'
    obtain ⟨s', hs, rfl⟩ := Option.map_eq_some_iff.mp hstep
    by_cases hirq : i = .irq
    · subst hirq
      obtain ⟨k', hk', rfl⟩ := Option.map_eq_some_iff.mp hs
      exact (counted_irq_iff b bt hr hk').mp hr'
    · intro t _ _ hexpired
      cases i with
      | irq => exact absurd rfl hirq
      | _ => cases hexpired
  · exact start_counted b k pt cpuid pid q misses

/-- Two tasks of 10 ms; the second timer takes the CPU from the first task, whose job goes on until its own timer
expires again. -/
def preemptedJob : List (Step ℕ Unit) :=
  [.createRt 1 10, .createRt 2 10, .irq, .irq, .job 0] ++ List.replicate 11 .irq

theorem preempted_miss_not_counted :
    ¬ Machine.Always (countStep (Balancer.plain ℕ) (Balancer.plain TimerId)) MissesCounted
      ⟨QueueMembers.booted, fun _ => 0⟩ preemptedJob := by
  intro h
  have hrun : (Machine.exec (countStep (Balancer.plain ℕ) (Balancer.plain TimerId)) ⟨QueueMembers.booted, fun _ => 0⟩
      preemptedJob).any (fun r => decide (1 ∈ r.state.tasks ∧ (r.state.kernel.task 1).type = .rtTask ∧
        (r.state.kernel.task 1).missedCnt ≠ r.misses 1)) = true := by
    decide +kernel
  obtain ⟨r, hr, hmissed⟩ := (Option.any_eq_true ..).mp hrun
  obtain ⟨hmem, htype, hne⟩ := of_decide_eq_true hmissed
  exact hne (Machine.always_iff_exec.mp h _ List.prefix_rfl r hr 1 hmem htype)

end Slos.DeadlineMisses
