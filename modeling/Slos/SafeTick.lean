import Slos.RunQueueOrder
import Slos.YieldChain

/-!
# What a scheduler tick reads

A run creates CFS tasks, puts queued ones to sleep, wakes waiting ones and takes scheduler ticks. `tickReads` lists the
entities whose fields a tick reads, with `none` for `container_of(NULL)`. A tick is safe if all of them are linked in
the run queue and the task it switches to is.
-/

namespace Slos.SafeTick
open SearchTree RunQueueOrder YieldChain

section Descent

variable {α : Type*}

/-- The nodes a descent passes. -/
def descent (goLeft : α → Bool) : BinTree α → List α
  | .nil => []
  | .node _ l a r => a :: if goLeft a then descent goLeft l else descent goLeft r

theorem descent_subset (goLeft : α → Bool) (t : BinTree α) : ∀ a ∈ descent goLeft t, a ∈ t.inorder := by
  induction t with
  | nil => exact fun a ha => ha
  | node c l b r ihl ihr =>
    intro a ha
    rw [descent] at ha
    rw [BinTree.inorder_node]
    rcases List.mem_cons.mp ha with rfl | ha
    · simp
    · split_ifs at ha
      · exact List.mem_append_left _ (ihl a ha)
      · exact List.mem_append_right _ (List.mem_cons_of_mem _ (ihr a ha))

end Descent

variable {τ : Type} [DecidableEq τ] (b : Balancer τ)

inductive Step (τ : Type)
  | create (pt : τ) (pri : ℕ)
  | sleep (t : τ)
  | wake (t : τ)
  | tick (elapsed : ℕ)

def step (s : Tasks τ) : Step τ → Option (Tasks τ)
  | .create pt pri => if pt ∈ s.tasks then none else createCfsTask b s pt pri
  | .sleep t => if t ∈ s.kernel.queue then some { s with kernel := dequeueSeToWq b s.kernel t } else none
  | .wake t =>
      if t ∈ s.tasks ∧ (s.kernel.task t).state = .taskWaiting then
        some { s with kernel := enqueueSeToRunq b s.kernel t }
      else none
  | .tick elapsed => (tick b s.kernel elapsed).map fun k => { s with kernel := k }

omit [DecidableEq τ] in
/-- `update_current` touches the entity of a CFS or RT task. -/
def updateCurrentReads (k : Kernel τ) : List (Option τ) :=
  match (k.task k.current).type with
  | .cfsTask | .rtTask => [some k.current]
  | .oneshotTask => []

/-- `update_se` reads the leftmost entity and its successor, and then the ones the descent passes. -/
def updateSeReads (k : Kernel τ) : List (Option τ) :=
  match k.runq.rbLeftmost with
  | none => [none]
  | some cur =>
      let next := k.runq.root.next cur
      let nextVruntime := match next with
        | none => k.nullVruntime
        | some next => k.vruntime next
      let rest := if nextVruntime < k.vruntime cur then
          let k := dequeueSe b k cur
          cur :: descent (enqueueLeft k (k.vruntime cur)) k.runq.root
        else []
      some cur :: next :: rest.map some

def tickReads (k : Kernel τ) (elapsed : ℕ) : List (Option τ) :=
  updateCurrentReads k ++ updateSeReads b (updateCurrent k elapsed)

structure TickSafe (k : Kernel τ) (elapsed : ℕ) : Prop where
  reads : ∀ r ∈ tickReads b k elapsed, ∃ t ∈ k.queue, r = some t
  switches : ∃ k', tick b k elapsed = some k' ∧ k'.current ∈ k'.queue

/-- The entity that is charged is linked, and so is another one. -/
structure Populated (k : Kernel τ) : Prop where
  charged : (k.task k.current).type ≠ .oneshotTask → k.current ∈ k.queue
  two : 2 ≤ k.queue.length

def SafeStep (s : Tasks τ) : Step τ → Prop
  | .tick elapsed => TickSafe b s.kernel elapsed
  | _ => True

omit [DecidableEq τ] in
def PopulatedStep (s : Tasks τ) : Step τ → Prop
  | .tick _ => Populated s.kernel
  | _ => True

section Reads

variable {k : Kernel τ} {ts : List τ}

omit [DecidableEq τ] in
theorem updateCurrentReads_linked_iff : (∀ r ∈ updateCurrentReads k, ∃ t ∈ k.queue, r = some t) ↔
    ((k.task k.current).type ≠ .oneshotTask → k.current ∈ k.queue) := by
  unfold updateCurrentReads
  cases (k.task k.current).type <;> simp

theorem updateSeReads_linked_iff (h : Queued k ts) :
    (∀ r ∈ updateSeReads b k, ∃ t ∈ k.queue, r = some t) ↔ 2 ≤ k.queue.length := by
  have hcached := h.cached
  constructor
  · intro hreads
    rcases hq : k.queue with _ | ⟨x, _ | ⟨y, ys⟩⟩
    · rw [hq] at hcached
      have hnull : none ∈ updateSeReads b k := by simp [updateSeReads, hcached]
      obtain ⟨t, -, ht⟩ := hreads none hnull
      cases ht
    · rw [hq] at hcached
      have hnext : k.runq.root.next x = none := BinTree.next_head hq
      have hnull : none ∈ updateSeReads b k := by simp [updateSeReads, hcached, hnext]
      obtain ⟨t, -, ht⟩ := hreads none hnull
      cases ht
    · simp
  · intro hlen
    rcases hq : k.queue with _ | ⟨x, _ | ⟨y, ys⟩⟩
    · simp [hq] at hlen
    · simp [hq] at hlen
    · rw [hq] at hcached
      have hnext : k.runq.root.next x = some y := BinTree.next_head hq
      have hx : x ∈ k.queue := by simp [hq]
      have hdescent : ∀ goLeft, ∀ t ∈ descent goLeft (dequeueSe b k x).runq.root, t ∈ k.queue := by
        intro goLeft t ht
        have hmem : t ∈ (dequeueSe b k x).queue := descent_subset goLeft _ t ht
        rw [dequeueSe_queue b h.nodup hx] at hmem
        exact List.mem_of_mem_erase hmem
      intro r hr
      simp only [updateSeReads, hcached, List.head?_cons, hnext, List.mem_cons, List.mem_map] at hr
      rcases hr with rfl | rfl | ⟨t, ht, rfl⟩
      · exact ⟨x, by simp, rfl⟩
      · exact ⟨y, by simp, rfl⟩
      · refine ⟨t, ?_, rfl⟩
        rw [← hq]
        split_ifs at ht
        · rcases List.mem_cons.mp ht with rfl | ht
          · exact hx
          · exact hdescent _ t ht
        · cases ht

theorem tick_of_nonempty (h : Queued k ts) (hne : k.queue ≠ []) (elapsed : ℕ) :
    ∃ k', tick b k elapsed = some k' ∧ k'.current ∈ k'.queue := by
  have hcurrent := updateCurrent_queued h elapsed
  have hqueue : (updateCurrent k elapsed).queue = k.queue :=
    congrArg (fun q => q.root.inorder) (updateCurrent_runq k elapsed)
  obtain ⟨x, xs, hx⟩ := List.exists_cons_of_ne_nil hne
  have hleft : (updateCurrent k elapsed).runq.rbLeftmost = some x := by
    rw [hcurrent.cached, hqueue, hx]
    rfl
  obtain ⟨k₁, hk₁⟩ : ∃ k₁, updateSe b (updateCurrent k elapsed) = some k₁ := by
    rw [updateSe, hleft]
    exact ⟨_, rfl⟩
  obtain ⟨hperm, hcached, -⟩ := updateSe_perm b hcurrent.nodup hcurrent.cached hk₁
  rw [hqueue] at hperm
  have hne₁ : k₁.queue ≠ [] := by
    intro hnil
    rw [hnil] at hperm
    exact hne (List.Perm.nil_eq hperm).symm
  obtain ⟨y, ys, hy⟩ := List.exists_cons_of_ne_nil hne₁
  refine ⟨{ k₁ with current := y }, ?_, ?_⟩
  · rw [tick, hk₁, Option.bind_some, schedule, hcached, hy]
    rfl
  · change y ∈ k₁.queue
    rw [hy]
    exact List.mem_cons_self

theorem tickSafe_iff (h : Queued k ts) (elapsed : ℕ) : TickSafe b k elapsed ↔ Populated k := by
  have hcurrent := updateCurrent_queued h elapsed
  have hqueue : (updateCurrent k elapsed).queue = k.queue :=
    congrArg (fun q => q.root.inorder) (updateCurrent_runq k elapsed)
  have hse := updateSeReads_linked_iff b hcurrent
  rw [hqueue] at hse
  constructor
  · intro hs
    constructor
    · exact updateCurrentReads_linked_iff.mp fun r hr => hs.reads r (List.mem_append_left _ hr)
    · exact hse.mp fun r hr => hs.reads r (List.mem_append_right _ hr)
  · intro hp
    constructor
    · intro r hr
      rcases List.mem_append.mp hr with hr | hr
      · exact updateCurrentReads_linked_iff.mpr hp.charged r hr
      · exact hse.mpr hp.two r hr
    · apply tick_of_nonempty b h
      intro hnil
      have htwo := hp.two
      rw [hnil, List.length_nil] at htwo
      omega

end Reads

section Runs

variable {k k' : Kernel τ} {ts : List τ} {s s' : Tasks τ}

theorem dequeueSeToWq_queued (h : Queued k ts) {t : τ} (ht : t ∈ k.queue) : Queued (dequeueSeToWq b k t) ts := by
  obtain ⟨herase, hcached⟩ := dequeueSeToWq_queue b h.nodup h.cached ht
  constructor
  · rw [herase]
    exact h.nodup.erase t
  · exact hcached
  · intro u hu
    rw [herase] at hu
    have hne : u ≠ t := fun he => h.nodup.not_mem_erase (he ▸ hu)
    rw [(dequeueSeToWq_moved b k t).state, if_neg hne]
    exact h.awake u (List.mem_of_mem_erase hu)

theorem createCfsTask_queued {pt : τ} {pri : ℕ} (hs : createCfsTask b s pt pri = some s')
    (h : Queued s.kernel s.tasks) (hpt : pt ∉ s.tasks) : Queued s'.kernel s'.tasks := by
  obtain ⟨s₁, hs₁, rfl⟩ := Option.map_eq_some_iff.mp hs
  obtain ⟨hq₁, hnew⟩ := forkyi_queued hs₁ hpt h
  have hmem : pt ∈ s₁.tasks := by
    rw [(forkyi_eq hs₁).1]
    exact List.mem_append_right _ List.mem_cons_self
  have hq₂ := enqueueSeToRunq_queued b hq₁ hmem hnew
  exact ⟨hq₂.nodup, hq₂.cached, hq₂.awake⟩

theorem tick_queued (h : Queued k ts) {elapsed : ℕ} (hk : tick b k elapsed = some k') : Queued k' ts := by
  obtain ⟨k₁, hk₁, hk'⟩ := Option.bind_eq_some_iff.mp hk
  obtain ⟨next, -, rfl⟩ := Option.map_eq_some_iff.mp hk'
  obtain ⟨hq, -⟩ := updateSe_queued b hk₁ (updateCurrent_queued h elapsed)
  exact ⟨hq.nodup, hq.cached, hq.awake⟩

theorem step_queued (s : Tasks τ) (i : Step τ) (s' : Tasks τ) (h : Queued s.kernel s.tasks)
    (hs : step b s i = some s') : Queued s'.kernel s'.tasks := by
  cases i with
  | create pt pri =>
    simp only [step] at hs
    split_ifs at hs with hpt
    exact createCfsTask_queued b hs h hpt
  | sleep t =>
    simp only [step] at hs
    split_ifs at hs with ht
    cases hs
    exact dequeueSeToWq_queued b h ht
  | wake t =>
    simp only [step] at hs
    split_ifs at hs with ht
    cases hs
    exact enqueueSeToRunq_queued b h ht.1 fun hmem => (h.awake t hmem).2 ht.2
  | tick elapsed =>
    obtain ⟨k, hk, rfl⟩ := Option.map_eq_some_iff.mp hs
    exact tick_queued b h hk

theorem safeStep_iff (s : Tasks τ) (i : Step τ) (h : Queued s.kernel s.tasks) : SafeStep b s i ↔ PopulatedStep s i := by
  cases i with
  | create pt pri => exact Iff.rfl
  | sleep t => exact Iff.rfl
  | wake t => exact Iff.rfl
  | tick elapsed => exact tickSafe_iff b h elapsed

/-- From boot on, the ticks of a run are safe exactly if each finds the entity it charges and another one linked. -/
theorem ticks_safe_iff (k : Kernel τ) (pt : τ) (cpuid pid : ℕ) (is : List (Step τ)) :
    Machine.Attempts (step b) (SafeStep b) (initTasks b k pt cpuid pid) is ↔
      Machine.Attempts (step b) PopulatedStep (initTasks b k pt cpuid pid) is :=
  Machine.attempts_congr (fun s => Queued s.kernel s.tasks) (safeStep_iff b) (step_queued b)
    (initTasks_inv b k pt cpuid pid).2

/-- With the idle task alone a tick reads the vruntime of `container_of(NULL)`. -/
theorem tick_idle_alone :
    none ∈ tickReads (Balancer.plain ℕ) (initTasks (Balancer.plain ℕ) bootKernel 0 0 1).kernel 1000 ∧
      ¬ Machine.Attempts (step (Balancer.plain ℕ)) (SafeStep (Balancer.plain ℕ))
        (initTasks (Balancer.plain ℕ) bootKernel 0 0 1) [.tick 1000] := by
  have hnull : none ∈ tickReads (Balancer.plain ℕ) (initTasks (Balancer.plain ℕ) bootKernel 0 0 1).kernel 1000 := by
    decide +kernel
  refine ⟨hnull, fun h => ?_⟩
  obtain ⟨t, -, ht⟩ := h.1.reads none hnull
  cases ht

end Runs

end Slos.SafeTick
