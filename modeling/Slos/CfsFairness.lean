import Slos.RunQueueOrder
import Slos.StrideQueue

/-!
# Fairness of the CFS scheduler

A run enqueues entities that are not queued, dequeues queued ones and takes scheduler ticks. The rewrite of the vruntimes
at a wakeup or a sleep can leave the tree out of order, and the tick after it can charge a task that is not the leftmost
one. The queue is still `Banded`: vruntimes of queued tasks stay close, ticks are shared in proportion to the priorities,
and no queued task waits for ever. A tick on an empty queue follows a `NULL` leftmost entity and has no result.
-/

namespace Slos.CfsFairness
open Word SearchTree Kernel RunQueueOrder StrideQueue

variable {τ : Type}

/-- The vruntime of an entity is the jiffies it consumed times its priority. -/
def Charged (e : SchedEntity) : Prop := e.jiffiesVruntime = u32 (e.jiffiesConsumed * e.priority)

def stride (k : Kernel τ) (t : τ) : ℕ := (k.se t).priority

/-- A tick does not take the vruntime of a queued task past 32 bits. -/
def NoWrap (k : Kernel τ) : RqStep τ → Prop
  | .tick _ => k.current ∈ k.queue → k.vruntime k.current + stride k k.current < size
  | _ => True

instance (k : Kernel τ) [DecidableEq τ] (i : RqStep τ) : Decidable (NoWrap k i) := match i with
  | .enqueue _ => isTrue trivial
  | .dequeue _ => isTrue trivial
  | .tick _ => inferInstanceAs (Decidable (_ → _))

/-- Queued entities are within their two priorities and 16 of each other. -/
def Close (k : Kernel τ) : Prop :=
  ∀ t ∈ k.queue, ∀ u ∈ k.queue, k.vruntime t < k.vruntime u + stride k t + stride k u + 16

/-- The queue is around the level `V`. Either it was rewritten since the last tick and no entity is above the level, or
the current task is the leftmost one. -/
def Level (k : Kernel τ) (V : ℕ) : Prop :=
  Banded k.vruntime (stride k) 16 V k.queue ∧
    ((∀ t ∈ k.queue, k.vruntime t ≤ V) ∨ k.queue.head? = some k.current)

structure Inv (k : Kernel τ) : Prop where
  ready : Ready k
  charged : ∀ t, Charged (k.se t)
  level : ∃ V, Level k V

theorem Inv.close {k : Kernel τ} (h : Inv k) : Close k := by
  obtain ⟨V, hband, -⟩ := h.level
  exact fun t ht u hu => hband.spread ht hu

theorem Ready.stride_pos {k : Kernel τ} (h : Ready k) (t : τ) : 0 < stride k t := by
  rw [stride, (h.entity t).priority_eq]
  exact Nat.two_pow_pos _

theorem Ready.stride_le {k : Kernel τ} (h : Ready k) (t : τ) : stride k t ≤ 16 := by
  rw [stride, (h.entity t).priority_eq]
  exact Nat.pow_le_pow_right (by decide) (h.entity t).shift

/-- Right after the queue is rewritten, each vruntime is the last multiple of its priority up to the level. -/
theorem inv_of_fresh {k : Kernel τ} (hready : Ready k) (hcharged : ∀ t, Charged (k.se t)) {V : ℕ}
    (hfresh : ∀ t ∈ k.queue, V < k.vruntime t + stride k t ∧ k.vruntime t ≤ V) : Inv k := by
  refine ⟨hready, hcharged, V, ?_, .inl fun t ht => (hfresh t ht).2⟩
  apply banded_of_one (c := k.current) (Ready.stride_le hready) hready.nodup
  · exact fun t ht => (hfresh t ht).1
  · exact fun t ht _ => (hfresh t ht).2
  · exact fun hc => (hfresh _ hc).2.trans (Nat.le_add_right _ _)

variable [DecidableEq τ] (b : Balancer τ)

def runStep (k : Kernel τ) : RqStep τ → Option (Kernel τ)
  | .enqueue t => if t ∈ k.queue then none else some (enqueueSeToRunq b k t)
  | .dequeue t => if t ∈ k.queue then some (dequeueSeToWq b k t) else none
  | .tick elapsed => tick b k elapsed

theorem renorm_charged {k : Kernel τ} (h : ∀ t, Charged (k.se t)) (leftmost u t : τ) :
    Charged ((renorm leftmost k u).se t) := by
  rw [renorm_se]
  split
  · rfl
  · exact h t

theorem foldl_renorm_charged {k : Kernel τ} (h : ∀ t, Charged (k.se t)) (leftmost : τ) (ts : List τ) :
    ∀ t, Charged ((ts.foldl (renorm leftmost) k).se t) := by
  induction ts generalizing k with
  | nil => exact h
  | cons u ts ih => exact ih (renorm_charged h leftmost u)

theorem updateVruntimeRunq_charged {k : Kernel τ} (h : ∀ t, Charged (k.se t)) (t u : τ) :
    Charged ((updateVruntimeRunq k t).se u) := by
  unfold updateVruntimeRunq
  split
  · exact h u
  · exact foldl_renorm_charged (renorm_charged h _ t) _ _ u

/-- The level after `update_vruntime_runq` is the vruntime of the leftmost entity, and without one that of `t`. -/
theorem updateVruntimeRunq_fresh {k : Kernel τ} (h : Ready k) (t : τ) :
    ∃ V, ∀ u ∈ t :: k.queue, V < (updateVruntimeRunq k t).vruntime u + stride (updateVruntimeRunq k t) u ∧
      (updateVruntimeRunq k t).vruntime u ≤ V := by
  cases hq : k.queue.head? with
  | none =>
      refine ⟨k.vruntime t, fun u hu => ?_⟩
      rw [List.head?_eq_none_iff.mp hq, List.mem_singleton] at hu
      have hse : (updateVruntimeRunq k t).se t = k.se t := by rw [updateVruntimeRunq_eq h, hq]
      have hpos := Ready.stride_pos h t
      simp only [vruntime, stride, hse, hu] at hpos ⊢
      exact ⟨Nat.lt_add_of_pos_right hpos, le_rfl⟩
  | some leftmost =>
      refine ⟨k.vruntime leftmost, fun u hu => ?_⟩
      have hu' : u ∈ k.queue ∨ u = t := (List.mem_cons.mp hu).symm
      have hse : (updateVruntimeRunq k t).se u = normal (k.vruntime leftmost) (k.se u) := by
        rw [updateVruntimeRunq_eq h, hq]
        exact if_pos hu'
      have hkey : (updateVruntimeRunq k t).vruntime u =
          k.vruntime leftmost - k.vruntime leftmost % (k.se u).priority := by
        rw [vruntime, hse]
        exact normal_vruntime (h.entity u) (h.vruntime_lt leftmost)
      have hmod := Nat.mod_lt (k.vruntime leftmost) (Ready.stride_pos h u)
      have hle := Nat.mod_le (k.vruntime leftmost) (k.se u).priority
      have hstride : stride (updateVruntimeRunq k t) u = (k.se u).priority := by
        rw [stride, hse]
        rfl
      rw [hstride, hkey]
      rw [stride] at hmod
      omega

theorem enqueueSeToRunq_inv {k : Kernel τ} (h : Ready k) (hcharged : ∀ t, Charged (k.se t)) {t : τ}
    (ht : t ∉ k.queue) : Inv (enqueueSeToRunq b k t) := by
  have hs := wakeState_sameSched k t
  have hready := SameSched.ready hs h
  obtain ⟨V, hV⟩ := updateVruntimeRunq_fresh hready t
  apply inv_of_fresh (enqueueSeToRunq_ready b h ht)
  · exact fun u => updateVruntimeRunq_charged (fun v => hs.se v ▸ hcharged v) t u
  · intro u hu
    have hmem : u ∈ t :: k.queue := (enqueueSeToRunq_queue b h.nodup h.cached ht).1.mem_iff.mp hu
    exact hV u (hs.queue ▸ hmem)

theorem dequeueSeToWq_inv {k : Kernel τ} (h : Ready k) (hcharged : ∀ t, Charged (k.se t)) {t : τ}
    (ht : t ∈ k.queue) : Inv (dequeueSeToWq b k t) := by
  have hs := sleepState_sameSched k t
  have hready := SameSched.ready hs h
  obtain ⟨V, hV⟩ := updateVruntimeRunq_fresh hready t
  apply inv_of_fresh (dequeueSeToWq_ready b h ht)
  · exact fun u => updateVruntimeRunq_charged (fun v => hs.se v ▸ hcharged v) t u
  · intro u hu
    rw [(dequeueSeToWq_queue b h.nodup h.cached ht).1] at hu
    exact hV u (List.mem_cons_of_mem _ (hs.queue ▸ List.mem_of_mem_erase hu))

theorem updateCurrent_se {k : Kernel τ} (h : Ready k) (elapsed : ℕ) (t : τ) :
    (updateCurrent k elapsed).se t = if t = k.current then
        { k.se k.current with
          jiffiesConsumed := u32 ((k.se k.current).jiffiesConsumed + 1)
          ticksConsumed := ((k.se k.current).ticksConsumed + elapsed) % 2 ^ 64
          jiffiesVruntime := charged k }
      else k.se t := by
  rw [updateCurrent, h.cfs]
  by_cases ht : t = k.current
  · rw [if_pos ht, ht]
    exact setSe_self ..
  · rw [if_neg ht]
    exact setSe_of_ne k _ ht

omit [DecidableEq τ] in
theorem charged_eq {k : Kernel τ} (hcharged : Charged (k.se k.current))
    (hwrap : k.vruntime k.current + stride k k.current < size) :
    charged k = k.vruntime k.current + stride k k.current := by
  rw [charged, u32, u32, Nat.mod_mul_mod, Nat.add_mul, Nat.one_mul]
  rw [← Nat.mod_add_mod]
  rw [show (k.se k.current).jiffiesConsumed * (k.se k.current).priority % size = k.vruntime k.current from hcharged.symm]
  exact Nat.mod_eq_of_lt hwrap

/-- `update_se` takes the leftmost entity to a place between a smaller vruntime and one that is not smaller. -/
theorem updateSe_between {k : Kernel τ} (h : Ready k) {t : τ} {us : List τ} (hq : k.queue = t :: us) :
    ∃ k' xs ys, updateSe b k = some k' ∧ Ready k' ∧ k'.task = k.task ∧ us = xs ++ ys ∧
      k'.queue = xs ++ t :: ys ∧ (∀ p ∈ xs.getLast?, k.vruntime p < k.vruntime t) ∧
      ∀ s ∈ ys.head?, k.vruntime t ≤ k.vruntime s := by
  have hcached : k.runq.rbLeftmost = some t := by rw [h.cached, hq]; rfl
  have hnext : k.runq.root.next t = us.head? := BinTree.next_head hq
  have ht : t ∈ k.queue := hq ▸ List.mem_cons_self
  have hdeq := dequeueSe_ready b h ht
  have hdq : (dequeueSe b k t).queue = us := by rw [dequeueSe_queue b h.nodup ht, hq, List.erase_cons_head]
  have htdq : t ∉ (dequeueSe b k t).queue := by
    rw [hdq]
    exact (List.nodup_cons.mp (hq ▸ h.nodup)).1
  rw [updateSe, hcached, Option.map_some]
  dsimp only
  split_ifs with hlt
  · obtain ⟨xs, ys, hxy, hlink, hxs, hys⟩ := BinTree.inorder_link_between
      (enqueueLeft (dequeueSe b k t) ((dequeueSe b k t).vruntime t)) t (dequeueSe b k t).runq.root
    refine ⟨_, xs, ys, rfl, enqueueSe_ready b hdeq htdq, rfl, hdq.symm.trans hxy, ?_, fun p hp => ?_, fun s hs => ?_⟩
    · rw [enqueueSe_queue b hdeq.nodup htdq, hlink]
    · exact Nat.not_le.mp (of_decide_eq_false (hxs p hp))
    · exact of_decide_eq_true (hys s hs)
  · refine ⟨k, [], us, rfl, h, rfl, rfl, hq, by rintro _ ⟨⟩, fun s hs => ?_⟩
    rw [hnext, hs] at hlt
    exact Nat.not_lt.mp hlt

/-- A tick on a queue that is not empty charges the current task, moves the leftmost entity and selects the new one. -/
theorem tick_moves {k : Kernel τ} (h : Ready k) {t : τ} {us : List τ} (hq : k.queue = t :: us) (elapsed : ℕ) :
    ∃ k' xs ys, tick b k elapsed = some k' ∧ Ready k' ∧ (∀ u, k'.se u = (updateCurrent k elapsed).se u) ∧
      us = xs ++ ys ∧ k'.queue = xs ++ t :: ys ∧ k'.queue.head? = some k'.current ∧
      (∀ p ∈ xs.getLast?, k'.vruntime p < k'.vruntime t) ∧ ∀ s ∈ ys.head?, k'.vruntime t ≤ k'.vruntime s := by
  obtain ⟨hready, hqueue, -, -⟩ := updateCurrent_ready h elapsed
  obtain ⟨k₁, xs, ys, hk₁, hready₁, htask, hus, hq₁, hxs, hys⟩ := updateSe_between b hready (hqueue.trans hq)
  obtain ⟨c, cs, hc⟩ : ∃ c cs, k₁.queue = c :: cs := by
    rw [hq₁]
    cases xs <;> exact ⟨_, _, rfl⟩
  have hcached : k₁.runq.rbLeftmost = some c := by rw [hready₁.cached, hc]; rfl
  have hse : ∀ u, k₁.se u = (updateCurrent k elapsed).se u := fun u => congrArg (fun f => (f u).se) htask
  have hv : ∀ u, k₁.vruntime u = (updateCurrent k elapsed).vruntime u := fun u =>
    congrArg SchedEntity.jiffiesVruntime (hse u)
  have hready' : Ready { k₁ with current := c } := ⟨hready₁.nodup, hready₁.cached, hready₁.entity, hready₁.cfs⟩
  refine ⟨{ k₁ with current := c }, xs, ys, ?_, hready', hse, hus, hq₁, congrArg List.head? hc, fun p hp => ?_,
    fun s hs => ?_⟩
  · rw [tick, hk₁, Option.bind_some, schedule, hcached]
    rfl
  · change k₁.vruntime p < k₁.vruntime t
    rw [hv, hv]
    exact hxs p hp
  · change k₁.vruntime t ≤ k₁.vruntime s
    rw [hv, hv]
    exact hys s hs

theorem charged_updateCurrent {k : Kernel τ} (h : Ready k) (hcharged : ∀ t, Charged (k.se t)) (elapsed : ℕ) (t : τ) :
    Charged ((updateCurrent k elapsed).se t) := by
  rw [updateCurrent_se h]
  split
  · rfl
  · exact hcharged t

theorem stride_updateCurrent {k : Kernel τ} (h : Ready k) (elapsed : ℕ) (t : τ) :
    stride (updateCurrent k elapsed) t = stride k t := by
  rw [stride, updateCurrent_se h]
  split_ifs with ht
  · rw [ht]
    rfl
  · rfl

/-- A tick adds its priority to the vruntime of the current task and changes no other. -/
theorem vruntime_updateCurrent {k : Kernel τ} (h : Inv k) {elapsed : ℕ} (hwrap : NoWrap k (.tick elapsed)) {t : τ}
    (ht : t ∈ k.queue) : (updateCurrent k elapsed).vruntime t =
      k.vruntime t + if t = k.current then stride k t else 0 := by
  obtain ⟨-, -, -, hkey⟩ := updateCurrent_ready h.ready elapsed
  rw [hkey]
  split_ifs with hc
  · subst hc
    exact charged_eq (h.charged _) (hwrap ht)
  · rfl

/-- The first tick after a rewrite may charge any task. -/
theorem banded_of_charge {k k' : Kernel τ} (hready : Ready k') (hperm : k'.queue.Perm k.queue) (hst : stride k' = stride k)
    (hv : ∀ t ∈ k.queue, k'.vruntime t = k.vruntime t + if t = k.current then stride k t else 0) {V : ℕ}
    (hband : Banded k.vruntime (stride k) 16 V k.queue) (hfresh : ∀ t ∈ k.queue, k.vruntime t ≤ V) :
    Banded k'.vruntime (stride k') 16 V k'.queue := by
  apply banded_of_one (c := k.current) (Ready.stride_le hready) hready.nodup
  · intro t ht
    have := hband.low t (hperm.mem_iff.mp ht)
    rw [hv t (hperm.mem_iff.mp ht), hst]
    omega
  · intro t ht hne
    rw [hv t (hperm.mem_iff.mp ht), if_neg hne]
    exact hfresh t (hperm.mem_iff.mp ht)
  · intro hc
    rw [hv _ (hperm.mem_iff.mp hc), if_pos rfl, hst]
    exact Nat.add_le_add_right (hfresh _ (hperm.mem_iff.mp hc)) _

/-- A later tick charges the leftmost task and moves it. -/
theorem banded_of_serve {k k' : Kernel τ} (hready : Ready k) {us xs ys : List τ} (hq : k.queue = k.current :: us)
    (hus : us = xs ++ ys) (hq' : k'.queue = xs ++ k.current :: ys) (hst : stride k' = stride k)
    (hv : ∀ t ∈ k.queue, k'.vruntime t = k.vruntime t + if t = k.current then stride k t else 0)
    (hxs : ∀ t ∈ xs.getLast?, k'.vruntime t < k'.vruntime k.current)
    (hys : ∀ t ∈ ys.head?, k'.vruntime k.current ≤ k'.vruntime t) {V : ℕ}
    (hband : Banded k.vruntime (stride k) 16 V k.queue) : ∃ W, Banded k'.vruntime (stride k') 16 W k'.queue := by
  have hnd := hready.nodup
  rw [hq] at hnd hv hband
  have hserved : k'.vruntime k.current = k.vruntime k.current + stride k k.current := by
    rw [hv _ List.mem_cons_self, if_pos rfl]
  have hkept : ∀ t ∈ us, k'.vruntime t = k.vruntime t := by
    intro t ht
    have hne : t ≠ k.current := fun he => (List.nodup_cons.mp hnd).1 (he ▸ ht)
    rw [hv _ (List.mem_cons_of_mem _ ht), if_neg hne, Nat.add_zero]
  rw [hq', hst]
  exact hband.serve (Ready.stride_pos hready) hus hserved hkept hxs hys

theorem tick_spec {k k' : Kernel τ} (h : Inv k) {elapsed : ℕ} (hwrap : NoWrap k (.tick elapsed))
    (hk : tick b k elapsed = some k') : Inv k' ∧ k'.queue.Perm k.queue ∧ stride k' = stride k ∧
      (∀ t ∈ k.queue, k'.vruntime t = k.vruntime t + if t = k.current then stride k t else 0) ∧
      k'.current ∈ k'.queue := by
  cases hq : k.queue with
  | nil =>
      have hqueue := (updateCurrent_ready h.ready elapsed).2.1
      have hcached := (updateCurrent_ready h.ready elapsed).1.cached
      rw [tick, updateSe, hcached, hqueue, hq] at hk
      cases hk
  | cons t us =>
      obtain ⟨k₁, xs, ys, hk₁, hready, hse, hus, hq₁, hhead, hxs, hys⟩ := tick_moves b h.ready hq elapsed
      obtain rfl := Option.some.inj (hk₁.symm.trans hk)
      have hst : stride k₁ = stride k := funext fun u =>
        (congrArg SchedEntity.priority (hse u)).trans (stride_updateCurrent h.ready elapsed u)
      have hv : ∀ u ∈ k.queue, k₁.vruntime u = k.vruntime u + if u = k.current then stride k u else 0 :=
        fun u hu => (congrArg SchedEntity.jiffiesVruntime (hse u)).trans (vruntime_updateCurrent h hwrap hu)
      have hcharged : ∀ u, Charged (k₁.se u) := fun u => hse u ▸ charged_updateCurrent h.ready h.charged elapsed u
      have hperm : k₁.queue.Perm k.queue := by
        rw [hq₁, hq, hus]
        exact List.perm_middle
      refine ⟨⟨hready, hcharged, ?_⟩, hq ▸ hperm, hst, hq ▸ hv, List.mem_of_head? hhead⟩
      obtain ⟨V, hband, hfresh | hfront⟩ := h.level
      · exact ⟨V, banded_of_charge hready hperm hst hv hband hfresh, .inr hhead⟩
      · obtain rfl : t = k.current := by simpa [hq] using hfront
        obtain ⟨W, hW⟩ := banded_of_serve h.ready hq hus hq₁ hst hv hxs hys hband
        exact ⟨W, hW, .inr hhead⟩

theorem runStep_inv {k k' : Kernel τ} {i : RqStep τ} (h : Inv k) (hwrap : NoWrap k i) (hk : runStep b k i = some k') :
    Inv k' := by
  cases i with
  | enqueue t =>
      simp only [runStep] at hk
      split_ifs at hk with ht
      cases hk
      exact enqueueSeToRunq_inv b h.ready h.charged ht
  | dequeue t =>
      simp only [runStep] at hk
      split_ifs at hk with ht
      cases hk
      exact dequeueSeToWq_inv b h.ready h.charged ht
  | tick elapsed => exact (tick_spec b h hwrap hk).1

theorem initRq_inv {k : Kernel τ} (h : Start k) (hcharged : ∀ t, Charged (k.se t)) : Inv (initRq b k) := by
  let k₀ : Kernel τ := { k with
    runq := { root := .nil, rbLeftmost := some k.idleTask, prioritySum := 0, cfsTaskNum := 0 } }
  have hs := wakeState_sameSched k₀ k.idleTask
  have hready := (initRq_ready b h).1
  apply inv_of_fresh hready
  · exact fun t => updateVruntimeRunq_charged (fun u => hs.se u ▸ hcharged u) k.idleTask t
  · intro t ht
    rw [(initRq_queue b k).1, List.mem_singleton] at ht
    subst ht
    exact ⟨Nat.lt_add_of_pos_right (Ready.stride_pos hready _), le_rfl⟩

/-- In every run without a wrap from `init_rq`, the vruntimes of queued tasks stay within their two priorities and 16 of
each other, also where the queue has lost its order. -/
theorem vruntimes_close {k : Kernel τ} (h : Start k) (hcharged : ∀ t, Charged (k.se t)) (is : List (RqStep τ))
    (hrun : Machine.StepsMeet (runStep b) NoWrap (initRq b k) is) :
    Machine.Always (runStep b) Close (initRq b k) is := by
  apply Machine.always_of_stepsMeet Inv (C := NoWrap) fun k hk => hk.close
  · exact fun k i k' hk hc hk' => runStep_inv b hk hc hk'
  · exact initRq_inv b h hcharged
  · exact hrun

theorem bootKernel_charged (t : ℕ) : Charged (bootKernel.se t) := by
  change Charged (if t = 0 then initIdletask rawTask 0 else forkTask rawTask t .cfsTask 1 0 0).se
  split <;> rfl

/-- The run whose wakeup leaves the queue out of order. -/
theorem vruntimes_close_unsorted :
    Machine.Always (runStep (Balancer.plain ℕ)) Close (initRq (Balancer.plain ℕ) bootKernel)
      [.enqueue 1, .tick 1000, .tick 1000, .enqueue 2, .tick 1000, .dequeue 1, .tick 1000] :=
  vruntimes_close (Balancer.plain ℕ) bootKernel_start bootKernel_charged _ (by decide +kernel)

/-- The tasks the ticks find running, which they charge. -/
def ran : Kernel τ → List ℕ → List τ
  | _, [] => []
  | k, e :: es => k.current :: match tick b k e with
    | none => []
    | some k' => ran k' es

theorem ran_cons {k k' : Kernel τ} {e : ℕ} (h : tick b k e = some k') (es : List ℕ) :
    ran b k (e :: es) = k.current :: ran b k' es := by
  rw [ran, h]

theorem ticks_spec {k : Kernel τ} (h : Inv k) (hne : k.queue ≠ []) {es : List ℕ}
    (hrun : Machine.StepsMeet (runStep b) NoWrap k (es.map .tick)) :
    ∃ k', Inv k' ∧ k'.queue.Perm k.queue ∧ stride k' = stride k ∧
      (∀ t ∈ k.queue, k'.vruntime t = k.vruntime t + (ran b k es).count t * stride k t) ∧
      (ran b k es).length = es.length ∧ ran b k es ⊆ k.current :: k.queue ∧ (ran b k es).tail ⊆ k.queue := by
  induction es generalizing k with
  | nil =>
      exact ⟨k, h, List.Perm.refl _, rfl, fun t _ => by simp [ran], rfl, List.nil_subset _, List.nil_subset _⟩
  | cons e es ih =>
      obtain ⟨t, us, hq⟩ := List.exists_cons_of_ne_nil hne
      obtain ⟨k₁, -, -, hk₁, -⟩ := tick_moves b h.ready hq e
      obtain ⟨hwrap, hrest⟩ := hrun k₁ hk₁
      obtain ⟨hinv, hperm, hstride, hv, hcur⟩ := tick_spec b h hwrap hk₁
      obtain ⟨k', hinv', hperm', hstride', hv', hlen, hsub, -⟩ := ih hinv (List.ne_nil_of_mem hcur) hrest
      have htail : ran b k₁ es ⊆ k.queue := by
        intro t ht
        rcases List.mem_cons.mp (hsub ht) with rfl | ht
        · exact hperm.mem_iff.mp hcur
        · exact hperm.mem_iff.mp ht
      rw [ran_cons b hk₁]
      refine ⟨k', hinv', hperm'.trans hperm, hstride'.trans hstride, fun t ht => ?_, ?_,
        List.cons_subset_cons _ htail, htail⟩
      · rw [hv' t (hperm.mem_iff.mpr ht), hv t ht, hstride, List.count_cons]
        by_cases hc : t = k.current
        · subst hc
          rw [if_pos rfl, if_pos (beq_self_eq_true _), Nat.add_mul, Nat.one_mul]
          omega
        · rw [if_neg hc, if_neg (by simpa using Ne.symm hc), Nat.add_zero, Nat.add_zero]
      · rw [List.length_cons, hlen, List.length_cons]

theorem share_of_ticks {k : Kernel τ} (h : Inv k) {es : List ℕ}
    (hrun : Machine.StepsMeet (runStep b) NoWrap k (es.map .tick)) {t u : τ} (ht : t ∈ k.queue) (hu : u ∈ k.queue) :
    (ran b k es).count t * stride k t <
      (ran b k es).count u * stride k u + 2 * (stride k t + stride k u + 16) := by
  obtain ⟨k', hinv', hperm, hstride, hv, -⟩ := ticks_spec b h (List.ne_nil_of_mem ht) hrun
  obtain ⟨V, hV, -⟩ := h.level
  obtain ⟨W, hW, -⟩ := hinv'.level
  rw [hstride] at hW
  exact hV.share hW hv ht (hperm.mem_iff.mpr ht) hu (hperm.mem_iff.mpr hu)

/-- Over any number of ticks in a row, from any state a run without a wrap comes to, the ticks of queued tasks times their
priorities differ by a bound that does not depend on the number. -/
theorem ticks_proportional {k k₀ : Kernel τ} (h : Start k) (hcharged : ∀ t, Charged (k.se t)) (is : List (RqStep τ))
    (es : List ℕ) (hrun : Machine.StepsMeet (runStep b) NoWrap (initRq b k) (is ++ es.map .tick))
    (hk : Machine.exec (runStep b) (initRq b k) is = some k₀) {t u : τ} (ht : t ∈ k₀.queue) (hu : u ∈ k₀.queue) :
    (ran b k₀ es).count t * stride k₀ t <
      (ran b k₀ es).count u * stride k₀ u + 2 * (stride k₀ t + stride k₀ u + 16) := by
  obtain ⟨hinv, hticks⟩ := hrun.after Inv (fun k i k' => runStep_inv b) (initRq_inv b h hcharged) hk
  exact share_of_ticks b hinv hticks ht hu

/-- Three ticks after the wakeup that leaves the queue out of order. -/
theorem ticks_proportional_unsorted :
    ∃ k, Machine.exec (runStep (Balancer.plain ℕ)) (initRq (Balancer.plain ℕ) bootKernel)
        [.enqueue 1, .tick 1000, .tick 1000, .enqueue 2] = some k ∧ ¬ Sorted k ∧
      (ran (Balancer.plain ℕ) k [1000, 1000, 1000]).count 2 * stride k 2 <
        (ran (Balancer.plain ℕ) k [1000, 1000, 1000]).count 0 * stride k 0 + 2 * (stride k 2 + stride k 0 + 16) := by
  have hrun : (Machine.exec (runStep (Balancer.plain ℕ)) (initRq (Balancer.plain ℕ) bootKernel)
      [.enqueue 1, .tick 1000, .tick 1000, .enqueue 2]).map (fun k => (k.queue, decide (Sorted k))) =
        some ([1, 0, 2], false) := by decide +kernel
  obtain ⟨k, hk, hv⟩ := Option.map_eq_some_iff.mp hrun
  obtain ⟨hqueue, hsorted⟩ := Prod.mk.inj hv
  refine ⟨k, hk, of_decide_eq_false hsorted, ?_⟩
  apply ticks_proportional (Balancer.plain ℕ) bootKernel_start bootKernel_charged
    [.enqueue 1, .tick 1000, .tick 1000, .enqueue 2] [1000, 1000, 1000] (by decide +kernel) hk
  · rw [hqueue]
    decide
  · rw [hqueue]
    decide

/-- A queued task runs at one of any ticks in a row that are more than 65 for each queued task. -/
theorem queued_task_runs {k k₀ : Kernel τ} (h : Start k) (hcharged : ∀ t, Charged (k.se t)) (is : List (RqStep τ))
    (es : List ℕ) (hrun : Machine.StepsMeet (runStep b) NoWrap (initRq b k) (is ++ es.map .tick))
    (hk : Machine.exec (runStep b) (initRq b k) is = some k₀) {t : τ} (ht : t ∈ k₀.queue)
    (hlong : 65 * k₀.queue.length < es.length) : t ∈ ran b k₀ es := by
  obtain ⟨hinv, hticks⟩ := hrun.after Inv (fun k i k' => runStep_inv b) (initRq_inv b h hcharged) hk
  obtain ⟨k', -, -, -, -, hlen, -, htail⟩ := ticks_spec b hinv (List.ne_nil_of_mem ht) hticks
  by_contra hnot
  have hcount : ∀ u ∈ k₀.queue, (ran b k₀ es).count u ≤ 65 := by
    intro u hu
    have hshare := share_of_ticks b hinv hticks hu ht
    have hu16 := Ready.stride_pos hinv.ready u
    have ht16 := Ready.stride_le hinv.ready t
    rw [List.count_eq_zero.mpr hnot, Nat.zero_mul, Nat.zero_add] at hshare
    by_contra hmany
    have : 66 * stride k₀ u ≤ (ran b k₀ es).count u * stride k₀ u := Nat.mul_le_mul_right _ (Nat.not_le.mp hmany)
    omega
  have hsub : (ran b k₀ es).tail ⊆ k₀.queue.erase t := by
    intro u hu
    have hne : u ≠ t := fun he => hnot (he ▸ List.mem_of_mem_tail hu)
    exact (List.mem_erase_of_ne hne).mpr (htail hu)
  have hle : (ran b k₀ es).tail.length ≤ 65 * (k₀.queue.erase t).length := by
    refine length_le_of_count hsub fun u hu => ?_
    exact ((List.tail_sublist _).count_le u).trans (hcount u (htail hu))
  rw [List.length_tail, hlen, List.length_erase_of_mem ht] at hle
  have := List.length_pos_of_mem ht
  omega

theorem queued_task_runs_idle :
    ∃ k, Machine.exec (runStep (Balancer.plain ℕ)) (initRq (Balancer.plain ℕ) bootKernel) [.enqueue 1] = some k ∧
      0 ∈ ran (Balancer.plain ℕ) k (List.replicate 131 1000) := by
  have hrun : (Machine.exec (runStep (Balancer.plain ℕ)) (initRq (Balancer.plain ℕ) bootKernel) [.enqueue 1]).map
      queue = some [1, 0] := by decide +kernel
  obtain ⟨k, hk, hqueue⟩ := Option.map_eq_some_iff.mp hrun
  refine ⟨k, hk, ?_⟩
  apply queued_task_runs (Balancer.plain ℕ) bootKernel_start bootKernel_charged [.enqueue 1] (List.replicate 131 1000)
    (by decide +kernel) hk
  · rw [hqueue]
    decide
  · rw [hqueue, List.length_replicate]
    decide

end Slos.CfsFairness
