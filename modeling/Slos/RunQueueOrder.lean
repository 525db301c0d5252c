import Slos.Machine
import Slos.RunQueue

/-!
# Order of the CFS run queue

A run enqueues entities that are not queued, dequeues queued ones and takes scheduler ticks. The
keys of queued entities are rewritten in place, so the order of the tree can be lost. `Keeps` is the
condition under which a step leaves the queue in order, and it is exact: with `l` the leftmost
vruntime, `update_vruntime_runq` leaves each queued entity at `l` less its remainder by the
entity's priority.
-/

namespace Slos.RunQueueOrder
open Word SearchTree Kernel

variable {τ : Type}

inductive RqStep (τ : Type)
  | enqueue (t : τ)
  | dequeue (t : τ)
  | tick (elapsed : ℕ)

def Sorted (k : Kernel τ) : Prop := k.queue.Pairwise fun t u => k.vruntime t ≤ k.vruntime u

instance (k : Kernel τ) : Decidable (Sorted k) := inferInstanceAs (Decidable (List.Pairwise _ _))

/-- Along the sequence, dividing the leftmost vruntime by the priorities leaves remainders that do
not grow. With the leftmost entity in the sequence, all of them are zero. -/
def RoundsInOrder (k : Kernel τ) (ts : List τ) : Prop :=
  ∀ leftmost, k.queue.head? = some leftmost →
    ts.Pairwise fun t u => k.vruntime leftmost % (k.se u).priority ≤
      k.vruntime leftmost % (k.se t).priority

/-- The key `update_current` gives the current task. -/
def charged (k : Kernel τ) : ℕ :=
  u32 (u32 ((k.se k.current).jiffiesConsumed + 1) * (k.se k.current).priority)

/-- The current task is not queued behind the leftmost one, or its new key still lies between those
of its neighbours there. -/
def ChargesInOrder (k : Kernel τ) : Prop :=
  ∀ ts us, k.queue.tail = ts ++ k.current :: us →
    (∀ t ∈ ts, k.vruntime t ≤ charged k) ∧ ∀ u ∈ us, charged k ≤ k.vruntime u

/-- The tree holds distinct CFS entities and `rb_leftmost` is the first in order. -/
structure Ready (k : Kernel τ) : Prop where
  nodup : k.queue.Nodup
  cached : k.runq.rbLeftmost = k.queue.head?
  entity : ∀ t, (k.se t).Ok
  cfs : ∀ t, (k.task t).type = .cfsTask

/-- The entities before `init_rq`: CFS tasks as `forkyi` and `init_idletask` create them. -/
structure Start (k : Kernel τ) : Prop where
  entity : ∀ t, (k.se t).Ok
  cfs : ∀ t, (k.task t).type = .cfsTask

theorem Ready.vruntime_lt {k : Kernel τ} (h : Ready k) (t : τ) : k.vruntime t < size :=
  (h.entity t).lt

theorem SameSched.ready {k k' : Kernel τ} (hs : SameSched k k') (h : Ready k) : Ready k' :=
  ⟨hs.queue ▸ h.nodup, by rw [hs.rbLeftmost, hs.queue, h.cached], fun t => hs.se t ▸ h.entity t,
    fun t => (hs.type t).trans (h.cfs t)⟩

theorem SameSched.roundsInOrder {k k' : Kernel τ} (hs : SameSched k k') (ts : List τ) :
    RoundsInOrder k' ts ↔ RoundsInOrder k ts := by
  unfold RoundsInOrder
  simp only [hs.queue, hs.vruntime, hs.se]

variable [DecidableEq τ] (b : Balancer τ)

/-- `update_current`, `update_se` and `schedule`. -/
def tick (k : Kernel τ) (elapsed : ℕ) : Option (Kernel τ) :=
  (updateSe b (updateCurrent k elapsed)).bind schedule

def rqStep (k : Kernel τ) : RqStep τ → Option (Kernel τ)
  | .enqueue t => if t ∈ k.queue then none else some (enqueueSeToRunq b k t)
  | .dequeue t => if t ∈ k.queue then some (dequeueSeToWq b k t) else none
  | .tick elapsed => if 2 ≤ k.queue.length then tick b k elapsed else none

def Keeps (k : Kernel τ) : RqStep τ → Prop
  | .enqueue _ => RoundsInOrder k k.queue
  | .dequeue t => RoundsInOrder k (k.queue.erase t)
  | .tick _ => ChargesInOrder k

/-- The task a tick selects has the least vruntime of those queued. -/
def PicksLeast (k : Kernel τ) : RqStep τ → Prop
  | .tick elapsed => ∀ k', tick b k elapsed = some k' →
      k'.current ∈ k'.queue ∧ ∀ t ∈ k'.queue, k'.vruntime k'.current ≤ k'.vruntime t
  | _ => True

/-- The in-place rewrite of the queue and of one more entity, from a state that is ready. -/
theorem updateVruntimeRunq_eq {k : Kernel τ} (h : Ready k) (t u : τ) :
    (updateVruntimeRunq k t).se u = match k.queue.head? with
      | none => k.se u
      | some leftmost =>
          if u ∈ k.queue ∨ u = t then normal (k.vruntime leftmost) (k.se u) else k.se u := by
  cases hq : k.queue.head? with
  | none => rw [updateVruntimeRunq, h.cached, hq]
  | some leftmost =>
      apply updateVruntimeRunq_se (h.cached.trans hq) hq
      rw [normal_vruntime (h.entity leftmost) (h.vruntime_lt leftmost)]
      obtain ⟨c, hc⟩ := (h.entity leftmost).dvd
      rw [Kernel.vruntime, hc, Nat.mul_mod_right, Nat.sub_zero]

theorem updateVruntimeRunq_ready {k : Kernel τ} (h : Ready k) (t : τ) :
    Ready (updateVruntimeRunq k t) := by
  have hse := updateVruntimeRunq_seOnly k t
  have hqueue := updateVruntimeRunq_queue k t
  refine ⟨hqueue ▸ h.nodup, ?_, updateVruntimeRunq_ok h.entity t, fun u => ?_⟩
  · rw [hqueue, hse.runq, h.cached]
  · rw [hse.task u]
    exact h.cfs u

/-- The rewritten queue, without the entities `ts` leaves out, is in order exactly when the
remainders do not grow. -/
theorem sorted_renormed_iff {k : Kernel τ} (h : Ready k) (t : τ) {ts : List τ}
    (hts : ts.Sublist k.queue) :
    (ts.Pairwise fun u v => (updateVruntimeRunq k t).vruntime u ≤
      (updateVruntimeRunq k t).vruntime v) ↔ RoundsInOrder k ts := by
  cases hq : k.queue.head? with
  | none =>
      rw [List.head?_eq_none_iff.mp hq, List.sublist_nil] at hts
      subst hts
      exact ⟨fun _ _ _ => List.Pairwise.nil, fun _ => List.Pairwise.nil⟩
  | some leftmost =>
      have hkey : ∀ u ∈ ts, (updateVruntimeRunq k t).vruntime u =
          k.vruntime leftmost - k.vruntime leftmost % (k.se u).priority := by
        intro u hu
        rw [vruntime, updateVruntimeRunq_eq h, hq]
        simp only [hts.subset hu, true_or, if_true]
        exact normal_vruntime (h.entity u) (h.vruntime_lt leftmost)
      have hle : ∀ u : τ, k.vruntime leftmost % (k.se u).priority ≤ k.vruntime leftmost :=
        fun u => Nat.mod_le _ _
      unfold RoundsInOrder
      rw [hq]
      simp only [Option.some.injEq, forall_eq']
      apply List.Pairwise.iff_of_mem
      intro u v hu hv
      rw [hkey u hu, hkey v hv]
      have := hle u
      have := hle v
      omega

theorem enqueueSe_ready {k : Kernel τ} (h : Ready k) {t : τ} (ht : t ∉ k.queue) :
    Ready (enqueueSe b k t) := by
  refine ⟨?_, enqueueSe_leftmost b h.nodup ht h.cached, h.entity, h.cfs⟩
  exact (Balancer.perm_insert h.nodup ht).nodup_iff.mpr (List.nodup_cons.mpr ⟨ht, h.nodup⟩)

theorem dequeueSe_ready {k : Kernel τ} (h : Ready k) {t : τ} (ht : t ∈ k.queue) :
    Ready (dequeueSe b k t) := by
  refine ⟨?_, dequeueSe_leftmost b h.nodup ht h.cached, h.entity, h.cfs⟩
  rw [dequeueSe_queue b h.nodup ht]
  exact h.nodup.erase t

/-- Inserting an entity does not change whether the queue is in order. -/
theorem sorted_enqueueSe_iff {k : Kernel τ} (h : Ready k) {t : τ} (ht : t ∉ k.queue) :
    Sorted (enqueueSe b k t) ↔ Sorted k := by
  unfold Sorted
  rw [enqueueSe_queue b h.nodup ht]
  apply BinTree.pairwise_link k.vruntime
  · exact fun u hu => of_decide_eq_true hu
  · exact fun u hu => (Nat.not_le.mp (of_decide_eq_false hu)).le
  · exact fun u v huv hu => decide_eq_true ((of_decide_eq_true hu).trans huv)

theorem enqueueSeToRunq_ready {k : Kernel τ} (h : Ready k) {t : τ} (ht : t ∉ k.queue) :
    Ready (enqueueSeToRunq b k t) := by
  have hs := wakeState_sameSched k t
  apply enqueueSe_ready b (updateVruntimeRunq_ready (SameSched.ready hs h) t)
  rwa [updateVruntimeRunq_queue, hs.queue]

theorem sorted_enqueueSeToRunq_iff {k : Kernel τ} (h : Ready k) {t : τ} (ht : t ∉ k.queue) :
    Sorted (enqueueSeToRunq b k t) ↔ RoundsInOrder k k.queue := by
  have hs := wakeState_sameSched k t
  have hready := SameSched.ready hs h
  have hqueue := (updateVruntimeRunq_queue (wakeState k t) t).trans hs.queue
  rw [enqueueSeToRunq, sorted_enqueueSe_iff b (updateVruntimeRunq_ready hready t) (hqueue ▸ ht),
    Sorted, hqueue, ← hs.queue, sorted_renormed_iff hready t (List.Sublist.refl _),
    SameSched.roundsInOrder hs]

theorem dequeueSeToWq_ready {k : Kernel τ} (h : Ready k) {t : τ} (ht : t ∈ k.queue) :
    Ready (dequeueSeToWq b k t) := by
  have hs := sleepState_sameSched k t
  apply dequeueSe_ready b (updateVruntimeRunq_ready (SameSched.ready hs h) t)
  rwa [updateVruntimeRunq_queue, hs.queue]

theorem sorted_dequeueSeToWq_iff {k : Kernel τ} (h : Ready k) {t : τ} (ht : t ∈ k.queue) :
    Sorted (dequeueSeToWq b k t) ↔ RoundsInOrder k (k.queue.erase t) := by
  have hs := sleepState_sameSched k t
  have hready := SameSched.ready hs h
  have hqueue := (updateVruntimeRunq_queue (sleepState k t) t).trans hs.queue
  have hnd := (updateVruntimeRunq_ready hready t).nodup
  rw [dequeueSeToWq, Sorted, dequeueSe_queue b hnd (hqueue ▸ ht), hqueue,
    ← SameSched.roundsInOrder hs, ← sorted_renormed_iff hready t]
  · rfl
  · rw [hs.queue]
    exact List.erase_sublist

theorem updateCurrent_ready {k : Kernel τ} (h : Ready k) (elapsed : ℕ) :
    Ready (updateCurrent k elapsed) ∧ (updateCurrent k elapsed).queue = k.queue ∧
      (updateCurrent k elapsed).current = k.current ∧
      ∀ t, (updateCurrent k elapsed).vruntime t =
        if t = k.current then charged k else k.vruntime t := by
  have hok := h.entity k.current
  have hkey : ∀ t, (updateCurrent k elapsed).se t =
      if t = k.current then
        { k.se k.current with
          jiffiesConsumed := u32 ((k.se k.current).jiffiesConsumed + 1)
          ticksConsumed := ((k.se k.current).ticksConsumed + elapsed) % 2 ^ 64
          jiffiesVruntime := charged k }
      else k.se t := by
    intro t
    rw [updateCurrent, h.cfs]
    by_cases ht : t = k.current
    · rw [if_pos ht, ht]
      exact setSe_self ..
    · rw [if_neg ht]
      exact setSe_of_ne k _ ht
  have hqueue : (updateCurrent k elapsed).queue = k.queue := by
    rw [updateCurrent, h.cfs]
    rfl
  refine ⟨⟨hqueue ▸ h.nodup, ?_, fun t => ?_, fun t => ?_⟩, hqueue, ?_, fun t => ?_⟩
  · rw [hqueue, ← h.cached, updateCurrent, h.cfs]
    rfl
  · rw [hkey]
    split
    · exact ⟨hok.shift, hok.priority, hok.dvd_u32_mul _, u32_lt _⟩
    · exact h.entity t
  · rw [← h.cfs t, updateCurrent, h.cfs k.current]
    by_cases ht : t = k.current
    · rw [ht]
      simp [setSe]
    · simp [setSe, setTask_of_ne k _ ht]
  · rw [updateCurrent, h.cfs]
    rfl
  · rw [vruntime, hkey]
    split <;> rfl

/-- `update_se` with two entities queued: the queue is in order afterwards exactly when the part
behind the leftmost entity was. -/
theorem updateSe_spec {k : Kernel τ} (h : Ready k) {t u : τ} {us : List τ}
    (hq : k.queue = t :: u :: us) :
    ∃ k', updateSe b k = some k' ∧ Ready k' ∧ k'.vruntime = k.vruntime ∧
      k'.queue.Perm k.queue ∧
      (Sorted k' ↔ (u :: us).Pairwise fun a c => k.vruntime a ≤ k.vruntime c) := by
  have hcached : k.runq.rbLeftmost = some t := by rw [h.cached, hq]; rfl
  have hnext : k.runq.root.next t = some u := BinTree.next_head hq
  have ht : t ∈ k.queue := hq ▸ List.mem_cons_self
  have hdeq := dequeueSe_ready b h ht
  have hdq : (dequeueSe b k t).queue = u :: us := by
    rw [dequeueSe_queue b h.nodup ht, hq, List.erase_cons_head]
  have htdq : t ∉ (dequeueSe b k t).queue := by
    rw [hdq]
    have hnd := h.nodup
    rw [hq] at hnd
    exact (List.nodup_cons.mp hnd).1
  rw [updateSe, hcached]
  by_cases hlt : k.vruntime u < k.vruntime t
  · refine ⟨enqueueSe b (dequeueSe b k t) t, ?_, enqueueSe_ready b hdeq htdq, rfl, ?_, ?_⟩
    · simp only [Option.map_some, hnext, if_pos hlt]
    · rw [hq, ← hdq]
      exact Balancer.perm_insert hdeq.nodup htdq
    · rw [sorted_enqueueSe_iff b hdeq htdq, Sorted, hdq]
      rfl
  · refine ⟨k, ?_, h, rfl, List.Perm.refl _, ?_⟩
    · simp only [Option.map_some, hnext, if_neg hlt]
    · rw [Sorted, hq, List.pairwise_cons]
      refine and_iff_right_of_imp fun htail a ha => ?_
      rcases List.mem_cons.mp ha with rfl | ha
      · exact Nat.not_lt.mp hlt
      · exact (Nat.not_lt.mp hlt).trans (List.rel_of_pairwise_cons htail ha)

/-- Replacing one key of an ordered sequence keeps it in order exactly when the new key fits. -/
theorem pairwise_update_iff (key key' : τ → ℕ) (c : τ) {q : List τ} (hnd : q.Nodup)
    (hkey : ∀ t, t ≠ c → key' t = key t) (hq : q.Pairwise fun t u => key t ≤ key u) :
    (q.Pairwise fun t u => key' t ≤ key' u) ↔ ∀ ts us, q = ts ++ c :: us →
      (∀ t ∈ ts, key t ≤ key' c) ∧ ∀ u ∈ us, key' c ≤ key u := by
  by_cases hc : c ∈ q
  · obtain ⟨ts, us, rfl⟩ := List.append_of_mem hc
    have hts : ∀ t ∈ ts, t ≠ c := by
      rintro t ht rfl
      exact List.disjoint_of_nodup_append hnd ht List.mem_cons_self
    have hus : ∀ u ∈ us, u ≠ c := by
      rintro u hu rfl
      exact (List.nodup_cons.mp hnd.of_append_right).1 hu
    constructor
    · intro h ts' us' he
      obtain ⟨-, h2, h12⟩ := List.pairwise_append.mp (he ▸ h)
      have hmem : ∀ t ∈ ts', t ≠ c := by
        rintro t ht rfl
        exact List.disjoint_of_nodup_append (he ▸ hnd) ht List.mem_cons_self
      have hmem' : ∀ u ∈ us', u ≠ c := by
        rintro u hu rfl
        exact (List.nodup_cons.mp (he ▸ hnd).of_append_right).1 hu
      refine ⟨fun t ht => ?_, fun u hu => ?_⟩
      · rw [← hkey t (hmem t ht)]
        exact h12 t ht c List.mem_cons_self
      · rw [← hkey u (hmem' u hu)]
        exact List.rel_of_pairwise_cons h2 hu
    · intro h
      obtain ⟨hlo, hhi⟩ := h ts us rfl
      obtain ⟨h1, h2, h12⟩ := List.pairwise_append.mp hq
      have hsub : ∀ {l : List τ}, (∀ t ∈ l, t ≠ c) → l.Pairwise (fun t u => key t ≤ key u) →
          l.Pairwise fun t u => key' t ≤ key' u := by
        intro l hl hp
        refine hp.imp_of_mem fun {t u} ht hu htu => ?_
        rw [hkey t (hl t ht), hkey u (hl u hu)]
        exact htu
      refine List.pairwise_append.mpr ⟨hsub hts h1, ?_, fun t ht u hu => ?_⟩
      · refine List.pairwise_cons.mpr ⟨fun u hu => ?_, hsub hus (List.pairwise_cons.mp h2).2⟩
        rw [hkey u (hus u hu)]
        exact hhi u hu
      · rw [hkey t (hts t ht)]
        rcases List.mem_cons.mp hu with rfl | hu
        · exact hlo t ht
        · rw [hkey u (hus u hu)]
          exact h12 t ht u (List.mem_cons_of_mem _ hu)
  · refine ⟨fun _ ts us he => absurd (he ▸ by simp) hc, fun _ => ?_⟩
    refine hq.imp_of_mem fun {t u} ht hu htu => ?_
    rw [hkey t fun he => hc (he ▸ ht), hkey u fun he => hc (he ▸ hu)]
    exact htu

theorem tick_spec {k : Kernel τ} (h : Ready k) (hs : Sorted k) (hlen : 2 ≤ k.queue.length)
    (elapsed : ℕ) :
    ∃ k', tick b k elapsed = some k' ∧ Ready k' ∧ (Sorted k' ↔ ChargesInOrder k) ∧
      k'.queue.head? = some k'.current := by
  obtain ⟨t, u, us, hq⟩ : ∃ t u us, k.queue = t :: u :: us := by
    match hq : k.queue, hlen with
    | t :: u :: us, _ => exact ⟨t, u, us, rfl⟩
  obtain ⟨hready, hqueue, -, hkey⟩ := updateCurrent_ready h elapsed
  obtain ⟨k', hk', hready', hv, hperm, hsorted⟩ := updateSe_spec b hready (hqueue.trans hq)
  have hne : k'.queue ≠ [] := by
    intro he
    rw [he, hqueue, hq] at hperm
    exact List.cons_ne_nil _ _ hperm.nil_eq.symm
  obtain ⟨c, cs, hc⟩ := List.exists_cons_of_ne_nil hne
  have hcached : k'.runq.rbLeftmost = some c := by rw [hready'.cached, hc]; rfl
  refine ⟨{ k' with current := c }, ?_, ⟨hready'.nodup, hready'.cached, hready'.entity,
    hready'.cfs⟩, ?_, by rw [queue] at hc ⊢; rw [hc]; rfl⟩
  · rw [tick, hk', Option.bind_some, schedule, hcached]
    rfl
  · have htail : k.queue.tail = u :: us := by rw [hq]; rfl
    have hnd := h.nodup
    rw [hq] at hnd
    rw [Sorted, hq] at hs
    have hiff := pairwise_update_iff k.vruntime (updateCurrent k elapsed).vruntime
      k.current (List.nodup_cons.mp hnd).2 (fun t ht => by rw [hkey, if_neg ht]) (List.pairwise_cons.mp hs).2
    rw [ChargesInOrder, htail]
    refine hsorted.trans (hiff.trans ?_)
    rw [hkey, if_pos rfl]

theorem rqStep_ready {k k' : Kernel τ} {i : RqStep τ} (h : Ready k) (hs : Sorted k)
    (hk : rqStep b k i = some k') : Ready k' ∧ (Sorted k' ↔ Keeps k i) := by
  cases i with
  | enqueue t =>
      simp only [rqStep] at hk
      split_ifs at hk with ht
      cases hk
      exact ⟨enqueueSeToRunq_ready b h ht, sorted_enqueueSeToRunq_iff b h ht⟩
  | dequeue t =>
      simp only [rqStep] at hk
      split_ifs at hk with ht
      cases hk
      exact ⟨dequeueSeToWq_ready b h ht, sorted_dequeueSeToWq_iff b h ht⟩
  | tick elapsed =>
      simp only [rqStep] at hk
      split_ifs at hk with hlen
      obtain ⟨k'', hk'', hready, hsorted, -⟩ := tick_spec b h hs hlen elapsed
      obtain rfl := Option.some.inj (hk''.symm.trans hk)
      exact ⟨hready, hsorted⟩

theorem initRq_ready {k : Kernel τ} (h : Start k) : Ready (initRq b k) ∧ Sorted (initRq b k) := by
  let k₀ : Kernel τ := { k with
    runq := { root := .nil, rbLeftmost := some k.idleTask, prioritySum := 0, cfsTaskNum := 0 } }
  have hs := wakeState_sameSched k₀ k.idleTask
  have hse := updateVruntimeRunq_seOnly (wakeState k₀ k.idleTask) k.idleTask
  obtain ⟨hqueue, hcached⟩ := initRq_queue b k
  refine ⟨⟨?_, ?_, fun t => ?_, fun t => ?_⟩, ?_⟩
  · rw [hqueue]
    exact List.nodup_singleton _
  · rw [hqueue, hcached]
    rfl
  · exact updateVruntimeRunq_ok (fun u => hs.se u ▸ h.entity u) k.idleTask t
  · change ((updateVruntimeRunq (wakeState k₀ k.idleTask) k.idleTask).task t).type = _
    rw [hse.task t]
    exact (hs.type t).trans (h.cfs t)
  · rw [Sorted, hqueue]
    exact List.pairwise_singleton _ _

theorem picksLeast_of_keeps {k k' : Kernel τ} {i : RqStep τ} (h : Ready k) (hs : Sorted k)
    (hc : Keeps k i) (hk : rqStep b k i = some k') : PicksLeast b k i := by
  cases i with
  | enqueue t => trivial
  | dequeue t => trivial
  | tick elapsed =>
      simp only [rqStep] at hk
      split_ifs at hk with hlen
      intro m hm
      obtain ⟨n, hn, -, hsorted, hhead⟩ := tick_spec b h hs hlen elapsed
      obtain rfl := Option.some.inj (hn.symm.trans hm)
      have hsort := hsorted.mpr hc
      obtain ⟨ts, hts⟩ := List.head?_eq_some_iff.mp hhead
      rw [Sorted, hts] at hsort
      rw [hts]
      refine ⟨List.mem_cons_self, fun t ht => ?_⟩
      rcases List.mem_cons.mp ht with rfl | ht
      · exact le_rfl
      · exact List.rel_of_pairwise_cons hsort ht

/-- From `init_rq`, the queue is in order in every state and every tick selects an entity of least
vruntime, exactly when every step meets `Keeps`. -/
theorem queue_sorted_iff {k : Kernel τ} (h : Start k) (is : List (RqStep τ)) :
    (Machine.Always (rqStep b) Sorted (initRq b k) is ∧
      Machine.StepsMeet (rqStep b) (PicksLeast b) (initRq b k) is) ↔
      Machine.StepsMeet (rqStep b) Keeps (initRq b k) is := by
  have hstep : ∀ k i k', Ready k ∧ Sorted k → Keeps k i → rqStep b k i = some k' →
      Ready k' ∧ Sorted k' := by
    intro k i k' hk hc hk'
    obtain ⟨hready, hsorted⟩ := rqStep_ready b hk.1 hk.2 hk'
    exact ⟨hready, hsorted.mpr hc⟩
  have hiff : Machine.Always (rqStep b) Sorted (initRq b k) is ↔
      Machine.StepsMeet (rqStep b) Keeps (initRq b k) is := by
    apply Machine.always_iff_stepsMeet fun k => Ready k ∧ Sorted k
    · exact fun k hk => hk.2
    · exact hstep
    · exact fun k i k' hk hk' hs => (rqStep_ready b hk.1 hk.2 hk').2.mp hs
    · exact initRq_ready b h
  refine ⟨fun hrun => hiff.mp hrun.1, fun hrun => ⟨hiff.mpr hrun, ?_⟩⟩
  exact Machine.stepsMeet_of_stepsMeet (fun k => Ready k ∧ Sorted k) hstep
    (fun k i k' hk hc hk' => picksLeast_of_keeps b hk.1 hk.2 hc hk') (initRq_ready b h) hrun

theorem bootKernel_start : Start bootKernel := by
  have hidle : (initIdletask rawTask 0 : Task ℕ).se.Ok :=
    ⟨by decide, by decide, by decide, by decide⟩
  have hfork : (forkTask rawTask 1 .cfsTask 1 0 0 : Task ℕ).se.Ok :=
    ⟨by decide, by decide, by decide, by decide⟩
  refine ⟨fun t => ?_, fun t => ?_⟩
  · change (if t = 0 then initIdletask rawTask 0 else forkTask rawTask t .cfsTask 1 0 0).se.Ok
    split
    · exact hidle
    · exact hfork
  · change (if t = 0 then initIdletask rawTask 0 else forkTask rawTask t .cfsTask 1 0 0).type = _
    split <;> rfl

theorem queue_sorted_first_task :
    Machine.Always (rqStep (Balancer.plain ℕ)) Sorted (initRq (Balancer.plain ℕ) bootKernel)
        [.enqueue 1, .tick 1000] ∧
      Machine.StepsMeet (rqStep (Balancer.plain ℕ)) (PicksLeast (Balancer.plain ℕ))
        (initRq (Balancer.plain ℕ) bootKernel) [.enqueue 1, .tick 1000] := by
  have hinit : (initRq (Balancer.plain ℕ) bootKernel).queue = [0] := by decide +kernel
  have hrun : (rqStep (Balancer.plain ℕ) (initRq (Balancer.plain ℕ) bootKernel)
      (.enqueue 1)).map queue = some [1, 0] := by decide +kernel
  refine (queue_sorted_iff (Balancer.plain ℕ) bootKernel_start _).mpr ?_
  intro k hk
  refine ⟨fun leftmost _ => ?_, fun _ _ => ⟨fun ts us he => ?_, trivial⟩⟩
  · rw [hinit]
    exact List.pairwise_singleton _ _
  · rw [hk] at hrun
    rw [Option.some.inj hrun] at he
    obtain ⟨rfl, -, rfl⟩ : ts = [] ∧ 0 = k.current ∧ us = [] := by
      cases ts with
      | nil => simpa using he
      | cons t ts => simp at he
    exact ⟨nofun, nofun⟩

/-- A wakeup after two ticks takes the idle task's vruntime back below that of the task in front
of it. -/
theorem queue_unsorted_after_wakeup :
    ∃ k, Machine.exec (rqStep (Balancer.plain ℕ)) (initRq (Balancer.plain ℕ) bootKernel)
        [.enqueue 1, .tick 1000, .tick 1000, .enqueue 2] = some k ∧ ¬ Sorted k := by
  have hrun : (Machine.exec (rqStep (Balancer.plain ℕ)) (initRq (Balancer.plain ℕ) bootKernel)
      [.enqueue 1, .tick 1000, .tick 1000, .enqueue 2]).map
      (fun k => k.queue.map k.vruntime) = some [1, 0, 1] := by decide +kernel
  obtain ⟨k, hk, hv⟩ := Option.map_eq_some_iff.mp hrun
  refine ⟨k, hk, fun hs => ?_⟩
  have hmap : (k.queue.map k.vruntime).Pairwise (· ≤ ·) := List.pairwise_map.mpr hs
  rw [hv] at hmap
  exact absurd hmap (by decide)

end Slos.RunQueueOrder
