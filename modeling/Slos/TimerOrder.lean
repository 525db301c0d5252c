import Slos.Machine
import Slos.TimerTree

/-!
# Order of the timer tree

A run creates timers at any time between two interrupts, takes timer interrupts with the load
register as the elapsed time, and lets tasks change everything but the timers in between. An
interrupt subtracts the load register from every other timer, so a timer inserted mid-period with
fewer ticks than the register would underflow unless it is the leftmost one and its task is done.
`Timely` is the condition that keeps this from happening.
-/

namespace Slos.TimerOrder
open Word SearchTree

variable {τ : Type}

inductive TimerStep (τ : Type)
  | createRt (rtTask : τ) (msec : ℕ)
  | createOneshot (oneshotTask : τ) (tc : ℕ)
  | irq
  | task (k : Kernel τ)

def slot (s : Timers τ) : TimerId := .oneshot s.oneshotTimerIdx

/-- In order, and the cached leftmost timer is one of least tick count. -/
def Ordered (s : Timers τ) : Prop :=
  (s.queue.Pairwise fun t u => s.tc t ≤ s.tc u) ∧
    ∃ t ∈ s.queue, s.rbLeftmost = some t ∧ ∀ u ∈ s.queue, s.tc t ≤ s.tc u

/-- Every subtraction `tc - elapsed` of the next interrupt stays above zero. -/
def NoUnderflow (k : Kernel τ) : TimerStep τ → Prop
  | .irq => ∀ t ∈ k.timers.queue,
      ¬ (k.timers.rbLeftmost = some t ∧ done k (k.timers.timer t).pt ≠ 0) →
      k.timers.load ≤ k.timers.tc t
  | _ => True

/-- A new timer has at least the ticks in the load register, or none linked has fewer. -/
def FewShort (s : Timers τ) (tc : ℕ) : Prop := s.load ≤ tc ∨ ∀ u ∈ s.queue, s.load ≤ s.tc u

/-- At most one timer shorter than the load register per period, done when the interrupt comes, and
no oneshot slot taken again while its timer is linked. -/
def Timely (k : Kernel τ) : TimerStep τ → Prop
  | .createRt _ msec => FewShort k.timers (msecToTc k.timers.ticksPerSec msec)
  | .createOneshot _ tc => FewShort k.timers tc ∧ slot k.timers ∉ k.timers.queue
  | .irq => ∀ t ∈ k.timers.rbLeftmost,
      k.timers.load ≤ k.timers.tc t ∨ done k (k.timers.timer t).pt ≠ 0
  | .task _ => True

instance (s : Timers τ) (tc : ℕ) : Decidable (FewShort s tc) := inferInstanceAs (Decidable (_ ∨ _))

instance (k : Kernel τ) : ∀ i, Decidable (Timely k i)
  | .createRt _ _ => inferInstanceAs (Decidable (FewShort _ _))
  | .createOneshot _ _ => inferInstanceAs (Decidable (_ ∧ _))
  | .irq => inferInstanceAs (Decidable (∀ t ∈ k.timers.rbLeftmost, _))
  | .task _ => isTrue trivial

structure Armed (s : Timers τ) : Prop where
  nodup : s.queue.Nodup
  cached : s.rbLeftmost = s.queue.head?
  sorted : s.queue.Pairwise fun t u => s.tc t ≤ s.tc u
  bounded : ∀ t ∈ s.queue, s.tc t < size ∧ (s.timer t).intvl < size
  ticks : s.ticksPerSec < size
  fresh : ∀ n, .rt n ∈ s.queue → n < s.rtCreated
  sched : .sched ∈ s.queue
  schedType : (s.timer .sched).type = .schedTimer
  short : ∀ t ∈ s.queue, ∀ u ∈ s.queue, t ≠ u → s.load ≤ s.tc t ∨ s.load ≤ s.tc u

/-- The tree holds the sched timer alone and the load register its tick count. -/
structure Start (s : Timers τ) : Prop where
  root : s.queue = [.sched]
  cached : s.rbLeftmost = some .sched
  load : s.load = s.tc .sched
  bounded : s.tc .sched < size ∧ (s.timer .sched).intvl < size
  ticks : s.ticksPerSec < size
  schedType : (s.timer .sched).type = .schedTimer

theorem start_armed {s : Timers τ} (h : Start s) : Armed s := by
  have hmem : ∀ t ∈ s.queue, t = .sched := by
    intro t ht
    rw [h.root] at ht
    exact List.mem_singleton.mp ht
  refine ⟨?_, ?_, ?_, fun t ht => hmem t ht ▸ h.bounded, h.ticks, fun n hn => ?_, ?_,
    h.schedType,
    fun t ht u hu hne => absurd ((hmem t ht).trans (hmem u hu).symm) hne⟩
  · rw [h.root]
    exact List.nodup_singleton _
  · rw [h.root]
    exact h.cached
  · rw [h.root]
    exact List.pairwise_singleton _ _
  · cases hmem _ hn
  · rw [h.root]
    exact List.mem_singleton_self _

theorem Armed.leftmost {s : Timers τ} (h : Armed s) :
    ∃ t ts, s.queue = t :: ts ∧ s.rbLeftmost = some t ∧ ∀ u ∈ s.queue, s.tc t ≤ s.tc u := by
  obtain ⟨t, ts, hq⟩ := List.exists_cons_of_ne_nil (List.ne_nil_of_mem h.sched)
  refine ⟨t, ts, hq, by rw [h.cached, hq]; rfl, fun u hu => ?_⟩
  have hsorted := h.sorted
  rw [hq] at hsorted hu
  rcases List.mem_cons.mp hu with rfl | hu
  · exact le_rfl
  · exact List.rel_of_pairwise_cons hsorted hu

theorem Armed.ordered {s : Timers τ} (h : Armed s) : Ordered s := by
  obtain ⟨t, ts, hq, hcached, hle⟩ := h.leftmost
  exact ⟨h.sorted, t, hq ▸ List.mem_cons_self, hcached, hle⟩

/-- Only the leftmost timer can be below the load register. -/
theorem Armed.load_le {s : Timers τ} (h : Armed s) {t : TimerId} (ht : t ∈ s.queue)
    (hne : s.rbLeftmost ≠ some t) : s.load ≤ s.tc t := by
  obtain ⟨u, us, hq, hcached, hle⟩ := h.leftmost
  have hut : u ≠ t := fun he => hne (he ▸ hcached)
  rcases h.short u (hq ▸ List.mem_cons_self) t ht hut with hu | ht'
  · exact hu.trans (hle t ht)
  · exact ht'

theorem Armed.noUnderflow {k : Kernel τ} (h : Armed k.timers) {i : TimerStep τ}
    (hc : Timely k i) : NoUnderflow k i := by
  cases i with
  | irq =>
      intro t ht hsub
      by_cases hl : k.timers.rbLeftmost = some t
      · exact (hc t hl).resolve_right fun hd => hsub ⟨hl, hd⟩
      · exact h.load_le ht hl
  | _ => trivial

variable (bt : Balancer TimerId)

theorem Armed.linked {s : Timers τ} (h : Armed s) : Linked s :=
  ⟨h.nodup, h.cached, h.bounded, h.ticks, h.fresh⟩

theorem insert_sorted {s : Timers τ} (h : Linked s) (hsorted : s.queue.Pairwise fun t u => s.tc t ≤ s.tc u)
    {t : TimerId} (ht : t ∉ s.queue) (p : TimerStruct τ) (n : ℕ) :
    (insertTimer bt { s.setTimer t p with rtCreated := n } t).queue.Pairwise fun u v =>
      (s.setTimer t p).tc u ≤ (s.setTimer t p).tc v := by
  have htc : ∀ u ∈ s.queue, (s.setTimer t p).tc u = s.tc u := fun u hu =>
    congrArg TimerStruct.tc (setTimer_queued ht hu p)
  apply (insertTimer_sorted_iff bt (s := { s.setTimer t p with rtCreated := n }) h.nodup ht).mpr
  refine hsorted.imp_of_mem fun {u v} hu hv huv => ?_
  change (s.setTimer t p).tc u ≤ (s.setTimer t p).tc v
  rwa [htc u hu, htc v hv]

/-- A new timer goes in. -/
theorem insert_armed {s : Timers τ} (h : Armed s) {t : TimerId} (ht : t ∉ s.queue)
    {p : TimerStruct τ} (hp : p.tc < size ∧ p.intvl < size) (hshort : FewShort s p.tc)
    {n : ℕ} (hn : s.rtCreated ≤ n) (hfresh : ∀ m, t = .rt m → m < n) :
    Armed (insertTimer bt { s.setTimer t p with rtCreated := n } t) := by
  let s₁ : Timers τ := { s.setTimer t p with rtCreated := n }
  have hother : ∀ u ∈ s.queue, s₁.timer u = s.timer u := fun u hu => setTimer_queued ht hu p
  have htc : ∀ u ∈ s.queue, s₁.tc u = s.tc u := fun u hu => by rw [Timers.tc, hother u hu, Timers.tc]
  have htself : s₁.tc t = p.tc := congrArg TimerStruct.tc (Function.update_self ..)
  obtain ⟨hlinked, hperm⟩ := insert_linked bt h.linked ht hp hn hfresh
  have hmem : ∀ u ∈ (insertTimer bt s₁ t).queue, u = t ∨ u ∈ s.queue := by
    intro u hu
    exact List.mem_cons.mp (hperm.mem_iff.mp hu)
  refine ⟨hlinked.nodup, hlinked.cached, ?_, hlinked.bounded, hlinked.ticks, hlinked.fresh,
    hperm.mem_iff.mpr (List.mem_cons_of_mem _ h.sched), ?_, fun u hu v hv huv => ?_⟩
  · exact insert_sorted bt h.linked h.sorted ht p n
  · exact (congrArg TimerStruct.type (hother _ h.sched)).trans h.schedType
  · change s.load ≤ s₁.tc u ∨ s.load ≤ s₁.tc v
    rcases hmem u hu with hu' | hu' <;> rcases hmem v hv with hv' | hv'
    · exact absurd (hu'.trans hv'.symm) huv
    · rw [hu', htself, htc v hv']
      exact hshort.imp_right fun hall => hall v hv'
    · rw [hv', htself, htc u hu']
      exact hshort.symm.imp_left fun hall => hall u hu'
    · rw [htc u hu', htc v hv']
      exact h.short u hu' v hv' huv

theorem delete_armed {s : Timers τ} (h : Armed s) {t : TimerId} (ht : t ∈ s.queue)
    (hne : t ≠ .sched) : Armed (delTimer bt s t) := by
  have hq := delTimer_queue bt h.nodup ht
  obtain ⟨hlinked, hsub⟩ := delete_linked bt h.linked ht
  refine ⟨hlinked.nodup, hlinked.cached, ?_, hlinked.bounded, hlinked.ticks, hlinked.fresh, ?_,
    h.schedType, fun u hu v hv huv => h.short u (hsub u hu) v (hsub v hv) huv⟩
  · rw [hq]
    exact h.sorted.sublist List.erase_sublist
  · rw [hq]
    exact (List.mem_erase_of_ne hne.symm).mpr h.sched

/-- What a timer gets from `update_timer_tree` when nothing underflows. -/
theorem updatedTc_le {s : Timers τ} {d : τ → ℕ} {t u : TimerId} (ht : s.rbLeftmost ≠ some t)
    (hu : s.rbLeftmost ≠ some u) (hload : s.load ≤ s.tc t) (htu : s.tc t ≤ s.tc u)
    (hlt : s.tc u < size) : updatedTc d s.load s t ≤ updatedTc d s.load s u := by
  rw [updatedTc, if_neg fun h => ht h.1, updatedTc, if_neg fun h => hu h.1]
  exact remaining_mono s hload htu hlt

/-- The tree update keeps the order where no count behind the leftmost timer underflows; that timer itself is
put in again by its new count. -/
theorem update_sorted {s s' : Timers τ} (h : Linked s)
    (hsorted : s.queue.Pairwise fun t u => s.tc t ≤ s.tc u)
    (hload : ∀ t ∈ s.queue, s.rbLeftmost ≠ some t → s.load ≤ s.tc t) {d : τ → ℕ}
    (hs : updateTimerTree bt d s s.load = some s') : s'.queue.Pairwise fun t u => s'.tc t ≤ s'.tc u := by
  obtain ⟨l, s₁, hl, honly, htc, rfl⟩ := updateTimerTree_spec bt h.nodup h.cached hs
  obtain ⟨ts, hq⟩ := List.head?_eq_some_iff.mp (h.cached.symm.trans hl)
  have hq₁ : s₁.queue = l :: ts := (congrArg BinTree.inorder honly.root).trans hq
  have hnd := h.nodup
  rw [hq] at hnd hsorted
  obtain ⟨hlts, hnd'⟩ := List.nodup_cons.mp hnd
  have hl₁ : l ∈ s₁.queue := hq₁ ▸ List.mem_cons_self
  have hdel : (delTimer bt s₁ l).queue = ts := by
    rw [delTimer_queue bt (hq₁ ▸ hnd) hl₁, hq₁, List.erase_cons_head]
  have hnd₂ : (delTimer bt s₁ l).queue.Nodup := hdel ▸ hnd'
  have hl₂ : l ∉ (delTimer bt s₁ l).queue := hdel ▸ hlts
  apply (insertTimer_sorted_iff bt hnd₂ hl₂).mpr
  rw [hdel]
  refine (List.pairwise_cons.mp hsorted).2.imp_of_mem fun {t u} ht hu htu => ?_
  have hin : ∀ {v}, v ∈ ts → v ∈ s.queue ∧ s.rbLeftmost ≠ some v := by
    intro v hv
    refine ⟨hq ▸ List.mem_cons_of_mem _ hv, fun he => hlts ?_⟩
    rwa [Option.some.inj (hl.symm.trans he)]
  obtain ⟨htq, hlt⟩ := hin ht
  obtain ⟨huq, hlu⟩ := hin hu
  change s₁.tc t ≤ s₁.tc u
  rw [htc, htc, if_pos htq, if_pos huq]
  exact updatedTc_le hlt hlu (hload t htq hlt) htu (h.bounded u huq).1

/-- The cached leftmost timer of an ordered tree has the least count. -/
theorem leftmost_least {s : Timers τ} (h : Linked s) (hsorted : s.queue.Pairwise fun t u => s.tc t ≤ s.tc u)
    {t : TimerId} (ht : s.rbLeftmost = some t) : ∀ u ∈ s.queue, s.tc t ≤ s.tc u := by
  obtain ⟨us, hus⟩ := List.head?_eq_some_iff.mp (h.cached.symm.trans ht)
  intro u hu
  rw [hus] at hsorted hu
  rcases List.mem_cons.mp hu with rfl | hu
  · exact le_rfl
  · exact List.rel_of_pairwise_cons hsorted hu

/-- An interrupt leaves every timer at or above the new load register. -/
theorem update_armed {s s' : Timers τ} (h : Armed s) {d : τ → ℕ}
    (hs : updateTimerTree bt d s s.load = some s') {pnt : TimerId}
    (hpnt : s'.rbLeftmost = some pnt) :
    Armed { s' with load := s'.tc pnt } ∧ s'.queue.Perm s.queue ∧
      ∀ t, (s'.timer t).type = (s.timer t).type := by
  obtain ⟨hlinked, hperm, -, htimer⟩ := update_linked bt h.linked hs
  have hsort := update_sorted bt h.linked h.sorted (fun t ht hne => h.load_le ht hne) hs
  have hleast := leftmost_least hlinked hsort hpnt
  have htype : ∀ t, (s'.timer t).type = (s.timer t).type := fun t => by rw [htimer t]
  exact ⟨⟨hlinked.nodup, hlinked.cached, hsort, hlinked.bounded, hlinked.ticks, hlinked.fresh,
    hperm.mem_iff.mpr h.sched, (htype _).trans h.schedType, fun t ht _ _ _ => Or.inl (hleast t ht)⟩,
    hperm, htype⟩

theorem setPt_armed {s : Timers τ} (h : Armed s) (pct : TimerId) (t : τ) :
    Armed (s.setTimer pct { s.timer pct with pt := t }) := by
  have hlinked := setPt_linked h.linked pct t
  have htc : (s.setTimer pct { s.timer pct with pt := t }).tc = s.tc :=
    funext fun u => (setPt_timer s pct t u).1
  refine ⟨h.nodup, h.cached, ?_, hlinked.bounded, h.ticks, h.fresh, h.sched,
    (setPt_timer s pct t _).2.2.trans h.schedType, ?_⟩
  · rw [htc]
    exact h.sorted
  · rw [htc]
    exact h.short

variable [DecidableEq τ] (b : Balancer τ)

def timerStep (k : Kernel τ) : TimerStep τ → Option (Kernel τ)
  | .createRt t msec =>
      if 0 < msecToTc k.timers.ticksPerSec msec then
        some { k with timers := createRtTimer bt k.timers t msec }
      else none
  | .createOneshot t tc =>
      if 0 < tc ∧ tc < size then some { k with timers := createOneshotTimer bt k.timers t tc }
      else none
  | .irq => timerIrq b bt k
  | .task k' => some { k' with timers := k.timers }

theorem timerStep_armed {k k' : Kernel τ} {i : TimerStep τ} (h : Armed k.timers)
    (hc : Timely k i) (hk : timerStep bt b k i = some k') : Armed k'.timers := by
  cases i with
  | createRt t msec =>
      simp only [timerStep] at hk
      split_ifs at hk
      cases hk
      refine insert_armed bt h
        (p := { tc := _, intvl := _, pt := t, type := .realtimeTimer })
        (fun hmem => ?_) ⟨u32_lt _, u32_lt _⟩ hc (Nat.le_succ _) ?_
      · exact (h.fresh _ hmem).ne rfl
      · rintro m ⟨⟩
        exact Nat.lt_succ_self _
  | createOneshot t tc =>
      simp only [timerStep] at hk
      split_ifs at hk with htc
      cases hk
      have hins := insert_armed bt h hc.2
        (p := { tc := tc, intvl := tc, pt := t, type := .oneshotTimer }) ⟨htc.2, htc.2⟩ hc.1
        le_rfl (fun m hm => by cases hm)
      exact ⟨hins.nodup, hins.cached, hins.sorted, hins.bounded, hins.ticks, hins.fresh, hins.sched,
        hins.schedType, hins.short⟩
  | irq =>
      obtain ⟨pct, s, pnt, hpct, hs, hpnt, hcases⟩ := timerIrq_timers b bt hk
      obtain ⟨hs', hperm, htype⟩ := update_armed bt h hs hpnt
      rcases hcases with ⟨-, hk'⟩ | ⟨-, t, hk'⟩ | ⟨hone, hk'⟩
      · rw [hk']
        exact hs'
      · rw [hk']
        exact setPt_armed hs' pct t
      · obtain ⟨l, ts, hq, hl, -⟩ := h.leftmost
        obtain rfl := Option.some.inj (hl.symm.trans hpct)
        have hmem : l ∈ s.queue := hperm.mem_iff.mpr (hq ▸ List.mem_cons_self)
        rw [hk']
        refine delete_armed bt hs' hmem fun he => ?_
        rw [he, htype, h.schedType] at hone
        cases hone
  | task k₁ =>
      cases hk
      exact h

/-- In every run whose steps are all timely, no subtraction underflows and in every state the timer
tree is in order with a timer of least tick count as its leftmost. -/
theorem timers_ordered_of_timely {k : Kernel τ} (h : Start k.timers) (is : List (TimerStep τ))
    (hc : Machine.StepsMeet (timerStep bt b) Timely k is) :
    Machine.StepsMeet (timerStep bt b) NoUnderflow k is ∧
      Machine.Always (timerStep bt b) (fun k => Ordered k.timers) k is := by
  have hstep : ∀ (k : Kernel τ) i k', Armed k.timers → Timely k i →
      timerStep bt b k i = some k' → Armed k'.timers :=
    fun k i k' hk hc hk' => timerStep_armed bt b hk hc hk'
  constructor
  · exact Machine.stepsMeet_of_stepsMeet (fun k => Armed k.timers) hstep
      (fun k i k' hk hc _ => hk.noUnderflow hc) (start_armed h) hc
  · exact Machine.always_of_stepsMeet (fun k => Armed k.timers) (fun k hk => hk.ordered) hstep
      (start_armed h) hc

/-- The timers at boot, with the sched timer at 10 ms. -/
def bootTimers : Timers ℕ :=
  initTimer (createSchedTimer (Balancer.plain TimerId) (initTimertree bootKernel.timers) 0 10)
    333333343 0

def bootScheduled : Kernel ℕ :=
  { initRq (Balancer.plain ℕ) bootKernel with timers := bootTimers }

theorem bootTimers_start : Start bootScheduled.timers where
  root := by decide +kernel
  cached := by decide +kernel
  load := by decide +kernel
  bounded := by decide +kernel
  ticks := by decide +kernel
  schedType := by decide +kernel

theorem timers_ordered_long_delay :
    Machine.StepsMeet (timerStep (Balancer.plain TimerId) (Balancer.plain ℕ)) NoUnderflow
        bootScheduled [.createOneshot 1 5000000, .irq, .irq] ∧
      Machine.Always (timerStep (Balancer.plain TimerId) (Balancer.plain ℕ))
        (fun k => Ordered k.timers) bootScheduled [.createOneshot 1 5000000, .irq, .irq] :=
  timers_ordered_of_timely (Balancer.plain TimerId) (Balancer.plain ℕ) bootTimers_start
    [.createOneshot 1 5000000, .irq, .irq] (by decide +kernel)

/-- Two delays of a millisecond inside one period of the sched timer: the second timer wraps, and
the sched timer comes to stand behind it with fewer ticks. -/
theorem timers_unordered_short_delays :
    ∃ k k', Machine.exec (timerStep (Balancer.plain TimerId) (Balancer.plain ℕ)) bootScheduled
        [.createOneshot 1 325520, .createOneshot 2 325520] = some k ∧
      timerStep (Balancer.plain TimerId) (Balancer.plain ℕ) k .irq = some k' ∧
      ¬ NoUnderflow k .irq ∧ ¬ Ordered k'.timers := by
  have hrun : ((Machine.exec (timerStep (Balancer.plain TimerId) (Balancer.plain ℕ)) bootScheduled
      [.createOneshot 1 325520, .createOneshot 2 325520]).bind fun k =>
      (timerStep (Balancer.plain TimerId) (Balancer.plain ℕ) k .irq).map fun k' =>
      (k.timers.queue, k.timers.rbLeftmost, k.timers.load, k.timers.tc (.oneshot 1),
        k'.timers.queue.map k'.timers.tc)) =
      some ([.oneshot 0, .oneshot 1, .sched], some (.oneshot 0), 3333330, 325520,
        [4291959486, 325520]) := by
    decide +kernel
  obtain ⟨k, hk, hk'⟩ := Option.bind_eq_some_iff.mp hrun
  obtain ⟨k', hk', hvals⟩ := Option.map_eq_some_iff.mp hk'
  simp only [Prod.mk.injEq] at hvals
  obtain ⟨hq, hleft, hload, htc, htc'⟩ := hvals
  refine ⟨k, k', hk, hk', fun h => ?_, fun h => ?_⟩
  · have hle := h (.oneshot 1) (by simp [hq]) (by simp [hleft])
    rw [hload, htc] at hle
    exact absurd hle (by decide)
  · have hmap : (k'.timers.queue.map k'.timers.tc).Pairwise (· ≤ ·) := List.pairwise_map.mpr h.1
    rw [htc'] at hmap
    exact absurd hmap (by decide)

end Slos.TimerOrder
