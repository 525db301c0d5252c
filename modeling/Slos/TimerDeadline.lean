import Slos.TimerOrder

/-!
# The load register

An interrupt programs the load register from the timer that is leftmost after the tree update, and only then
takes an expired oneshot timer out of the tree. While no count underflows the tree stays in order, and the
register holds the nearest deadline if that timer is not the oneshot timer.
-/

namespace Slos.TimerDeadline
open Word SearchTree
open TimerOrder (TimerStep slot)

variable {τ : Type}

/-- The load register holds the least tick count of the linked timers. -/
def Nearest (s : Timers τ) : Prop := ∃ t ∈ s.queue, s.load = s.tc t ∧ ∀ u ∈ s.queue, s.tc t ≤ s.tc u

/-- Every timer behind the leftmost one has at least the ticks in the load register. -/
def BehindAbove (s : Timers τ) : Prop := ∀ u ∈ s.queue.tail, s.load ≤ s.tc u

/-- A leftmost oneshot timer has another timer behind it whose deadline comes before the one the oneshot timer is
put back with, with `MIN_TIME_INT` as the least time to either. A oneshot timer below the load register is put
back with its wrapped count, which no other exceeds. -/
def Overtaken (k : Kernel τ) : Prop :=
  match k.timers.queue with
  | [] => True
  | [l] => (k.timers.timer l).type ≠ .oneshotTimer
  | l :: h :: _ => (k.timers.timer l).type = .oneshotTimer →
      if done k (k.timers.timer l).pt ≠ 0 then
        max (k.timers.tc h) (k.timers.load + k.timers.minTimeInt) ≤ k.timers.load + (k.timers.timer l).intvl
      else k.timers.tc l < k.timers.load ∨
        k.timers.tc h ≤ max (k.timers.tc l) (k.timers.load + k.timers.minTimeInt)

/-- An interrupt underflows at most at the leftmost timer and finds it `Overtaken` if it is a oneshot timer, and
no oneshot slot is taken while its timer is linked. -/
def Reprograms (k : Kernel τ) : TimerStep τ → Prop
  | .createOneshot _ _ => slot k.timers ∉ k.timers.queue
  | .irq => BehindAbove k.timers ∧ Overtaken k
  | _ => True

instance (s : Timers τ) : Decidable (BehindAbove s) := inferInstanceAs (Decidable (∀ u ∈ s.queue.tail, _))

instance (k : Kernel τ) : Decidable (Overtaken k) := by
  unfold Overtaken
  split <;> infer_instance

instance (k : Kernel τ) : ∀ i, Decidable (Reprograms k i)
  | .createRt _ _ => isTrue trivial
  | .createOneshot _ _ => inferInstanceAs (Decidable (_ ∉ _))
  | .irq => inferInstanceAs (Decidable (BehindAbove k.timers ∧ Overtaken k))
  | .task _ => isTrue trivial

instance (s : Timers τ) : Decidable (Nearest s) := inferInstanceAs (Decidable (∃ t ∈ s.queue, _))

structure InOrder (s : Timers τ) : Prop where
  linked : Linked s
  sorted : s.queue.Pairwise fun t u => s.tc t ≤ s.tc u
  word : s.load < size

theorem BehindAbove.load_le {s : Timers τ} (h : BehindAbove s) (hl : Linked s) {t : TimerId} (ht : t ∈ s.queue)
    (hne : s.rbLeftmost ≠ some t) : s.load ≤ s.tc t := by
  rw [hl.cached] at hne
  cases hq : s.queue with
  | nil => exact absurd (hq ▸ ht) List.not_mem_nil
  | cons l us =>
      rw [hq] at ht hne
      refine h t ?_
      rw [hq]
      exact (List.mem_cons.mp ht).resolve_left fun he => hne (he ▸ rfl)

/-- The tick count of a timer after the next interrupt. -/
def tcAfter (k : Kernel τ) (t : TimerId) : ℕ := updatedTc (done k) k.timers.load k.timers t

variable {k k' : Kernel τ}

theorem remaining_eq_max (s : Timers τ) (tc elapsed : ℕ) :
    remaining s tc elapsed = max (usub tc elapsed) s.minTimeInt := by
  unfold remaining
  dsimp only
  split_ifs <;> omega

/-- In the counts before the interrupt: the second timer stands before the leftmost one afterwards. -/
theorem tcAfter_le_iff {l h : TimerId} (hleft : k.timers.rbLeftmost = some l) (hne : h ≠ l)
    (hload : k.timers.load ≤ k.timers.tc h) (hlt : k.timers.tc h < size) (hlt' : k.timers.tc l < size)
    (hword : k.timers.load < size) : tcAfter k h ≤ tcAfter k l ↔
      if done k (k.timers.timer l).pt ≠ 0 then
        max (k.timers.tc h) (k.timers.load + k.timers.minTimeInt) ≤ k.timers.load + (k.timers.timer l).intvl
      else k.timers.tc l < k.timers.load ∨
        k.timers.tc h ≤ max (k.timers.tc l) (k.timers.load + k.timers.minTimeInt) := by
  have hother : ¬ (k.timers.rbLeftmost = some h ∧ done k (k.timers.timer h).pt ≠ 0) := fun hc =>
    hne (Option.some.inj (hc.1.symm.trans hleft))
  have hh : tcAfter k h = max (k.timers.tc h - k.timers.load) k.timers.minTimeInt := by
    rw [tcAfter, updatedTc, if_neg hother, remaining_eq_max, usub_of_le hlt hload]
  rw [hh]
  by_cases hdone : done k (k.timers.timer l).pt ≠ 0
  · have hl : tcAfter k l = (k.timers.timer l).intvl := if_pos ⟨hleft, hdone⟩
    rw [hl, if_pos hdone]
    omega
  · have hl : tcAfter k l = max (usub (k.timers.tc l) k.timers.load) k.timers.minTimeInt := by
      rw [tcAfter, updatedTc, if_neg fun hc => hdone hc.2, remaining_eq_max]
    rw [hl, if_neg hdone]
    rcases Nat.lt_or_ge (k.timers.tc l) k.timers.load with hwrap | hle
    · rw [usub_of_lt hword hwrap]
      omega
    · rw [usub_of_le hlt' hle]
      omega

theorem start_inOrder {s : Timers τ} (h : TimerOrder.Start s) : InOrder s :=
  ⟨(TimerOrder.start_armed h).linked, (TimerOrder.start_armed h).sorted, h.load.trans_lt h.bounded.1⟩

variable [DecidableEq τ] (b : Balancer τ) (bt : Balancer TimerId)

/-- Timers with any tick count, also none. -/
def step (k : Kernel τ) : TimerStep τ → Option (Kernel τ)
  | .createRt t msec => some { k with timers := createRtTimer bt k.timers t msec }
  | .createOneshot t tc =>
      if tc < size then some { k with timers := createOneshotTimer bt k.timers t tc } else none
  | .irq => timerIrq b bt k
  | .task k' => some { k' with timers := k.timers }

/-- When an interrupt returns, the register holds the nearest deadline. -/
def NearestAfter (k : Kernel τ) : TimerStep τ → Prop
  | .irq => ∀ k', timerIrq b bt k = some k' → Nearest k'.timers
  | _ => True

theorem irq_inOrder (h : InOrder k.timers) (hload : BehindAbove k.timers) (hk : timerIrq b bt k = some k') :
    InOrder k'.timers := by
  obtain ⟨pct, s, pnt, hpct, hs, hpnt, hcases⟩ := timerIrq_timers b bt hk
  obtain ⟨hlinked, hperm, -, -⟩ := update_linked bt h.linked hs
  have hsorted := TimerOrder.update_sorted bt h.linked h.sorted
    (fun t ht hne => hload.load_le h.linked ht hne) hs
  have hloaded : InOrder { s with load := s.tc pnt } :=
    ⟨⟨hlinked.nodup, hlinked.cached, hlinked.bounded, hlinked.ticks, hlinked.fresh⟩, hsorted,
      (hlinked.bounded pnt (hlinked.leftmost_mem hpnt)).1⟩
  rcases hcases with ⟨-, hk'⟩ | ⟨-, t, hk'⟩ | ⟨-, hk'⟩
  · rw [hk']
    exact hloaded
  · rw [hk']
    have htc : ({ s with load := s.tc pnt }.setTimer pct { s.timer pct with pt := t }).tc = s.tc :=
      funext fun u => (setPt_timer { s with load := s.tc pnt } pct t u).1
    refine ⟨setPt_linked hloaded.linked pct t, ?_, hloaded.word⟩
    rw [htc]
    exact hsorted
  · have hin : pct ∈ s.queue := hperm.mem_iff.mpr (h.linked.leftmost_mem hpct)
    have hq := delTimer_queue bt hloaded.linked.nodup hin
    rw [hk']
    refine ⟨(delete_linked bt hloaded.linked hin).1, ?_, hloaded.word⟩
    rw [hq]
    exact hsorted.sublist List.erase_sublist

theorem step_inOrder {i : TimerStep τ} (h : InOrder k.timers) (hc : Reprograms k i) (hk : step b bt k i = some k') :
    InOrder k'.timers := by
  cases i with
  | createRt t msec =>
      cases hk
      have hnew : .rt k.timers.rtCreated ∉ k.timers.queue := fun hmem => (h.linked.fresh _ hmem).ne rfl
      exact ⟨(createRtTimer_inserted bt h.linked t msec).linked,
        TimerOrder.insert_sorted bt h.linked h.sorted hnew _ _, h.word⟩
  | createOneshot t tc =>
      simp only [step, Option.ite_none_right_eq_some, Option.some.injEq] at hk
      obtain ⟨htc, rfl⟩ := hk
      exact ⟨(createOneshotTimer_inserted bt h.linked t htc hc).linked,
        TimerOrder.insert_sorted bt h.linked h.sorted hc _ k.timers.rtCreated, h.word⟩
  | irq => exact irq_inOrder b bt h hc.1 hk
  | task k₁ =>
      cases hk
      exact h

omit [DecidableEq τ] in
/-- The timers that are left are those behind the expired one, and that one unless it is a oneshot timer. -/
theorem mem_iff_left {d : τ → ℕ} {s s' : Timers τ} {l u : TimerId} {us : List TimerId}
    (h : Interrupted bt d s s' l) (hq : s.queue = l :: us) :
    u ∈ s'.queue ↔ (u = l ∧ (s.timer l).type ≠ .oneshotTimer) ∨ u ∈ us := by
  rw [h.queue.mem_iff, hq]
  by_cases honeshot : (s.timer l).type = .oneshotTimer
  · rw [if_pos honeshot, List.erase_cons_head]
    simp [honeshot]
  · rw [if_neg honeshot, List.mem_cons]
    simp [honeshot]

omit [DecidableEq τ] in
theorem leftmost_ne_behind {s : Timers τ} {l u : TimerId} {us : List TimerId} (hl : Linked s) (hq : s.queue = l :: us)
    (hu : u ∈ us) : s.rbLeftmost ≠ some u := by
  have hnd := hl.nodup
  rw [hq] at hnd
  rw [hl.cached, hq, List.head?_cons]
  exact fun he => (List.nodup_cons.mp hnd).1 (Option.some.inj he ▸ hu)

omit [DecidableEq τ] in
/-- Behind the leftmost timer nothing underflows, so that part of the tree keeps its order. -/
theorem second_least (h : InOrder k.timers) (hload : BehindAbove k.timers) {l n : TimerId} {us : List TimerId}
    (hq : k.timers.queue = l :: n :: us) : ∀ u ∈ n :: us, tcAfter k n ≤ tcAfter k u := by
  have hsorted := h.sorted
  rw [hq] at hsorted
  intro u hu
  rcases List.mem_cons.mp hu with rfl | hu'
  · exact le_rfl
  · have hin : n ∈ k.timers.queue := hq ▸ List.mem_cons_of_mem _ List.mem_cons_self
    have hne := leftmost_ne_behind h.linked hq List.mem_cons_self
    exact TimerOrder.updatedTc_le hne (leftmost_ne_behind h.linked hq hu) (hload.load_le h.linked hin hne)
      (List.rel_of_pairwise_cons (List.pairwise_cons.mp hsorted).2 hu')
      (h.linked.bounded u (hq ▸ List.mem_cons_of_mem _ hu)).1

omit [DecidableEq τ] in
theorem overtaken_iff (h : InOrder k.timers) (hload : BehindAbove k.timers) {l n : TimerId} {us : List TimerId}
    (hq : k.timers.queue = l :: n :: us) (honeshot : (k.timers.timer l).type = .oneshotTimer) :
    Overtaken k ↔ tcAfter k n ≤ tcAfter k l := by
  have hl : l ∈ k.timers.queue := hq ▸ List.mem_cons_self
  have hn : n ∈ k.timers.queue := hq ▸ List.mem_cons_of_mem _ List.mem_cons_self
  have hleft : k.timers.rbLeftmost = some l := by rw [h.linked.cached, hq, List.head?_cons]
  have hne := leftmost_ne_behind h.linked hq List.mem_cons_self
  have hnl : n ≠ l := by
    rintro rfl
    exact hne hleft
  rw [Overtaken, hq]
  refine (forall_prop_of_true honeshot).trans ?_
  exact (tcAfter_le_iff hleft hnl (hload.load_le h.linked hn hne)
    (h.linked.bounded n hn).1 (h.linked.bounded l hl).1 h.word).symm

omit [DecidableEq τ] in
/-- The register is set to the least of the counts after the interrupt, which is that of the second timer where it comes
before the expired one. -/
theorem irq_least (h : InOrder k.timers) (hload : BehindAbove k.timers) {s' : Timers τ} {l : TimerId}
    {us : List TimerId} (hirq : Interrupted bt (done k) k.timers s' l) (hq : k.timers.queue = l :: us) :
    ∃ pnt ∈ k.timers.queue, s'.load = s'.tc pnt ∧ (∀ u ∈ k.timers.queue, tcAfter k pnt ≤ tcAfter k u) ∧
      ∀ n ∈ us.head?, tcAfter k n ≤ tcAfter k l → pnt = n := by
  obtain ⟨s₁, pnt, hs₁, hpnt, hreg⟩ := hirq.load
  obtain ⟨hlinked, hperm, htc₁, -⟩ := update_linked bt h.linked hs₁
  have hin : pnt ∈ k.timers.queue := hperm.mem_iff.mp (hlinked.leftmost_mem hpnt)
  have hsorted := TimerOrder.update_sorted bt h.linked h.sorted (fun t ht hne => hload.load_le h.linked ht hne) hs₁
  refine ⟨pnt, hin, hreg, fun u hu => ?_, fun n hn hle => ?_⟩
  · have hleast := TimerOrder.leftmost_least hlinked hsorted hpnt u (hperm.mem_iff.mpr hu)
    rwa [htc₁ pnt hin, htc₁ u hu] at hleast
  · have hfirst := update_leftmost bt h.linked hs₁ hq
    rw [hpnt] at hfirst
    rcases hfirst with ⟨-, hlt⟩ | ⟨hp, -⟩
    · exact absurd hle (Nat.not_le.mpr (hlt n hn))
    · exact Option.some.inj (hp.trans hn)

omit [DecidableEq τ] in
/-- The least of the counts is the nearest deadline if a timer that is left has it. -/
theorem nearest_iff_least {s' : Timers τ} {l pnt : TimerId} (hirq : Interrupted bt (done k) k.timers s' l)
    (hpnt : pnt ∈ k.timers.queue) (hreg : s'.load = s'.tc pnt)
    (hleast : ∀ u ∈ k.timers.queue, tcAfter k pnt ≤ tcAfter k u) :
    Nearest s' ↔ ∃ t ∈ s'.queue, tcAfter k t ≤ tcAfter k pnt := by
  have htc (u : TimerId) (hu : u ∈ s'.queue) : s'.tc u = tcAfter k u := hirq.tc u (hirq.mem bt hu)
  have hload : s'.load = tcAfter k pnt := hreg.trans (hirq.tc pnt hpnt)
  constructor
  · rintro ⟨t, ht, heq, -⟩
    rw [hload, htc t ht] at heq
    exact ⟨t, ht, heq.ge⟩
  · rintro ⟨t, ht, hle⟩
    refine ⟨t, ht, ?_, fun u hu => ?_⟩
    · rw [hload, htc t ht]
      exact le_antisymm (hleast t (hirq.mem bt ht)) hle
    · rw [htc t ht, htc u hu]
      exact hle.trans (hleast u (hirq.mem bt hu))

/-- Where the tree is in order, the register holds the nearest deadline after an interrupt exactly if the
expired timer is not a oneshot timer or is `Overtaken`. -/
theorem irq_nearest_iff (h : InOrder k.timers) (hload : BehindAbove k.timers) (hk : timerIrq b bt k = some k') :
    Nearest k'.timers ↔ Overtaken k := by
  obtain ⟨l, hirq⟩ := timerIrq_interrupted bt b hk h.linked
  obtain ⟨us, hq⟩ : ∃ us, k.timers.queue = l :: us :=
    List.head?_eq_some_iff.mp (h.linked.cached.symm.trans hirq.expired)
  obtain ⟨pnt, hpnt, hreg, hleast, hsecond⟩ := irq_least bt h hload hirq hq
  have hmem (u : TimerId) := mem_iff_left bt hirq hq (u := u)
  rw [nearest_iff_least bt hirq hpnt hreg hleast]
  by_cases honeshot : (k.timers.timer l).type = .oneshotTimer
  · have hleft (u : TimerId) : u ∈ k'.timers.queue ↔ u ∈ us :=
      (hmem u).trans (or_iff_right fun hu => hu.2 honeshot)
    cases us with
    | nil =>
        rw [Overtaken, hq]
        refine iff_of_false ?_ fun hother => hother honeshot
        rintro ⟨t, ht, -⟩
        exact List.not_mem_nil ((hleft t).mp ht)
    | cons n us =>
        rw [overtaken_iff h hload hq honeshot]
        constructor
        · rintro ⟨t, ht, hle⟩
          exact (second_least h hload hq t ((hleft t).mp ht)).trans (hle.trans (hleast l (hq ▸ List.mem_cons_self)))
        · intro hle
          refine ⟨n, (hleft n).mpr List.mem_cons_self, ?_⟩
          rw [hsecond n rfl hle]
  · refine iff_of_true ⟨pnt, ?_, le_rfl⟩ ?_
    · rw [hq] at hpnt
      exact (hmem pnt).mpr ((List.mem_cons.mp hpnt).imp_left fun he => ⟨he, honeshot⟩)
    · rw [Overtaken, hq]
      cases us with
      | nil => exact honeshot
      | cons n us => exact fun hone => absurd hone honeshot

/-- In every run that underflows at most at leftmost timers, whose expired oneshot timers are `Overtaken` and
whose new ones take free slots, every interrupt leaves the nearest deadline in the load register. -/
theorem load_is_nearest {k : Kernel τ} (h : TimerOrder.Start k.timers) (is : List (TimerStep τ))
    (hc : Machine.StepsMeet (step b bt) Reprograms k is) :
    Machine.StepsMeet (step b bt) (NearestAfter b bt) k is := by
  apply Machine.stepsMeet_of_stepsMeet (fun k => InOrder k.timers) _ _ (start_inOrder h) hc
  · exact fun k i k' hl hc hk => step_inOrder b bt hl hc hk
  · intro k i k' hl hc _
    cases i with
    | irq => exact fun k' hk' => (irq_nearest_iff b bt hl hc.1 hk').mpr hc.2
    | _ => trivial

theorem load_is_nearest_long_delay :
    Machine.StepsMeet (step (Balancer.plain ℕ) (Balancer.plain TimerId))
      (NearestAfter (Balancer.plain ℕ) (Balancer.plain TimerId)) TimerOrder.bootScheduled
      [.createOneshot 1 5000000, .irq, .irq, .irq] :=
  load_is_nearest (Balancer.plain ℕ) (Balancer.plain TimerId) TimerOrder.bootTimers_start _ (by decide +kernel)

/-- The register is set from a oneshot timer that is then taken out: the next period ends with no timer due. -/
theorem load_of_removed_timer : ∃ k k', Machine.exec (step (Balancer.plain ℕ) (Balancer.plain TimerId))
      TimerOrder.bootScheduled [.createOneshot 1 325520, .irq, .irq, .createOneshot 1 325520, .irq] = some k ∧
    timerIrq (Balancer.plain ℕ) (Balancer.plain TimerId) k = some k' ∧ k'.timers.queue = [.sched] ∧
    k'.timers.load = 325520 ∧ k'.timers.tc .sched = 3007810 ∧ ¬ Nearest k'.timers := by
  have hrun : ((Machine.exec (step (Balancer.plain ℕ) (Balancer.plain TimerId)) TimerOrder.bootScheduled
      [.createOneshot 1 325520, .irq, .irq, .createOneshot 1 325520, .irq]).bind fun k =>
      (timerIrq (Balancer.plain ℕ) (Balancer.plain TimerId) k).map fun k' =>
        (k'.timers.queue, k'.timers.load, k'.timers.tc .sched)) = some ([.sched], 325520, 3007810) := by
    decide +kernel
  obtain ⟨k, hk, hk'⟩ := Option.bind_eq_some_iff.mp hrun
  obtain ⟨k', hk', hv⟩ := Option.map_eq_some_iff.mp hk'
  simp only [Prod.mk.injEq] at hv
  obtain ⟨hqueue, hload, htc⟩ := hv
  refine ⟨k, k', hk, hk', hqueue, hload, htc, ?_⟩
  rintro ⟨t, ht, heq, -⟩
  rw [hqueue, List.mem_singleton] at ht
  rw [ht, hload, htc] at heq
  exact absurd heq (by decide)

end Slos.TimerDeadline
