import Slos.TimerIrq

/-!
# The timer tree

`Linked` says that the tree holds distinct timers, that `rb_leftmost` is the first in order and that the
counts are words. Creating a timer, the tree update of an interrupt and the removal of an expired timer
keep it, whatever the order of the tree is.
-/

namespace Slos
open Word SearchTree

variable {τ : Type}

structure Linked (s : Timers τ) : Prop where
  nodup : s.queue.Nodup
  cached : s.rbLeftmost = s.queue.head?
  bounded : ∀ t ∈ s.queue, s.tc t < size ∧ (s.timer t).intvl < size
  ticks : s.ticksPerSec < size
  fresh : ∀ n, .rt n ∈ s.queue → n < s.rtCreated

theorem Linked.leftmost_mem {s : Timers τ} (h : Linked s) {t : TimerId} (ht : s.rbLeftmost = some t) :
    t ∈ s.queue :=
  List.mem_of_head? (h.cached ▸ ht)

theorem setTimer_self (s : Timers τ) (t : TimerId) (p : TimerStruct τ) : (s.setTimer t p).timer t = p :=
  Function.update_self ..

/-- A new timer is set up; the timers in the tree are as before. -/
theorem setTimer_queued {s : Timers τ} {t u : TimerId} (ht : t ∉ s.queue) (hu : u ∈ s.queue)
    (p : TimerStruct τ) : (s.setTimer t p).timer u = s.timer u := by
  have hne : u ≠ t := fun he => ht (he ▸ hu)
  exact Function.update_of_ne hne ..

variable (bt : Balancer TimerId)

theorem insert_linked {s : Timers τ} (h : Linked s) {t : TimerId} (ht : t ∉ s.queue)
    {p : TimerStruct τ} (hp : p.tc < size ∧ p.intvl < size) {n : ℕ} (hn : s.rtCreated ≤ n)
    (hfresh : ∀ m, t = .rt m → m < n) :
    Linked (insertTimer bt { s.setTimer t p with rtCreated := n } t) ∧
      (insertTimer bt { s.setTimer t p with rtCreated := n } t).queue.Perm (t :: s.queue) := by
  let s₁ : Timers τ := { s.setTimer t p with rtCreated := n }
  have hperm : (insertTimer bt s₁ t).queue.Perm (t :: s.queue) :=
    insertTimer_perm bt (s := s₁) h.nodup ht
  have hmem : ∀ u ∈ (insertTimer bt s₁ t).queue, u = t ∨ u ∈ s.queue := by
    intro u hu
    exact List.mem_cons.mp (hperm.mem_iff.mp hu)
  refine ⟨⟨hperm.nodup_iff.mpr (List.nodup_cons.mpr ⟨ht, h.nodup⟩),
    insertTimer_leftmost bt (s := s₁) h.nodup ht h.cached, fun u hu => ?_, h.ticks, fun m hm => ?_⟩,
    hperm⟩
  · change (s₁.timer u).tc < size ∧ (s₁.timer u).intvl < size
    rcases hmem u hu with rfl | hu
    · rw [show s₁.timer u = p from setTimer_self s u p]
      exact hp
    · rw [show s₁.timer u = s.timer u from setTimer_queued ht hu p]
      exact h.bounded u hu
  · rcases hmem _ hm with he | hm
    · exact hfresh m he.symm
    · exact (h.fresh m hm).trans_le hn

/-- `s'` is `s` with the timer `t` created with `tc` ticks. -/
structure Inserted (s : Timers τ) (t : TimerId) (tc : ℕ) (s' : Timers τ) : Prop where
  linked : Linked s'
  perm : s'.queue.Perm (t :: s.queue)
  load : s'.load = s.load
  self : s'.tc t = tc
  other : ∀ u ∈ s.queue, s'.tc u = s.tc u

theorem createRtTimer_inserted {s : Timers τ} (h : Linked s) (rtTask : τ) (msec : ℕ) :
    Inserted s (.rt s.rtCreated) (msecToTc s.ticksPerSec msec) (createRtTimer bt s rtTask msec) := by
  have ht : .rt s.rtCreated ∉ s.queue := fun hmem => (h.fresh _ hmem).ne rfl
  obtain ⟨hlinked, hperm⟩ := insert_linked bt h ht
    (p := { tc := msecToTc s.ticksPerSec msec, intvl := msecToTc s.ticksPerSec msec, pt := rtTask,
            type := .realtimeTimer }) ⟨u32_lt _, u32_lt _⟩ (Nat.le_succ _) (by rintro m ⟨⟩; omega)
  exact ⟨hlinked, hperm, rfl, congrArg TimerStruct.tc (setTimer_self s _ _),
    fun u hu => congrArg TimerStruct.tc (setTimer_queued ht hu _)⟩

theorem createOneshotTimer_inserted {s : Timers τ} (h : Linked s) (oneshotTask : τ) {tc : ℕ}
    (htc : tc < size) (ht : .oneshot s.oneshotTimerIdx ∉ s.queue) :
    Inserted s (.oneshot s.oneshotTimerIdx) tc (createOneshotTimer bt s oneshotTask tc) := by
  obtain ⟨hlinked, hperm⟩ := insert_linked bt h ht
    (p := { tc := tc, intvl := tc, pt := oneshotTask, type := .oneshotTimer }) ⟨htc, htc⟩ le_rfl
    (fun m hm => by cases hm)
  exact ⟨⟨hlinked.nodup, hlinked.cached, hlinked.bounded, hlinked.ticks, hlinked.fresh⟩, hperm, rfl,
    congrArg TimerStruct.tc (setTimer_self s _ _),
    fun u hu => congrArg TimerStruct.tc (setTimer_queued ht hu _)⟩

theorem delete_linked {s : Timers τ} (h : Linked s) {t : TimerId} (ht : t ∈ s.queue) :
    Linked (delTimer bt s t) ∧ ∀ u ∈ (delTimer bt s t).queue, u ∈ s.queue := by
  have hq := delTimer_queue bt h.nodup ht
  have hsub : ∀ u ∈ (delTimer bt s t).queue, u ∈ s.queue := by
    rw [hq]
    exact fun u hu => List.mem_of_mem_erase hu
  exact ⟨⟨hq ▸ h.nodup.erase t, delTimer_leftmost bt h.nodup ht h.cached,
    fun u hu => h.bounded u (hsub u hu), h.ticks, fun n hn => h.fresh n (hsub _ hn)⟩, hsub⟩

theorem updatedTc_lt {s : Timers τ} (h : Linked s) (d : τ → ℕ) (elapsed : ℕ) {t : TimerId}
    (ht : t ∈ s.queue) : updatedTc d elapsed s t < size := by
  have hmin : s.minTimeInt < size := (Nat.shiftRight_le _ _).trans_lt h.ticks
  unfold updatedTc remaining
  dsimp only
  split_ifs
  · exact (h.bounded t ht).2
  · exact hmin
  · exact usub_lt _ _

/-- The tree update keeps the timers linked; only the tick counts change. -/
theorem update_linked {s s' : Timers τ} (h : Linked s) {d : τ → ℕ} {elapsed : ℕ}
    (hs : updateTimerTree bt d s elapsed = some s') :
    Linked s' ∧ s'.queue.Perm s.queue ∧ (∀ t, t ∈ s.queue → s'.tc t = updatedTc d elapsed s t) ∧
      ∀ t, s'.timer t = { s.timer t with tc := s'.tc t } := by
  obtain ⟨l, s₁, hl, honly, htc, rfl⟩ := updateTimerTree_spec bt h.nodup h.cached hs
  have hq₁ : s₁.queue = s.queue := congrArg BinTree.inorder honly.root
  have hnd₁ : s₁.queue.Nodup := hq₁ ▸ h.nodup
  have hl₁ : l ∈ s₁.queue := hq₁ ▸ h.leftmost_mem hl
  have hdel := delTimer_queue bt hnd₁ hl₁
  have hcached : (delTimer bt s₁ l).rbLeftmost = (delTimer bt s₁ l).queue.head? := by
    apply delTimer_leftmost bt hnd₁ hl₁
    rw [honly.rbLeftmost, hq₁, h.cached]
  have hnd₂ : (delTimer bt s₁ l).queue.Nodup := hdel ▸ hnd₁.erase l
  have hl₂ : l ∉ (delTimer bt s₁ l).queue := by
    rw [hdel]
    exact hnd₁.not_mem_erase
  have hperm : (insertTimer bt (delTimer bt s₁ l) l).queue.Perm s.queue := by
    refine (insertTimer_perm bt hnd₂ hl₂).trans ?_
    rw [hdel, ← hq₁]
    exact (List.perm_cons_erase hl₁).symm
  have hmem : ∀ u ∈ (insertTimer bt (delTimer bt s₁ l) l).queue, u ∈ s.queue :=
    fun u hu => hperm.mem_iff.mp hu
  refine ⟨⟨hperm.nodup_iff.mpr h.nodup, insertTimer_leftmost bt hnd₂ hl₂ hcached, fun u hu => ?_, ?_,
    fun n hn => ?_⟩, hperm, fun t ht => ?_, honly.timer⟩
  · change s₁.tc u < size ∧ (s₁.timer u).intvl < size
    rw [htc, if_pos (hmem u hu), honly.timer u]
    exact ⟨updatedTc_lt h d elapsed (hmem u hu), (h.bounded u (hmem u hu)).2⟩
  · exact honly.ticksPerSec.trans_lt h.ticks
  · exact (h.fresh n (hmem _ hn)).trans_eq honly.rtCreated.symm
  · change s₁.tc t = _
    rw [htc, if_pos ht]

theorem setPt_timer (s : Timers τ) (pct : TimerId) (pt : τ) (t : TimerId) :
    ((s.setTimer pct { s.timer pct with pt := pt }).timer t).tc = s.tc t ∧
      ((s.setTimer pct { s.timer pct with pt := pt }).timer t).intvl = (s.timer t).intvl ∧
      ((s.setTimer pct { s.timer pct with pt := pt }).timer t).type = (s.timer t).type := by
  by_cases ht : t = pct
  · subst ht
    simp [Timers.setTimer, Timers.tc]
  · simp [Timers.setTimer, Timers.tc, ht]

theorem setPt_linked {s : Timers τ} (h : Linked s) (pct : TimerId) (pt : τ) :
    Linked (s.setTimer pct { s.timer pct with pt := pt }) := by
  refine ⟨h.nodup, h.cached, fun u hu => ?_, h.ticks, h.fresh⟩
  obtain ⟨htc, hintvl, -⟩ := setPt_timer s pct pt u
  rw [Timers.tc, htc, hintvl]
  exact h.bounded u hu

/-- Which timer is leftmost once the expired one is put back: that one, with fewer ticks than the timer that was
next, or the timer that was next. -/
theorem update_leftmost {s s' : Timers τ} (h : Linked s) {d : τ → ℕ} {elapsed : ℕ}
    (hs : updateTimerTree bt d s elapsed = some s') {l : TimerId} {us : List TimerId} (hq : s.queue = l :: us) :
    (s'.rbLeftmost = some l ∧ ∀ u ∈ us.head?, updatedTc d elapsed s l < updatedTc d elapsed s u) ∨
      (s'.rbLeftmost = us.head? ∧ ∃ u ∈ us, updatedTc d elapsed s u ≤ updatedTc d elapsed s l) := by
  obtain ⟨l', s₁, hl, honly, htc, rfl⟩ := updateTimerTree_spec bt h.nodup h.cached hs
  obtain rfl : l = l' := by
    rw [h.cached, hq] at hl
    exact Option.some.inj hl
  have hq₁ : s₁.queue = l :: us := (congrArg BinTree.inorder honly.root).trans hq
  have hnd := h.nodup
  rw [hq] at hnd
  have hl₁ : l ∈ s₁.queue := hq₁ ▸ List.mem_cons_self
  have hdel : (delTimer bt s₁ l).queue = us := by
    rw [delTimer_queue bt (hq₁ ▸ hnd) hl₁, hq₁, List.erase_cons_head]
  have hcached : (delTimer bt s₁ l).rbLeftmost = us.head? := by
    rw [delTimer_leftmost bt (hq₁ ▸ hnd) hl₁ (by rw [honly.rbLeftmost, hl, hq₁]; rfl), hdel]
  have htc' (u : TimerId) (hu : u ∈ l :: us) : (delTimer bt s₁ l).tc u = updatedTc d elapsed s u :=
    (htc u).trans (if_pos (hq ▸ hu))
  have hleft (u : TimerId) (hu : u ∈ us) : timerLeft (delTimer bt s₁ l) ((delTimer bt s₁ l).tc l) u =
      decide (updatedTc d elapsed s l < updatedTc d elapsed s u) := by
    rw [timerLeft, htc' l List.mem_cons_self, htc' u (List.mem_cons_of_mem _ hu)]
  cases hall : (delTimer bt s₁ l).root.allLeft (timerLeft (delTimer bt s₁ l) ((delTimer bt s₁ l).tc l)) with
  | true =>
      refine Or.inl ⟨if_pos hall, fun u hu => ?_⟩
      have hgo := BinTree.goLeft_head hall (a := u) (by rw [← hu]; exact congrArg List.head? hdel)
      rw [hleft u (List.mem_of_head? hu)] at hgo
      exact of_decide_eq_true hgo
  | false =>
      refine Or.inr ⟨(if_neg (by rw [hall]; exact Bool.false_ne_true)).trans hcached, ?_⟩
      by_contra hnone
      push Not at hnone
      have htrue : (delTimer bt s₁ l).root.allLeft (timerLeft (delTimer bt s₁ l) ((delTimer bt s₁ l).tc l)) = true := by
        apply BinTree.allLeft_of_forall
        intro u hu
        have hu' : u ∈ us := hdel ▸ hu
        rw [hleft u hu']
        exact decide_eq_true (hnone u hu')
      rw [hall] at htrue
      exact absurd htrue Bool.false_ne_true

/-- What an interrupt that finds `pct` leftmost makes of the timers: every count but the expired one's is
lowered, a oneshot timer goes, and the load register gets the count of the leftmost timer before that. -/
structure Interrupted (d : τ → ℕ) (s s' : Timers τ) (pct : TimerId) : Prop where
  expired : s.rbLeftmost = some pct
  linked : Linked s'
  queue : s'.queue.Perm (if (s.timer pct).type = .oneshotTimer then s.queue.erase pct else s.queue)
  tc : ∀ u ∈ s.queue, s'.tc u = updatedTc d s.load s u
  type : ∀ u, (s'.timer u).type = (s.timer u).type
  pt : ∀ u, (s'.timer u).pt = (s.timer u).pt ∨ (u = pct ∧ (s.timer pct).type = .schedTimer)
  ring : s'.oneshotTimerIdx = s.oneshotTimerIdx
  load : ∃ s₁ pnt, updateTimerTree bt d s s.load = some s₁ ∧ s₁.rbLeftmost = some pnt ∧ s'.load = s'.tc pnt

theorem Interrupted.mem {d : τ → ℕ} {s s' : Timers τ} {pct u : TimerId} (h : Interrupted bt d s s' pct)
    (hu : u ∈ s'.queue) : u ∈ s.queue := by
  have hmem := h.queue.mem_iff.mp hu
  split at hmem
  · exact List.mem_of_mem_erase hmem
  · exact hmem

variable [DecidableEq τ] (b : Balancer τ)

theorem timerIrq_interrupted {k k' : Kernel τ} (h : timerIrq b bt k = some k') (hl : Linked k.timers) :
    ∃ pct, Interrupted bt (done k) k.timers k'.timers pct := by
  obtain ⟨pct, s, pnt, hpct, hs, hpnt, hcases⟩ := timerIrq_timers b bt h
  obtain ⟨hlinked, hperm, htc, htimer⟩ := update_linked bt hl hs
  have hring : s.oneshotTimerIdx = k.timers.oneshotTimerIdx := by
    obtain ⟨l, s₁, -, honly, -, rfl⟩ := updateTimerTree_spec bt hl.nodup hl.cached hs
    exact honly.oneshotTimerIdx
  have htype (u : TimerId) : (s.timer u).type = (k.timers.timer u).type := by rw [htimer u]
  have hpt (u : TimerId) : (s.timer u).pt = (k.timers.timer u).pt := by rw [htimer u]
  have hloaded : Linked { s with load := s.tc pnt } :=
    ⟨hlinked.nodup, hlinked.cached, hlinked.bounded, hlinked.ticks, hlinked.fresh⟩
  rw [htype] at hcases
  refine ⟨pct, ?_⟩
  rcases hcases with ⟨hother, heq⟩ | ⟨hsched, t, heq⟩ | ⟨honeshot, heq⟩
  · rw [heq]
    refine ⟨hpct, hloaded, ?_, htc, htype, fun u => Or.inl (hpt u), hring, s, pnt, hs, hpnt, rfl⟩
    rw [if_neg hother]
    exact hperm
  · have htimer' (u : TimerId) := setPt_timer { s with load := s.tc pnt } pct t u
    rw [heq]
    refine ⟨hpct, setPt_linked hloaded pct t, ?_, fun u hu => (htimer' u).1.trans (htc u hu),
      fun u => (htimer' u).2.2.trans (htype u), fun u => ?_, hring, s, pnt, hs, hpnt, (htimer' pnt).1.symm⟩
    · rw [if_neg (by rw [hsched]; decide)]
      exact hperm
    · by_cases hu : u = pct
      · exact Or.inr ⟨hu, hsched⟩
      · have hsame : (({ s with load := s.tc pnt } : Timers τ).setTimer pct { s.timer pct with pt := t }).timer u =
            s.timer u := Function.update_of_ne hu ..
        exact Or.inl ((congrArg TimerStruct.pt hsame).trans (hpt u))
  · have hin : pct ∈ s.queue := hperm.mem_iff.mpr (hl.leftmost_mem hpct)
    rw [heq]
    refine ⟨hpct, (delete_linked bt hloaded hin).1, ?_, htc, htype, fun u => Or.inl (hpt u), hring, s, pnt, hs, hpnt,
      rfl⟩
    rw [if_pos honeshot]
    exact (delTimer_queue bt hloaded.nodup hin ▸ hperm.erase pct : _)

end Slos
