import Slos.KTimer

/-!
# The timer interrupt

`timer_irq` of `timer.c`. A switch from one task to another moves register contexts only, so here it
shows as the new `current`. Reading through a `NULL` leftmost node has no result.
-/

namespace Slos
open SearchTree Kernel

variable {τ : Type} [DecidableEq τ] (b : Balancer τ) (bt : Balancer TimerId)

def done (k : Kernel τ) (t : τ) : ℕ := (k.task t).done

/-- The tree update and the new load register. -/
def reprogram (k : Kernel τ) : Option (Kernel τ) := do
  let timers ← updateTimerTree bt (done k) k.timers k.timers.load
  let pnt ← timers.rbLeftmost
  return { k with timers := { timers with load := timers.tc pnt } }

/-- `cfs_scheduler`. -/
def cfsScheduler (k : Kernel τ) : Option (Kernel τ) := (updateSe b k).bind schedule

def schedExpired (k : Kernel τ) (thisCurrent : τ) (pct : TimerId) : Option (Kernel τ) :=
  if (k.task thisCurrent).type = .rtTask then some k
  else (cfsScheduler b k).map fun k =>
    { k with timers := k.timers.setTimer pct { k.timers.timer pct with pt := thisCurrent } }

/-- The switch to the task of a realtime or oneshot timer. -/
def switchToTimer (k : Kernel τ) (thisCurrent pt : τ) : Kernel τ :=
  if thisCurrent = pt then k
  else
    let k := if (k.task thisCurrent).type = .rtTask then
        k.setTask thisCurrent { k.task thisCurrent with preempted := 1 }
      else k
    { k.setTask pt { k.task pt with yieldTask := some thisCurrent } with current := pt }

def oneshotExpired (k : Kernel τ) (thisCurrent : τ) (pct : TimerId) : Kernel τ :=
  let pt := (k.timers.timer pct).pt
  let k := switchToTimer k thisCurrent pt
  let k := if (k.task pt).state = .taskWaiting then enqueueSeToRunq b k pt else k
  { k with timers := delTimer bt k.timers pct }

def realtimeExpired (k : Kernel τ) (thisCurrent : τ) (pct : TimerId) : Kernel τ :=
  let k := switchToTimer k thisCurrent (k.timers.timer pct).pt
  let p := k.task thisCurrent
  if p.done = 0 ∧ p.preempted = 0 then
    k.setTask thisCurrent { p with missedCnt := Word.u32 (p.missedCnt + 1) }
  else k

def timerIrq (k : Kernel τ) : Option (Kernel τ) := do
  let thisCurrent := k.current
  let elapsed := k.timers.load
  let pct ← k.timers.rbLeftmost
  let k ← reprogram bt k
  let k := updateCurrent k elapsed
  match (k.timers.timer pct).type with
  | .schedTimer => schedExpired b k thisCurrent pct
  | .realtimeTimer => some (realtimeExpired k thisCurrent pct)
  | .oneshotTimer => some (oneshotExpired b bt k thisCurrent pct)

@[simp] theorem switchToTimer_timers (k : Kernel τ) (thisCurrent pt : τ) :
    (switchToTimer k thisCurrent pt).timers = k.timers := by
  unfold switchToTimer
  split_ifs <;> rfl

theorem schedExpired_timers {k k' : Kernel τ} {thisCurrent : τ} {pct : TimerId}
    (h : schedExpired b k thisCurrent pct = some k') : k'.timers = k.timers ∨
      k'.timers = k.timers.setTimer pct { k.timers.timer pct with pt := thisCurrent } := by
  rw [schedExpired] at h
  split_ifs at h with hrt
  · cases h
    exact Or.inl rfl
  · obtain ⟨k₂, hk₂, rfl⟩ := Option.map_eq_some_iff.mp h
    obtain ⟨k₁, hk₁, hk₂⟩ := Option.bind_eq_some_iff.mp hk₂
    have htimers : k₂.timers = k.timers := (schedule_timers hk₂).trans (updateSe_timers b hk₁)
    exact Or.inr (by rw [← htimers])

theorem realtimeExpired_timers (k : Kernel τ) (thisCurrent : τ) (pct : TimerId) :
    (realtimeExpired k thisCurrent pct).timers = k.timers := by
  unfold realtimeExpired
  dsimp only
  split_ifs <;> simp

theorem oneshotExpired_timers (k : Kernel τ) (thisCurrent : τ) (pct : TimerId) :
    (oneshotExpired b bt k thisCurrent pct).timers = delTimer bt k.timers pct := by
  unfold oneshotExpired
  dsimp only
  split_ifs <;> simp

/-- What an interrupt does to the timers: the tree update, the new load register, and then at most
a new task for the sched timer or the removal of a oneshot timer. -/
theorem timerIrq_timers {k k' : Kernel τ} (h : timerIrq b bt k = some k') :
    ∃ pct s pnt, k.timers.rbLeftmost = some pct ∧
      updateTimerTree bt (done k) k.timers k.timers.load = some s ∧ s.rbLeftmost = some pnt ∧
      (((s.timer pct).type ≠ .oneshotTimer ∧ k'.timers = { s with load := s.tc pnt }) ∨
        ((s.timer pct).type = .schedTimer ∧
          ∃ t, k'.timers = { s with load := s.tc pnt }.setTimer pct { s.timer pct with pt := t }) ∨
        ((s.timer pct).type = .oneshotTimer ∧
          k'.timers = delTimer bt { s with load := s.tc pnt } pct)) := by
  obtain ⟨pct, hpct, h⟩ := Option.bind_eq_some_iff.mp h
  obtain ⟨k₁, hk₁, h⟩ := Option.bind_eq_some_iff.mp h
  obtain ⟨s, hs, hk₁⟩ := Option.bind_eq_some_iff.mp hk₁
  obtain ⟨pnt, hpnt, hk₁⟩ := Option.bind_eq_some_iff.mp hk₁
  cases hk₁
  refine ⟨pct, s, pnt, hpct, hs, hpnt, ?_⟩
  simp only [updateCurrent_timers] at h
  cases htype : (s.timer pct).type with
  | schedTimer =>
      simp only [htype] at h
      have := schedExpired_timers b h
      rw [updateCurrent_timers] at this
      rcases this with h' | h'
      · exact Or.inl ⟨by decide, h'⟩
      · exact Or.inr (Or.inl ⟨rfl, _, h'⟩)
  | realtimeTimer =>
      simp only [htype] at h
      cases h
      rw [realtimeExpired_timers, updateCurrent_timers]
      exact Or.inl ⟨by decide, rfl⟩
  | oneshotTimer =>
      simp only [htype] at h
      cases h
      rw [oneshotExpired_timers, updateCurrent_timers]
      exact Or.inr (Or.inr ⟨rfl, rfl⟩)

end Slos
