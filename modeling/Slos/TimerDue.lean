import Slos.Tasks
import Slos.TimerOrder

/-!
# When timers fire

Time passes between two interrupts up to the value in the load register, and timers are created at any
moment in between. A tick count is kept relative to the last interrupt, so a timer is late by nothing and
early by the time since that interrupt, unless it is created right after one or its time is up before the
next one anyway. `OnTime` is the condition under which no timer expires before it is due.
-/

namespace Slos.TimerDue
open Word SearchTree
open TimerOrder (slot)

variable {τ : Type}

/-- The time of the last interrupt, the time since then, and when the timers created are due, until they
expire for the first time. -/
structure State (τ : Type) where
  kernel : Kernel τ
  clock : ℕ
  elapsed : ℕ
  due : TimerId → Option ℕ

inductive Step (τ : Type)
  | wait (ticks : ℕ)
  | createRt (rtTask : τ) (msec : ℕ)
  | createOneshot (oneshotTask : τ) (tc : ℕ)
  | mdelay (msecs : ℕ)
  | irq
  | task (k : Kernel τ)

def start (k : Kernel τ) : State τ where
  kernel := k
  clock := 0
  elapsed := 0
  due _ := none

/-- The timer is due `tc` ticks from now on. -/
def State.arm (s : State τ) (t : TimerId) (tc : ℕ) : TimerId → Option ℕ :=
  Function.update s.due t (some (s.clock + s.elapsed + tc))

/-- An interrupt finds the leftmost timer due. -/
def NotEarly (s : State τ) : Step τ → Prop
  | .irq => ∀ pct ∈ s.kernel.timers.rbLeftmost, ∀ d ∈ s.due pct, d ≤ s.clock + s.kernel.timers.load
  | _ => True

/-- A timer is created right after an interrupt, or to expire before the next one. -/
def Aligned (s : State τ) (tc : ℕ) : Prop := s.elapsed = 0 ∨ s.elapsed + tc ≤ s.kernel.timers.load

def Free (s : State τ) : Prop := slot s.kernel.timers ∉ s.kernel.timers.queue

/-- Timers are created aligned, no oneshot slot is taken again while its timer is linked, and the load
register is not below the leftmost timer when the interrupt comes. -/
def OnTime (s : State τ) : Step τ → Prop
  | .createRt _ msec => Aligned s (msecToTc s.kernel.timers.ticksPerSec msec)
  | .createOneshot _ tc => Aligned s tc ∧ Free s
  | .mdelay msecs => Aligned s (delayTicks s.kernel.timers.ticksPerSec msecs) ∧ Free s
  | .irq => ∀ pct ∈ s.kernel.timers.rbLeftmost, s.kernel.timers.tc pct ≤ s.kernel.timers.load
  | _ => True

instance (s : State τ) : ∀ i, Decidable (NotEarly s i)
  | .irq => inferInstanceAs (Decidable (∀ pct ∈ s.kernel.timers.rbLeftmost, ∀ d ∈ s.due pct, _))
  | .wait _ => isTrue trivial
  | .createRt _ _ => isTrue trivial
  | .createOneshot _ _ => isTrue trivial
  | .mdelay _ => isTrue trivial
  | .task _ => isTrue trivial

instance (s : State τ) (tc : ℕ) : Decidable (Aligned s tc) := inferInstanceAs (Decidable (_ ∨ _))

instance (s : State τ) : Decidable (Free s) := inferInstanceAs (Decidable (_ ∉ _))

instance (s : State τ) : ∀ i, Decidable (OnTime s i)
  | .createRt _ _ => inferInstanceAs (Decidable (Aligned _ _))
  | .createOneshot _ _ => inferInstanceAs (Decidable (_ ∧ _))
  | .mdelay _ => inferInstanceAs (Decidable (_ ∧ _))
  | .irq => inferInstanceAs (Decidable (∀ pct ∈ s.kernel.timers.rbLeftmost, _))
  | .wait _ => isTrue trivial
  | .task _ => isTrue trivial

/-- What is left of a timer's count is enough for its due time. -/
structure Punctual (s : State τ) : Prop where
  linked : Linked s.kernel.timers
  due : ∀ t ∈ s.kernel.timers.queue, ∀ d ∈ s.due t,
    d ≤ s.clock + max (s.kernel.timers.tc t) s.kernel.timers.load

variable [DecidableEq τ] (b : Balancer τ) (bt : Balancer TimerId)

def step (s : State τ) : Step τ → Option (State τ)
  | .wait ticks =>
      if s.elapsed + ticks ≤ s.kernel.timers.load then some { s with elapsed := s.elapsed + ticks }
      else none
  | .createRt t msec =>
      let timers := s.kernel.timers
      some { s with
        kernel := { s.kernel with timers := createRtTimer bt timers t msec }
        due := s.arm (.rt timers.rtCreated) (msecToTc timers.ticksPerSec msec) }
  | .createOneshot t tc =>
      let timers := s.kernel.timers
      if tc < size then some { s with
        kernel := { s.kernel with timers := createOneshotTimer bt timers t tc }
        due := s.arm (slot timers) tc }
      else none
  | .mdelay msecs =>
      (mdelay b bt s.kernel msecs).map fun k => { s with
        kernel := k
        due := s.arm (slot s.kernel.timers) (delayTicks s.kernel.timers.ticksPerSec msecs) }
  | .irq => do
      let pct ← s.kernel.timers.rbLeftmost
      let k ← timerIrq b bt s.kernel
      return { kernel := k
               clock := s.clock + s.kernel.timers.load
               elapsed := 0
               due := Function.update s.due pct none }
  | .task k => some { s with kernel := { k with timers := s.kernel.timers } }

omit [DecidableEq τ] in
theorem Punctual.notEarly {s : State τ} (h : Punctual s) {i : Step τ} (hc : OnTime s i) :
    NotEarly s i := by
  cases i with
  | irq =>
      intro pct hpct d hd
      have hdue := h.due pct (h.linked.leftmost_mem hpct) d hd
      rwa [max_eq_right (hc pct hpct)] at hdue
  | _ => trivial

omit [DecidableEq τ] in
/-- A new timer that is aligned is on time, and the others stay so. -/
theorem insert_punctual {s : State τ} (h : Punctual s) {t : TimerId} {tc : ℕ} {timers : Timers τ}
    (hins : Inserted s.kernel.timers t tc timers) (ht : t ∉ s.kernel.timers.queue) {k : Kernel τ}
    (hk : k.timers = timers) (hc : Aligned s tc) :
    Punctual { s with kernel := k, due := s.arm t tc } := by
  refine ⟨hk ▸ hins.linked, fun u hu d hd => ?_⟩
  dsimp only at hu hd ⊢
  rw [hk] at hu ⊢
  rw [hins.load]
  rcases List.mem_cons.mp (hins.perm.mem_iff.mp hu) with rfl | hu
  · rw [State.arm, Function.update_self] at hd
    obtain rfl := Option.some.inj hd
    rw [hins.self]
    rcases hc with hzero | hshort
    · rw [hzero]
      omega
    · omega
  · have hne : u ≠ t := fun he => ht (he ▸ hu)
    rw [State.arm, Function.update_of_ne hne] at hd
    rw [hins.other u hu]
    exact h.due u hu d hd

omit [DecidableEq τ] in
theorem le_remaining {s : Timers τ} {tc elapsed : ℕ} (htc : tc < size) (h : elapsed ≤ tc) :
    tc - elapsed ≤ remaining s tc elapsed := by
  unfold remaining
  rw [usub_of_le htc h]
  dsimp only
  split <;> omega

/-- An interrupt takes the time that has passed off every count but the expired one's. -/
theorem irq_punctual {s : State τ} (h : Punctual s) {pct : TimerId} {k : Kernel τ}
    (hpct : s.kernel.timers.rbLeftmost = some pct) (hk : timerIrq b bt s.kernel = some k) :
    Punctual { kernel := k, clock := s.clock + s.kernel.timers.load, elapsed := 0,
               due := Function.update s.due pct none } := by
  obtain ⟨pct', hirq⟩ := timerIrq_interrupted bt b hk h.linked
  obtain rfl := Option.some.inj (hpct.symm.trans hirq.expired)
  refine ⟨hirq.linked, fun u hu d hd => ?_⟩
  dsimp only at hu hd ⊢
  have hne : u ≠ pct := by
    rintro rfl
    rw [Function.update_self] at hd
    cases hd
  rw [Function.update_of_ne hne] at hd
  have hmem := hirq.mem bt hu
  have hdue := h.due u hmem d hd
  have hleft : ¬ (s.kernel.timers.rbLeftmost = some u ∧ done s.kernel (s.kernel.timers.timer u).pt ≠ 0) :=
    fun hl => hne (Option.some.inj (hl.1.symm.trans hpct))
  rw [hirq.tc u hmem, updatedTc, if_neg hleft]
  rcases Nat.le_total s.kernel.timers.load (s.kernel.timers.tc u) with hle | hle
  · have hrem := le_remaining (s := s.kernel.timers) (h.linked.bounded u hmem).1 hle
    rw [max_eq_left hle] at hdue
    omega
  · rw [max_eq_right hle] at hdue
    omega

theorem step_punctual (s : State τ) (i : Step τ) (t : State τ) (h : Punctual s) (hc : OnTime s i)
    (ht : step b bt s i = some t) : Punctual t := by
  cases i with
  | wait ticks =>
      simp only [step, Option.ite_none_right_eq_some, Option.some.injEq] at ht
      obtain ⟨-, rfl⟩ := ht
      exact ⟨h.linked, h.due⟩
  | createRt rtTask msec =>
      cases ht
      have hfresh : .rt s.kernel.timers.rtCreated ∉ s.kernel.timers.queue := fun hmem =>
        (h.linked.fresh _ hmem).ne rfl
      exact insert_punctual h (createRtTimer_inserted bt h.linked rtTask msec) hfresh rfl hc
  | createOneshot oneshotTask tc =>
      simp only [step, Option.ite_none_right_eq_some, Option.some.injEq] at ht
      obtain ⟨htc, rfl⟩ := ht
      exact insert_punctual h (createOneshotTimer_inserted bt h.linked oneshotTask htc hc.2) hc.2 rfl hc.1
  | mdelay msecs =>
      obtain ⟨k, hk, rfl⟩ := Option.map_eq_some_iff.mp ht
      have hins := createOneshotTimer_inserted bt h.linked s.kernel.current
        (u32_lt _ : delayTicks s.kernel.timers.ticksPerSec msecs < size) hc.2
      exact insert_punctual h hins hc.2 (delay_timers b bt hk) hc.1
  | irq =>
      obtain ⟨pct, hpct, ht⟩ := Option.bind_eq_some_iff.mp ht
      obtain ⟨k, hk, ht⟩ := Option.bind_eq_some_iff.mp ht
      cases ht
      exact irq_punctual b bt h hpct hk
  | task k =>
      cases ht
      exact ⟨h.linked, h.due⟩

omit [DecidableEq τ] in
theorem start_punctual {k : Kernel τ} (h : TimerOrder.Start k.timers) : Punctual (start k) :=
  ⟨(TimerOrder.start_armed h).linked, fun t _ d hd => by cases hd⟩

/-- In every run whose steps are all on time, no interrupt takes a timer for expired before it is due. -/
theorem timers_not_early {k : Kernel τ} (h : TimerOrder.Start k.timers) (is : List (Step τ))
    (hc : Machine.StepsMeet (step b bt) OnTime (start k) is) :
    Machine.StepsMeet (step b bt) NotEarly (start k) is :=
  Machine.stepsMeet_of_stepsMeet Punctual (step_punctual b bt) (fun _ _ _ hs hc _ => hs.notEarly hc)
    (start_punctual h) hc

/-- A delay that starts with a period of the sched timer. -/
theorem timers_not_early_aligned :
    Machine.StepsMeet (step (Balancer.plain ℕ) (Balancer.plain TimerId)) NotEarly
      (start TimerOrder.bootScheduled) [.createOneshot 1 3400000, .wait 1000000, .irq, .irq] :=
  timers_not_early (Balancer.plain ℕ) (Balancer.plain TimerId) TimerOrder.bootTimers_start _
    (by decide +kernel)

/-- The same delay, started 9 ms into the period, ends at the same interrupt. -/
theorem timer_early_mid_period :
    ¬ Machine.StepsMeet (step (Balancer.plain ℕ) (Balancer.plain TimerId)) NotEarly
      (start TimerOrder.bootScheduled) [.wait 3000000, .createOneshot 1 3400000, .irq, .irq] := by
  decide +kernel

end Slos.TimerDue
