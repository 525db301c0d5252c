import Slos.TimerTree
import Slos.Tasks

/-!
# Milliseconds to ticks

The four calls that arm a timer for a number of milliseconds. `mdelay` multiplies in 64 bits, divides by 1024 and hands the
quotient over as 32 bits; the others divide the clock frequency by 1000 and multiply in 32 bits.
-/

namespace Slos.Durations
open Word SearchTree

inductive Path (τ : Type)
  | mdelay
  | createOneshotTask (pt : τ)
  | createRtTimer (rtTask : τ)
  | createSchedTimer (cfsSchedTask : τ)

section Armed

variable {τ : Type} [DecidableEq τ] (b : Balancer τ) (bt : Balancer TimerId)

/-- The tick count of the timer that a call arms. -/
def armed (s : Tasks τ) (msec : ℕ) : Path τ → Option ℕ
  | .mdelay => (mdelay b bt s.kernel msec).map fun k => (k.timers.timer (.oneshot s.kernel.timers.oneshotTimerIdx)).tc
  | .createOneshotTask pt => (createOneshotTask bt s pt msec).map fun t =>
      (t.kernel.timers.timer (.oneshot s.kernel.timers.oneshotTimerIdx)).tc
  | .createRtTimer t => some ((createRtTimer bt s.kernel.timers t msec).timer (.rt s.kernel.timers.rtCreated)).tc
  | .createSchedTimer t => some ((createSchedTimer bt s.kernel.timers t msec).timer .sched).tc

/-- The ticks for `msec` at the frequency `f`. -/
def ticks (f msec : ℕ) : Path τ → ℕ
  | .mdelay => delayTicks f msec
  | _ => msecToTc f msec

omit [DecidableEq τ] in
theorem createOneshotTimer_tc (s : Timers τ) (t : τ) (tc : ℕ) :
    ((createOneshotTimer bt s t tc).timer (.oneshot s.oneshotTimerIdx)).tc = tc := by
  change ((s.setTimer (.oneshot s.oneshotTimerIdx) _).timer (.oneshot s.oneshotTimerIdx)).tc = tc
  rw [setTimer_self]

theorem forkyi_timers {s s' : Tasks τ} {pt : τ} {type : TaskType} {pri : ℕ} (h : forkyi s pt type pri = some s') :
    s'.kernel.timers = s.kernel.timers := by
  simp only [forkyi, Option.ite_none_left_eq_some, Option.some.injEq] at h
  obtain ⟨-, -, rfl⟩ := h
  rfl

theorem armed_eq {s : Tasks τ} {msec tc : ℕ} {p : Path τ} (h : armed b bt s msec p = some tc) :
    tc = ticks s.kernel.timers.ticksPerSec msec p := by
  cases p with
  | mdelay =>
      obtain ⟨k, hk, rfl⟩ := Option.map_eq_some_iff.mp h
      rw [delay_timers b bt hk, createOneshotTimer_tc]
      rfl
  | createOneshotTask pt =>
      obtain ⟨t, ht, rfl⟩ := Option.map_eq_some_iff.mp h
      obtain ⟨u, hu, rfl⟩ := Option.map_eq_some_iff.mp ht
      rw [← forkyi_timers hu]
      exact createOneshotTimer_tc bt _ pt _
  | createRtTimer t =>
      cases h
      change ((s.kernel.timers.setTimer (.rt s.kernel.timers.rtCreated) _).timer (.rt s.kernel.timers.rtCreated)).tc = _
      rw [setTimer_self]
      rfl
  | createSchedTimer t =>
      cases h
      change ((s.kernel.timers.setTimer .sched _).timer .sched).tc = _
      rw [setTimer_self]
      rfl

end Armed

/-- At the frequency `f` every path arms at least `msec` milliseconds, and any two differ by one millisecond at most. -/
structure DurationLaw (f msec : ℕ) : Prop where
  lower : ∀ (τ : Type) [DecidableEq τ] (b : Balancer τ) (bt : Balancer TimerId) (s : Tasks τ) (p : Path τ) (tc : ℕ),
    s.kernel.timers.ticksPerSec = f → armed b bt s msec p = some tc → msec * f / 1000 ≤ tc
  agree : ∀ (τ : Type) [DecidableEq τ] (b : Balancer τ) (bt : Balancer TimerId) (s : Tasks τ) (p q : Path τ) (tc tc' : ℕ),
    s.kernel.timers.ticksPerSec = f → armed b bt s msec p = some tc → armed b bt s msec q = some tc' →
      1000 * tc ≤ 1000 * tc' + f

variable {f msec : ℕ}

/-- A quotient by 1024 is one by 1000 for the smallest numbers only. -/
theorem div_1024_eq_iff (n : ℕ) : n / 1000 ≤ n / 1024 ↔ 24 * (n / 1000) ≤ n % 1000 := by
  omega

theorem delayTicks_le (f msec : ℕ) : delayTicks f msec ≤ msec * f / 1024 := by
  have hshift := Nat.shiftRight_eq_div_pow (msec * f % 2 ^ 64) 10
  calc delayTicks f msec ≤ (msec * f % 2 ^ 64) >>> 10 := Nat.mod_le _ _
    _ ≤ msec * f / 1024 := by
      rw [hshift]
      exact Nat.div_le_div_right (Nat.mod_le _ _)

theorem delayTicks_of_lt (h : msec * f < size) : delayTicks f msec = msec * f / 1024 := by
  have hwide : msec * f % 2 ^ 64 = msec * f := Nat.mod_eq_of_lt (h.trans (by decide))
  have hshift := Nat.shiftRight_eq_div_pow (msec * f) 10
  rw [delayTicks, hwide, hshift]
  exact u32_of_lt ((Nat.div_le_self _ _).trans_lt h)

theorem mul_div_split (f msec : ℕ) : msec * f / 1000 = f / 1000 * msec + f % 1000 * msec / 1000 := by
  have hsplit : msec * f = 1000 * (f / 1000 * msec) + f % 1000 * msec := by
    rw [← Nat.mul_assoc, ← Nat.add_mul, Nat.div_add_mod, Nat.mul_comm]
  rw [hsplit, Nat.mul_add_div (by decide)]

theorem msecToTc_le (f msec : ℕ) : msecToTc f msec ≤ f / 1000 * msec := Nat.mod_le _ _

/-- The ticks of `mdelay` last long enough for the smallest products only. -/
theorem delayTicks_lower_iff : msec * f / 1000 ≤ delayTicks f msec ↔ 24 * (msec * f / 1000) ≤ msec * f % 1000 := by
  rw [← div_1024_eq_iff]
  constructor
  · intro h
    exact h.trans (delayTicks_le f msec)
  · intro h
    have hsmall : msec * f < size := by
      unfold size
      omega
    rwa [delayTicks_of_lt hsmall]

theorem msecToTc_lower_iff (h : msec * f < size) : msec * f / 1000 ≤ msecToTc f msec ↔ f % 1000 * msec < 1000 := by
  have hsplit := mul_div_split f msec
  have hle : f / 1000 * msec < size := by omega
  rw [msecToTc, u32_of_lt hle]
  omega

/-- A task that is not the idle task, at the frequency `f`. -/
def delayingTasks (f : ℕ) : Tasks ℕ where
  kernel := { bootKernel with
    timers := { bootKernel.timers with ticksPerSec := f }
    current := 1 }
  tasks := [0, 1]
  pid := 2
  taskCreatedNum := 2

theorem delayingTasks_armed (f msec : ℕ) :
    armed (Balancer.plain ℕ) (Balancer.plain TimerId) (delayingTasks f) msec .mdelay = some (delayTicks f msec) := by
  obtain ⟨tc, htc⟩ : ∃ tc, armed (Balancer.plain ℕ) (Balancer.plain TimerId) (delayingTasks f) msec .mdelay = some tc :=
    ⟨_, rfl⟩
  rw [htc, armed_eq _ _ htc]
  rfl

/-- A second on the clock of the board's devicetree. -/
theorem mdelay_second_short : ¬ ∀ f msec : ℕ, f < size → msec < size → DurationLaw f msec := by
  intro h
  have hsecond := (h 333333343 1000 (by decide) (by decide)).lower ℕ (Balancer.plain ℕ) (Balancer.plain TimerId)
    (delayingTasks 333333343) .mdelay _ rfl (delayingTasks_armed _ _)
  exact absurd hsecond (by decide)

/-- The law holds where the product is so small that dividing by 1024 or 1000 is the same, and the remainder of the
frequency does not count; at 42 kHz and more, for a duration of 0 alone. -/
theorem duration_law_iff : DurationLaw f msec ↔
    24 * (msec * f / 1000) ≤ msec * f % 1000 ∧ f % 1000 * msec < 1000 := by
  have hmod := Nat.mod_lt (msec * f) (show 0 < 1000 by decide)
  constructor
  · intro h
    have hdelay := h.lower ℕ (Balancer.plain ℕ) (Balancer.plain TimerId) (delayingTasks f) .mdelay _ rfl
      (delayingTasks_armed f msec)
    have hdiv := delayTicks_lower_iff.mp hdelay
    have hsmall : msec * f < size := by
      unfold size
      omega
    have hsched := h.lower ℕ (Balancer.plain ℕ) (Balancer.plain TimerId) (delayingTasks f) (.createSchedTimer 0) _ rfl rfl
    rw [armed_eq (Balancer.plain ℕ) (Balancer.plain TimerId) (s := delayingTasks f) (p := .createSchedTimer 0) rfl] at hsched
    exact ⟨hdiv, (msecToTc_lower_iff hsmall).mp hsched⟩
  · rintro ⟨hdiv, hrem⟩
    have hsmall : msec * f < size := by
      unfold size
      omega
    have hdelay := delayTicks_lower_iff.mpr hdiv
    have hdelay' := delayTicks_le f msec
    have hother := (msecToTc_lower_iff hsmall).mpr hrem
    have hother' := msecToTc_le f msec
    have hsplit := mul_div_split f msec
    have hexact {τ : Type} (p : Path τ) : ticks f msec p = msec * f / 1000 := by
      cases p with
      | mdelay =>
          change delayTicks f msec = _
          omega
      | createOneshotTask pt | createRtTimer t | createSchedTimer t =>
          change msecToTc f msec = _
          omega
    constructor
    · rintro τ _ b bt s p tc rfl hp
      rw [armed_eq b bt hp, hexact]
    · rintro τ _ b bt s p q tc tc' rfl hp hq
      rw [armed_eq b bt hp, armed_eq b bt hq, hexact, hexact]
      exact Nat.le_add_right _ _

end Slos.Durations
