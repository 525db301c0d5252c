import Slos.TimerDeadline
import Slos.Sleepers

/-!
# The ring of oneshot timers

`create_oneshot_timer` takes the slots of the ring in turn and has no mark for a slot in use, while timers
expire in the order of their deadlines. The log keeps the calls and which of their timers have expired: a slot
is free when it is taken exactly when the call one turn of the ring earlier has had its timer expire.
-/

namespace Slos.OneshotRing
open Word SearchTree
open TimerOrder (TimerStep slot)
open Sleepers (Typed)

variable {τ : Type}

/-- The tasks for which `create_oneshot_timer` was called, in order, and the calls whose timers have expired. -/
structure State (τ : Type) where
  kernel : Kernel τ
  calls : List τ
  expired : List ℕ

/-- The last of `n` calls that took a slot. -/
def lastCall (n idx : ℕ) : ℕ := idx + maxOneshotTimerNum * ((n - 1 - idx) / maxOneshotTimerNum)

/-- The call whose timer expires, if it is a oneshot timer that does. -/
def expire (s : State τ) : TimerId → List ℕ
  | .oneshot idx => lastCall s.calls.length idx :: s.expired
  | _ => s.expired

/-- After `init_oneshot_timers`. -/
structure Initialised (s : Timers τ) : Prop where
  linked : Linked s
  none : ∀ idx, .oneshot idx ∉ s.queue
  idx : s.oneshotTimerIdx = 0

def start (k : Kernel τ) : State τ := ⟨k, [], []⟩

/-- The slot that is taken is not linked. -/
def NotReused (s : State τ) : TimerStep τ → Prop
  | .createOneshot _ _ => slot s.kernel.timers ∉ s.kernel.timers.queue
  | _ => True

/-- No node is in the tree twice, and the timer of every call that has not expired is in it for its task. -/
structure NoneLost (s : State τ) : Prop where
  nodup : s.kernel.timers.queue.Nodup
  armed : ∀ n task, s.calls[n]? = some task → n ∉ s.expired →
    .oneshot (n % maxOneshotTimerNum) ∈ s.kernel.timers.queue ∧
      (s.kernel.timers.timer (.oneshot (n % maxOneshotTimerNum))).pt = task

/-- The timer of the call one turn of the ring earlier has expired. -/
def TurnExpired (s : State τ) : TimerStep τ → Prop
  | .createOneshot _ _ => maxOneshotTimerNum ≤ s.calls.length →
      s.calls.length - maxOneshotTimerNum ∈ s.expired
  | _ => True

instance (s : State τ) : ∀ i, Decidable (NotReused s i)
  | .createRt _ _ => isTrue trivial
  | .createOneshot _ _ => inferInstanceAs (Decidable (_ ∉ _))
  | .irq => isTrue trivial
  | .task _ => isTrue trivial

instance (s : State τ) : ∀ i, Decidable (TurnExpired s i)
  | .createRt _ _ => isTrue trivial
  | .createOneshot _ _ => inferInstanceAs (Decidable (_ → _))
  | .irq => isTrue trivial
  | .task _ => isTrue trivial

/-- A slot is linked while the last call that took it has not expired; older calls have. -/
structure Inv (s : State τ) : Prop where
  linked : Linked s.kernel.timers
  typed : Typed s.kernel.timers
  idx : s.kernel.timers.oneshotTimerIdx = s.calls.length % maxOneshotTimerNum
  slots : ∀ idx, .oneshot idx ∈ s.kernel.timers.queue ↔
    idx < maxOneshotTimerNum ∧ idx < s.calls.length ∧ lastCall s.calls.length idx ∉ s.expired
  pt : ∀ idx, .oneshot idx ∈ s.kernel.timers.queue →
    s.calls[lastCall s.calls.length idx]? = some (s.kernel.timers.timer (.oneshot idx)).pt
  past : ∀ n ∈ s.expired, n < s.calls.length
  last : ∀ n < s.calls.length, n ∉ s.expired → lastCall s.calls.length (n % maxOneshotTimerNum) = n

theorem lastCall_mod {n idx : ℕ} (h : idx < maxOneshotTimerNum) : lastCall n idx % maxOneshotTimerNum = idx := by
  simp only [lastCall, maxOneshotTimerNum] at *
  omega

theorem lastCall_lt {n idx : ℕ} (h : idx < n) : lastCall n idx < n := by
  simp only [lastCall, maxOneshotTimerNum]
  omega

theorem lastCall_succ (n : ℕ) : lastCall (n + 1) (n % maxOneshotTimerNum) = n := by
  simp only [lastCall, maxOneshotTimerNum]
  omega

theorem lastCall_other {n idx : ℕ} (hidx : idx < maxOneshotTimerNum) (hn : idx < n)
    (hne : idx ≠ n % maxOneshotTimerNum) : lastCall (n + 1) idx = lastCall n idx := by
  simp only [lastCall, maxOneshotTimerNum] at *
  omega

theorem nextSlot (n : ℕ) : (if n % maxOneshotTimerNum + 1 = maxOneshotTimerNum then 0
    else n % maxOneshotTimerNum + 1) = (n + 1) % maxOneshotTimerNum := by
  split <;> simp only [maxOneshotTimerNum] at * <;> omega

theorem lastCall_turn {n : ℕ} (h : maxOneshotTimerNum ≤ n) :
    lastCall n (n % maxOneshotTimerNum) = n - maxOneshotTimerNum := by
  simp only [lastCall, maxOneshotTimerNum] at *
  omega

variable {s t : State τ}

theorem Inv.noneLost (h : Inv s) : NoneLost s := by
  constructor
  · exact h.linked.nodup
  · intro n task hcall hn
    obtain ⟨hlt, -⟩ := List.getElem?_eq_some_iff.mp hcall
    have hlast := h.last n hlt hn
    have hslot : .oneshot (n % maxOneshotTimerNum) ∈ s.kernel.timers.queue := by
      apply (h.slots _).mpr
      refine ⟨Nat.mod_lt _ (by decide), (Nat.mod_le _ _).trans_lt hlt, ?_⟩
      rw [hlast]
      exact hn
    have hpt := h.pt _ hslot
    rw [hlast, hcall] at hpt
    exact ⟨hslot, (Option.some.inj hpt).symm⟩

/-- The slot to be taken is free exactly when the call one turn earlier has expired. -/
theorem Inv.notReused_iff (h : Inv s) (i : TimerStep τ) : NotReused s i ↔ TurnExpired s i := by
  cases i with
  | createOneshot task tc =>
      change .oneshot s.kernel.timers.oneshotTimerIdx ∉ s.kernel.timers.queue ↔ _
      rw [h.idx, h.slots]
      have hmod : s.calls.length % maxOneshotTimerNum < maxOneshotTimerNum := Nat.mod_lt _ (by decide)
      constructor
      · intro hfree hturn
        by_contra hmem
        apply hfree
        rw [lastCall_turn hturn]
        exact ⟨hmod, hmod.trans_le hturn, hmem⟩
      · rintro hturn ⟨-, hlt, hmem⟩
        have hle : maxOneshotTimerNum ≤ s.calls.length := by
          by_contra hlt'
          rw [Nat.mod_eq_of_lt (Nat.not_le.mp hlt')] at hlt
          exact lt_irrefl _ hlt
        rw [lastCall_turn hle] at hmem
        exact hmem (hturn hle)
  | _ => exact Iff.rfl

theorem start_inv {k : Kernel τ} (h : Initialised k.timers) : Inv (start k) := by
  constructor
  · exact h.linked
  · exact fun idx hidx => absurd hidx (h.none idx)
  · exact h.idx
  · intro idx
    exact iff_of_false (h.none idx) fun hlt => Nat.not_lt_zero _ hlt.2.1
  · exact fun idx hidx => absurd hidx (h.none idx)
  · exact fun n hn => absurd hn List.not_mem_nil
  · exact fun n hn => absurd hn (Nat.not_lt_zero n)

variable [DecidableEq τ] (b : Balancer τ) (bt : Balancer TimerId)

/-- A step of the timers, with the log of calls and expiries. -/
def step (s : State τ) (i : TimerStep τ) : Option (State τ) :=
  (TimerDeadline.step b bt s.kernel i).map fun k => match i with
    | .createOneshot task _ => ⟨k, s.calls ++ [task], s.expired⟩
    | .irq => ⟨k, s.calls, (s.kernel.timers.rbLeftmost.map (expire s)).getD s.expired⟩
    | _ => ⟨k, s.calls, s.expired⟩

omit [DecidableEq τ] in
/-- The ring is not concerned. -/
theorem Inv.kept {k : Kernel τ} (h : Inv s) (hl : Linked k.timers)
    (hmem : ∀ idx, .oneshot idx ∈ k.timers.queue ↔ .oneshot idx ∈ s.kernel.timers.queue)
    (htimer : ∀ idx, .oneshot idx ∈ s.kernel.timers.queue →
      k.timers.timer (.oneshot idx) = s.kernel.timers.timer (.oneshot idx))
    (hidx : k.timers.oneshotTimerIdx = s.kernel.timers.oneshotTimerIdx) : Inv { s with kernel := k } := by
  constructor
  · exact hl
  · intro idx hin
    have hold := (hmem idx).mp hin
    rw [htimer idx hold]
    exact h.typed idx hold
  · exact hidx.trans h.idx
  · exact fun idx => (hmem idx).trans (h.slots idx)
  · intro idx hin
    have hold := (hmem idx).mp hin
    rw [htimer idx hold]
    exact h.pt idx hold
  · exact h.past
  · exact h.last

omit [DecidableEq τ] in
theorem createOneshot_inv {task : τ} {tc : ℕ} (h : Inv s) (htc : tc < size)
    (hfree : slot s.kernel.timers ∉ s.kernel.timers.queue) :
    Inv ⟨{ s.kernel with timers := createOneshotTimer bt s.kernel.timers task tc }, s.calls ++ [task], s.expired⟩ := by
  have hins := createOneshotTimer_inserted bt h.linked task htc hfree
  obtain ⟨hkeeps, -⟩ := Sleepers.createOneshotTimer_keeps bt h.linked task htc hfree
  have hlen : (s.calls ++ [task]).length = s.calls.length + 1 := by simp
  have hmod : s.calls.length % maxOneshotTimerNum < maxOneshotTimerNum := Nat.mod_lt _ (by decide)
  have hself : (createOneshotTimer bt s.kernel.timers task tc).timer (slot s.kernel.timers) = _ :=
    setTimer_self s.kernel.timers (slot s.kernel.timers) _
  have hmem (idx : ℕ) : .oneshot idx ∈ (createOneshotTimer bt s.kernel.timers task tc).queue ↔
      idx = s.calls.length % maxOneshotTimerNum ∨ .oneshot idx ∈ s.kernel.timers.queue := by
    rw [hins.perm.mem_iff, List.mem_cons, h.idx, TimerId.oneshot.injEq]
  have hsucc : lastCall (s.calls.length + 1) (s.calls.length % maxOneshotTimerNum) = s.calls.length := lastCall_succ _
  have hnew : s.calls.length ∉ s.expired := fun hn => lt_irrefl _ (h.past _ hn)
  have hold {idx : ℕ} (hin : .oneshot idx ∈ s.kernel.timers.queue) :
      lastCall (s.calls.length + 1) idx = lastCall s.calls.length idx := by
    obtain ⟨hlt, hn, -⟩ := (h.slots idx).mp hin
    apply lastCall_other hlt hn
    rintro rfl
    rw [← h.idx] at hin
    exact hfree hin
  constructor
  · exact hins.linked
  · exact hkeeps.typed h.typed
  · change (if s.kernel.timers.oneshotTimerIdx + 1 = maxOneshotTimerNum then 0
      else s.kernel.timers.oneshotTimerIdx + 1) = _
    rw [h.idx, hlen]
    exact nextSlot s.calls.length
  · intro idx
    dsimp only
    rw [hmem, hlen]
    by_cases hidx : idx = s.calls.length % maxOneshotTimerNum
    · rw [hidx, hsucc]
      exact iff_of_true (Or.inl rfl) ⟨hmod, (Nat.mod_le _ _).trans_lt (Nat.lt_succ_self _), hnew⟩
    · rw [h.slots]
      constructor
      · rintro (he | ⟨hlt, hn, hexp⟩)
        · exact absurd he hidx
        · rw [lastCall_other hlt hn hidx]
          exact ⟨hlt, hn.trans (Nat.lt_succ_self _), hexp⟩
      · rintro ⟨hlt, hn, hexp⟩
        have hn' : idx < s.calls.length := by
          rcases Nat.lt_succ_iff_lt_or_eq.mp hn with hn | he
          · exact hn
          · exact absurd (he.trans (Nat.mod_eq_of_lt (he ▸ hlt)).symm) hidx
        rw [lastCall_other hlt hn' hidx] at hexp
        exact Or.inr ⟨hlt, hn', hexp⟩
  · intro idx hin
    dsimp only at hin ⊢
    rw [hlen]
    rcases (hmem idx).mp hin with rfl | hin'
    · rw [hsucc, List.getElem?_append_right le_rfl, Nat.sub_self, ← h.idx]
      exact congrArg some (congrArg TimerStruct.pt hself).symm
    · have hlt := lastCall_lt ((h.slots idx).mp hin').2.1
      rw [hold hin', List.getElem?_append_left hlt, hkeeps.timer _ hin']
      exact h.pt idx hin'
  · intro n hn
    dsimp only
    rw [hlen]
    exact (h.past n hn).trans (Nat.lt_succ_self _)
  · intro n hn hexp
    dsimp only at hn hexp ⊢
    rw [hlen] at hn ⊢
    rcases Nat.lt_succ_iff_lt_or_eq.mp hn with hn | rfl
    · have hlast := h.last n hn hexp
      have hin : .oneshot (n % maxOneshotTimerNum) ∈ s.kernel.timers.queue := by
        apply (h.slots _).mpr
        refine ⟨Nat.mod_lt _ (by decide), (Nat.mod_le _ _).trans_lt hn, ?_⟩
        rw [hlast]
        exact hexp
      rw [hold hin]
      exact hlast
    · exact hsucc

theorem irq_inv {k : Kernel τ} (h : Inv s) (hk : timerIrq b bt s.kernel = some k) :
    Inv ⟨k, s.calls, (s.kernel.timers.rbLeftmost.map (expire s)).getD s.expired⟩ := by
  obtain ⟨pct, hirq⟩ := timerIrq_interrupted bt b hk h.linked
  rw [hirq.expired, Option.map_some, Option.getD_some]
  have htyped : Typed k.timers := fun idx hidx => (hirq.type _).trans (h.typed idx (hirq.mem bt hidx))
  have hpt (idx : ℕ) (hin : .oneshot idx ∈ s.kernel.timers.queue) :
      (k.timers.timer (.oneshot idx)).pt = (s.kernel.timers.timer (.oneshot idx)).pt := by
    rcases hirq.pt (.oneshot idx) with hsame | ⟨rfl, hsched⟩
    · exact hsame
    · exact absurd (hsched.symm.trans (h.typed idx hin)) (by decide)
  have hpts (idx : ℕ) (hin : .oneshot idx ∈ k.timers.queue) :
      s.calls[lastCall s.calls.length idx]? = some (k.timers.timer (.oneshot idx)).pt := by
    rw [hpt idx (hirq.mem bt hin)]
    exact h.pt idx (hirq.mem bt hin)
  by_cases hring : ∃ idx, pct = .oneshot idx
  · obtain ⟨idx, rfl⟩ := hring
    have hin := h.linked.leftmost_mem hirq.expired
    obtain ⟨hlt, hn, hexp⟩ := (h.slots idx).mp hin
    have hmem (u : TimerId) : u ∈ k.timers.queue ↔ u ≠ .oneshot idx ∧ u ∈ s.kernel.timers.queue := by
      rw [hirq.queue.mem_iff, if_pos (h.typed idx hin)]
      exact h.linked.nodup.mem_erase_iff
    constructor
    · exact hirq.linked
    · exact htyped
    · exact hirq.ring.trans h.idx
    · intro idx'
      dsimp only [expire]
      rw [hmem, h.slots, List.mem_cons, not_or]
      constructor
      · rintro ⟨hne, hlt', hn', hexp'⟩
        refine ⟨hlt', hn', fun he => hne ?_, hexp'⟩
        rw [← lastCall_mod (n := s.calls.length) hlt', he, lastCall_mod hlt]
      · rintro ⟨hlt', hn', hne, hexp'⟩
        refine ⟨fun he => hne ?_, hlt', hn', hexp'⟩
        rw [TimerId.oneshot.inj he]
    · exact hpts
    · intro n hn'
      rcases List.mem_cons.mp hn' with rfl | hn'
      · exact lastCall_lt hn
      · exact h.past n hn'
    · exact fun n hlt' hexp' => h.last n hlt' fun hn' => hexp' (List.mem_cons_of_mem _ hn')
  · have hmem (idx : ℕ) : .oneshot idx ∈ k.timers.queue ↔ .oneshot idx ∈ s.kernel.timers.queue := by
      rw [hirq.queue.mem_iff]
      split
      · exact List.mem_erase_of_ne fun he => hring ⟨idx, he.symm⟩
      · exact Iff.rfl
    have hexpire : expire s pct = s.expired := by
      cases pct with
      | oneshot idx => exact absurd ⟨idx, rfl⟩ hring
      | _ => rfl
    rw [hexpire]
    exact ⟨hirq.linked, htyped, hirq.ring.trans h.idx, fun idx => (hmem idx).trans (h.slots idx), hpts, h.past, h.last⟩

theorem step_inv {i : TimerStep τ} (h : Inv s) (hc : TurnExpired s i) (ht : step b bt s i = some t) : Inv t := by
  obtain ⟨k, hk, rfl⟩ := Option.map_eq_some_iff.mp ht
  cases i with
  | createRt task msec =>
      cases hk
      have hins := createRtTimer_inserted bt h.linked task msec
      have hkeeps := Sleepers.createRtTimer_keeps bt h.linked task msec
      apply h.kept hins.linked
      · intro idx
        rw [hins.perm.mem_iff, List.mem_cons]
        exact or_iff_right nofun
      · exact fun idx hin => hkeeps.timer _ hin
      · rfl
  | createOneshot task tc =>
      simp only [TimerDeadline.step, Option.ite_none_right_eq_some, Option.some.injEq] at hk
      obtain ⟨htc, rfl⟩ := hk
      exact createOneshot_inv bt h htc ((h.notReused_iff (.createOneshot task tc)).mpr hc)
  | irq => exact irq_inv b bt h hk
  | task k₁ =>
      cases hk
      exact h.kept h.linked (fun _ => Iff.rfl) (fun _ _ => rfl) rfl

/-- From `init_oneshot_timers` on, the slots that are taken are never linked, and no delay is lost, exactly when at
every call the timer of the call one turn of the ring earlier has expired. -/
theorem slots_not_reused_iff {k : Kernel τ} (h : Initialised k.timers) (is : List (TimerStep τ)) :
    (Machine.StepsMeet (step b bt) NotReused (start k) is ∧ Machine.Always (step b bt) NoneLost (start k) is) ↔
      Machine.StepsMeet (step b bt) TurnExpired (start k) is := by
  have hturn (s : State τ) (i : TimerStep τ) (t : State τ) (hs : Inv s) (hc : TurnExpired s i)
      (ht : step b bt s i = some t) : Inv t := step_inv b bt hs hc ht
  constructor
  · rintro ⟨hfree, -⟩
    apply Machine.stepsMeet_of_stepsMeet Inv _ _ (start_inv h) hfree
    · exact fun s i t hs hc => hturn s i t hs ((hs.notReused_iff i).mp hc)
    · exact fun s i _ hs hc _ => (hs.notReused_iff i).mp hc
  · intro hc
    constructor
    · exact Machine.stepsMeet_of_stepsMeet Inv hturn (fun s i _ hs hc _ => (hs.notReused_iff i).mpr hc)
        (start_inv h) hc
    · exact Machine.always_of_stepsMeet Inv (fun s hs => hs.noneLost) hturn (start_inv h) hc

theorem bootScheduled_initialised : Initialised TimerOrder.bootScheduled.timers := by
  constructor
  · exact (TimerOrder.start_armed TimerOrder.bootTimers_start).linked
  · intro idx
    rw [TimerOrder.bootTimers_start.root]
    simp
  · rfl

/-- Two turns of the ring in which every delay is over before the next one. -/
theorem slots_not_reused_one_by_one :
    Machine.StepsMeet (step (Balancer.plain ℕ) (Balancer.plain TimerId)) NotReused (start TimerOrder.bootScheduled)
        (List.replicate 64 [.createOneshot 2 0, .irq]).flatten ∧
      Machine.Always (step (Balancer.plain ℕ) (Balancer.plain TimerId)) NoneLost (start TimerOrder.bootScheduled)
        (List.replicate 64 [.createOneshot 2 0, .irq]).flatten :=
  (slots_not_reused_iff (Balancer.plain ℕ) (Balancer.plain TimerId) bootScheduled_initialised _).mpr
    (by decide +kernel)

/-- Two tasks sleep, one for a long time and the other 32 times for a short one: the last of these takes the slot
of the long delay. -/
theorem slot_reused : ¬ Machine.StepsMeet (step (Balancer.plain ℕ) (Balancer.plain TimerId)) NotReused
    (start TimerOrder.bootScheduled)
    (.createOneshot 1 4000000000 :: (List.replicate 31 [.createOneshot 2 0, .irq]).flatten ++ [.createOneshot 2 0]) := by
  decide +kernel

end Slos.OneshotRing
