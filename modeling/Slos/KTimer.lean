import Slos.RunQueue

/-!
# Kernel timers

`ktimer.c`: the timer tree, its update on an interrupt and the creation of timers. A timer is keyed
by its remaining tick count `tc`, which `update_timer_tree` rewrites in place. `done t` is the flag
of the task a timer belongs to.
-/

namespace Slos
open Word SearchTree

variable {τ : Type}

def maxOneshotTimerNum : ℕ := 32

namespace Timers

def tc (s : Timers τ) (t : TimerId) : ℕ := (s.timer t).tc

/-- The timer tree in order. -/
def queue (s : Timers τ) : List TimerId := s.root.inorder

def setTimer (s : Timers τ) (t : TimerId) (p : TimerStruct τ) : Timers τ :=
  { s with timer := Function.update s.timer t p }

def setTc (s : Timers τ) (t : TimerId) (v : ℕ) : Timers τ :=
  s.setTimer t { s.timer t with tc := v }

/-- `MIN_TIME_INT`. -/
def minTimeInt (s : Timers τ) : ℕ := s.ticksPerSec >>> 10

end Timers

/-- `insert_timer` turns left at an entry whose tick count is above `value`. -/
def timerLeft (s : Timers τ) (value : ℕ) (entry : TimerId) : Bool := decide (value < s.tc entry)

/-- `tc - elapsed`, but not below `MIN_TIME_INT`. -/
def remaining (s : Timers τ) (tc elapsed : ℕ) : ℕ :=
  let temp := usub tc elapsed
  if temp < s.minTimeInt then s.minTimeInt else temp

/-- The body of the loop of `update_timer_tree`. -/
def updateTimer (done : τ → ℕ) (elapsed : ℕ) (s : Timers τ) (pct : TimerId) : Timers τ :=
  if s.rbLeftmost = some pct ∧ done (s.timer pct).pt ≠ 0 then s.setTc pct (s.timer pct).intvl
  else s.setTc pct (remaining s (s.tc pct) elapsed)

variable (b : Balancer TimerId)

def insertTimer (s : Timers τ) (pts : TimerId) : Timers τ :=
  let goLeft := timerLeft s (s.tc pts)
  { s with
    root := b.insert goLeft pts s.root
    rbLeftmost := if s.root.allLeft goLeft then some pts else s.rbLeftmost }

def delTimer (s : Timers τ) (pts : TimerId) : Timers τ :=
  { s with
    root := b.erase pts s.root
    rbLeftmost := if s.rbLeftmost = some pts then s.root.next pts else s.rbLeftmost }

/-- The loop visits the tree from `rb_leftmost` on; then the leftmost timer is put in its new
place. With `rb_leftmost` at `NULL` there is no timer to put back. -/
def updateTimerTree (done : τ → ℕ) (s : Timers τ) (elapsed : ℕ) : Option (Timers τ) :=
  s.rbLeftmost.map fun pct =>
    let s := (s.root.walk pct).foldl (updateTimer done elapsed) s
    insertTimer b (delTimer b s pct) pct

/-- The ticks of `create_rt_timer` and `create_sched_timer`. -/
def msecToTc (ticksPerSec msec : ℕ) : ℕ := u32 (ticksPerSec / 1000 * msec)

/-- `kmalloc` returns a fresh timer. -/
def createRtTimer (s : Timers τ) (rtTask : τ) (msec : ℕ) : Timers τ :=
  let tc := msecToTc s.ticksPerSec msec
  let s' := s.setTimer (.rt s.rtCreated) { tc := tc, intvl := tc, pt := rtTask, type := .realtimeTimer }
  insertTimer b { s' with rtCreated := s.rtCreated + 1 } (.rt s.rtCreated)

def createOneshotTimer (s : Timers τ) (oneshotTask : τ) (tc : ℕ) : Timers τ :=
  let slot := .oneshot s.oneshotTimerIdx
  let s' := insertTimer b
    (s.setTimer slot { tc := tc, intvl := tc, pt := oneshotTask, type := .oneshotTimer }) slot
  let idx := s'.oneshotTimerIdx + 1
  { s' with oneshotTimerIdx := if idx = maxOneshotTimerNum then 0 else idx }

def createSchedTimer (s : Timers τ) (cfsSchedTask : τ) (msec : ℕ) : Timers τ :=
  let tc := msecToTc s.ticksPerSec msec
  insertTimer b (s.setTimer .sched { tc := tc, intvl := tc, pt := cfsSchedTask, type := .schedTimer })
    .sched

def initTimertree (s : Timers τ) : Timers τ := { s with root := .nil, rbLeftmost := none }

/-- `init_timer` gives the leftmost timer to the current task and starts the private timer on it. -/
def initTimer (s : Timers τ) (clkfreq : ℕ) (thisCurrent : τ) : Timers τ :=
  let s := { s with ticksPerSec := clkfreq }
  match s.rbLeftmost with
  | none => s
  | some pct =>
      { s.setTimer pct { s.timer pct with pt := thisCurrent } with load := s.tc pct }

/-- The tick count the loop of `update_timer_tree` gives a timer. -/
def updatedTc (done : τ → ℕ) (elapsed : ℕ) (s : Timers τ) (t : TimerId) : ℕ :=
  if s.rbLeftmost = some t ∧ done (s.timer t).pt ≠ 0 then (s.timer t).intvl
  else remaining s (s.tc t) elapsed

/-- `s'` differs from `s` only in the tick counts. -/
structure TcOnly (s s' : Timers τ) : Prop where
  root : s'.root = s.root
  rbLeftmost : s'.rbLeftmost = s.rbLeftmost
  oneshotTimerIdx : s'.oneshotTimerIdx = s.oneshotTimerIdx
  rtCreated : s'.rtCreated = s.rtCreated
  ticksPerSec : s'.ticksPerSec = s.ticksPerSec
  load : s'.load = s.load
  timer : ∀ t, s'.timer t = { s.timer t with tc := s'.tc t }

theorem TcOnly.refl (s : Timers τ) : TcOnly s s := ⟨rfl, rfl, rfl, rfl, rfl, rfl, fun _ => rfl⟩

theorem TcOnly.trans {s s' s'' : Timers τ} (h : TcOnly s s') (h' : TcOnly s' s'') :
    TcOnly s s'' := by
  refine ⟨h'.root.trans h.root, h'.rbLeftmost.trans h.rbLeftmost,
    h'.oneshotTimerIdx.trans h.oneshotTimerIdx, h'.rtCreated.trans h.rtCreated,
    h'.ticksPerSec.trans h.ticksPerSec, h'.load.trans h.load, fun t => ?_⟩
  rw [h'.timer t, h.timer t]

theorem TcOnly.updatedTc {s s' : Timers τ} (h : TcOnly s s') (done : τ → ℕ) (elapsed : ℕ)
    {t : TimerId} (ht : s'.tc t = s.tc t) :
    Slos.updatedTc done elapsed s' t = Slos.updatedTc done elapsed s t := by
  have hmin : s'.minTimeInt = s.minTimeInt := congrArg (· >>> 10) h.ticksPerSec
  unfold Slos.updatedTc remaining
  rw [h.rbLeftmost, h.timer t, ht, hmin]

theorem setTc_tcOnly (s : Timers τ) (t : TimerId) (v : ℕ) : TcOnly s (s.setTc t v) := by
  refine ⟨rfl, rfl, rfl, rfl, rfl, rfl, fun u => ?_⟩
  by_cases hu : u = t
  · subst hu
    simp [Timers.setTc, Timers.setTimer, Timers.tc]
  · simp [Timers.setTc, Timers.setTimer, Timers.tc, hu]

theorem setTc_tc (s : Timers τ) (t : TimerId) (v : ℕ) (u : TimerId) :
    (s.setTc t v).tc u = if u = t then v else s.tc u := by
  by_cases hu : u = t
  · subst hu
    simp [Timers.setTc, Timers.setTimer, Timers.tc]
  · simp [Timers.setTc, Timers.setTimer, Timers.tc, hu]

theorem updateTimer_eq (done : τ → ℕ) (elapsed : ℕ) (s : Timers τ) (t : TimerId) :
    updateTimer done elapsed s t = s.setTc t (updatedTc done elapsed s t) := by
  unfold updateTimer updatedTc
  split <;> rfl

theorem foldl_updateTimer_tcOnly (done : τ → ℕ) (elapsed : ℕ) (ts : List TimerId) (s : Timers τ) :
    TcOnly s (ts.foldl (updateTimer done elapsed) s) := by
  induction ts generalizing s with
  | nil => exact TcOnly.refl s
  | cons t ts ih =>
      rw [List.foldl_cons, updateTimer_eq]
      exact (setTc_tcOnly s t _).trans (ih _)

/-- The loop of `update_timer_tree` over distinct timers. -/
theorem foldl_updateTimer_tc (done : τ → ℕ) (elapsed : ℕ) {ts : List TimerId} (hnd : ts.Nodup) (s : Timers τ)
    (u : TimerId) : (ts.foldl (updateTimer done elapsed) s).tc u =
      if u ∈ ts then updatedTc done elapsed s u else s.tc u := by
  induction ts generalizing s with
  | nil => rfl
  | cons t ts ih =>
      obtain ⟨ht, hnd'⟩ := List.nodup_cons.mp hnd
      have hone := setTc_tcOnly s t (updatedTc done elapsed s t)
      rw [List.foldl_cons, updateTimer_eq, ih hnd']
      by_cases hu : u = t
      · subst hu
        rw [if_neg ht, if_pos List.mem_cons_self, setTc_tc, if_pos rfl]
      · have hkeep : (s.setTc t (updatedTc done elapsed s t)).tc u = s.tc u := by
          rw [setTc_tc, if_neg hu]
        rw [hone.updatedTc done elapsed hkeep, hkeep]
        simp only [List.mem_cons, hu, false_or]

theorem remaining_mono (s : Timers τ) {tc tc' elapsed : ℕ} (h : elapsed ≤ tc) (htc : tc ≤ tc')
    (hlt : tc' < size) : remaining s tc elapsed ≤ remaining s tc' elapsed := by
  unfold remaining
  rw [usub_of_le (htc.trans_lt hlt) h, usub_of_le hlt (h.trans htc)]
  dsimp only
  split_ifs <;> omega

theorem insertTimer_queue {s : Timers τ} (hnd : s.queue.Nodup) {t : TimerId} (ht : t ∉ s.queue) :
    (insertTimer b s t).queue = (s.root.link (timerLeft s (s.tc t)) t).inorder :=
  Balancer.inorder_insert hnd ht

theorem insertTimer_leftmost {s : Timers τ} (hnd : s.queue.Nodup) {t : TimerId}
    (ht : t ∉ s.queue) (hcached : s.rbLeftmost = s.queue.head?) :
    (insertTimer b s t).rbLeftmost = (insertTimer b s t).queue.head? := Balancer.head_insert hnd ht hcached

theorem insertTimer_perm {s : Timers τ} (hnd : s.queue.Nodup) {t : TimerId} (ht : t ∉ s.queue) :
    (insertTimer b s t).queue.Perm (t :: s.queue) := Balancer.perm_insert hnd ht

/-- Inserting a timer does not change whether the tree is in order. -/
theorem insertTimer_sorted_iff {s : Timers τ} (hnd : s.queue.Nodup) {t : TimerId}
    (ht : t ∉ s.queue) : ((insertTimer b s t).queue.Pairwise fun u v => s.tc u ≤ s.tc v) ↔
      s.queue.Pairwise fun u v => s.tc u ≤ s.tc v := by
  rw [insertTimer_queue b hnd ht]
  apply BinTree.pairwise_link s.tc
  · exact fun u hu => (of_decide_eq_true hu : s.tc t < s.tc u).le
  · exact fun u hu => Nat.not_lt.mp (of_decide_eq_false hu)
  · exact fun u v huv hu => decide_eq_true ((of_decide_eq_true hu : s.tc t < s.tc u).trans_le huv)

theorem delTimer_queue {s : Timers τ} (hnd : s.queue.Nodup) {t : TimerId} (ht : t ∈ s.queue) :
    (delTimer b s t).queue = s.queue.erase t :=
  b.inorder_erase t _ hnd ht

theorem delTimer_leftmost {s : Timers τ} (hnd : s.queue.Nodup) {t : TimerId} (ht : t ∈ s.queue)
    (hcached : s.rbLeftmost = s.queue.head?) :
    (delTimer b s t).rbLeftmost = (delTimer b s t).queue.head? := by
  rw [delTimer_queue b hnd ht, delTimer, hcached]
  exact BinTree.head_erase ht

/-- The update changes tick counts only, also where timers are linked twice. -/
theorem updateTimerTree_timer {done : τ → ℕ} {s s' : Timers τ} {elapsed : ℕ}
    (h : updateTimerTree b done s elapsed = some s') (u : TimerId) :
    s'.timer u = { s.timer u with tc := s'.tc u } := by
  obtain ⟨pct, -, rfl⟩ := Option.map_eq_some_iff.mp h
  exact (foldl_updateTimer_tcOnly done elapsed (s.root.walk pct) s).timer u

theorem updateTimerTree_spec {done : τ → ℕ} {s s' : Timers τ} {elapsed : ℕ}
    (hnd : s.queue.Nodup) (hcached : s.rbLeftmost = s.queue.head?)
    (h : updateTimerTree b done s elapsed = some s') :
    ∃ pct s₁, s.rbLeftmost = some pct ∧ TcOnly s s₁ ∧
      (∀ u, s₁.tc u = if u ∈ s.queue then updatedTc done elapsed s u else s.tc u) ∧
      s' = insertTimer b (delTimer b s₁ pct) pct := by
  obtain ⟨pct, hpct, rfl⟩ := Option.map_eq_some_iff.mp h
  have hwalk : s.root.walk pct = s.queue := BinTree.walk_head (hcached.symm.trans hpct)
  have honly := foldl_updateTimer_tcOnly done elapsed s.queue s
  have htc := foldl_updateTimer_tc done elapsed hnd s
  rw [← hwalk] at honly htc
  exact ⟨pct, _, hpct, honly, hwalk ▸ htc, rfl⟩

end Slos
