import Slos.KernelRefine
import Slos.QueueMembers

/-!
# The timer interrupt runs as the atomic model says

The functions of `KernelCode` that take locks, on a processor that nothing interrupts: each ends with every lock free again,
in a memory that shows what the atomic function gives.
-/

namespace Slos.KernelCode
open Interruptible Straight Code RbTree
open SearchTree (BinTree Balancer treeRounds treeRounds_le)
open QueueMembers (Unmoved place_eq_iff switchToTimer_unmoved updateCurrent_unmoved expiring)

variable {τ α : Type} [DecidableEq τ] {m : Mem τ} {k : Kernel τ} {o : Others τ} {p : τ} {B n : ℕ} {ws : List τ}

/-- The processor is in the current task, with interrupts on and no lock held. -/
def quiet (m : Mem τ) : Solo (Mem τ) Lock τ := ⟨m, ∅, m.current, false⟩

/-- From `m` the program ends alone, in the current task, with interrupts on and no lock held, and shows `k`. -/
def Computes (B : ℕ) (c : Prog τ Unit) (m : Mem τ) (k : Kernel τ) (o : Others τ) : Prop :=
  c.Ends B (fun _ s => Shows s.mem k o ∧ s = quiet s.mem) (quiet m)

theorem Computes.bind {c : Prog τ Unit} {g : Unit → Prog τ Unit} {k' : Kernel τ} (hc : Computes B c m k o)
    (hg : ∀ m, Shows m k o → Computes B (g ()) m k' o) : Computes B (c >>= g) m k' o := by
  refine Code.ends_bind.mpr (Code.Ends.mono hc ?_)
  rintro ⟨⟩ s ⟨h, hs⟩
  rw [hs]
  exact hg s.mem h

/-- A program that takes no lock and stays in its task. -/
theorem computes_lines {c : Body τ Unit} (hc : c.Ends B (fun _ m' => Shows m' k o) m) (hcurrent : k.current = m.current) :
    Computes B (lines c) m k o := by
  refine ends_lift.mpr (hc.mono fun _ m' h => ⟨h, ?_⟩)
  simp only [quiet, ← hcurrent, h.current]

theorem computes_pure (h : Shows m k o) : Computes B (pure ()) m k o := (Code.ends_pure _).mpr ⟨h, rfl⟩

theorem computes_fetch {f : Mem τ → α} {g : α → Prog τ Unit} (hg : Computes B (g (f m)) m k o) :
    Computes B (load f >>= g) m k o := Code.ends_bind.mpr (ends_lift.mpr ((Straight.ends_fetch f).mpr hg))

theorem computes_task {t : τ} {f : Task τ → α} {g : α → Prog τ Unit} (hg : Computes B (g (f (m.task t))) m k o) :
    Computes B (lines (task t f) >>= g) m k o := computes_fetch hg

theorem computes_follow {a : α} {g : α → Prog τ Unit} (hg : Computes B (g a) m k o) :
    Computes B (follow (some a) >>= g) m k o :=
  Code.ends_bind.mpr (ends_lift.mpr ((ends_deref a).mpr hg))

theorem computes_switchTo {dest : τ} {g : Unit → Prog τ Unit}
    (hg : (g ()).Ends B (fun _ s => Shows s.mem k o ∧ s = quiet s.mem) { quiet m with here := dest }) :
    Computes B (switchTo m.current dest >>= g) m k o := Code.ends_bind.mpr ((ends_switchTo _ _).mpr ⟨rfl, hg⟩)

theorem erase_insert_lock (l : Lock) : (insert l ∅ : Finset Lock).erase l = ∅ := by cases l <;> rfl

/-- What runs under a lock and stays in its task. -/
theorem computes_locked {l : Lock} {c : Body τ α} {d : α → Body τ Unit} (hc : (c >>= d).Ends B (fun _ m' => Shows m' k o) m)
    (hcurrent : k.current = m.current) : Computes B (do lock l; let a ← lines c; lines (d a); unlock l) m k o := by
  rw [Straight.ends_bind] at hc
  simp only [Computes, quiet, Code.ends_bind, ends_lock, ends_lift, ends_unlock]
  refine ⟨by simp, hc.mono fun _ m' h => h.mono fun _ m' h => ⟨h, ?_⟩⟩
  rw [erase_insert_lock, ← hcurrent, h.current]

section WaitQueue

/-- The `next` pointers lead through `ws` from a pointer on. -/
def Waits (task : τ → Task τ) : Option τ → List τ → Prop
  | p, [] => p = none
  | p, w :: ws => p = some w ∧ Waits task (task w).waitNext ws

omit [DecidableEq τ] in
theorem waits_congr {task task' : τ → Task τ} (heq : ∀ t, (task' t).waitNext = (task t).waitNext) {q : Option τ}
    (h : Waits task q ws) : Waits task' q ws := by
  induction ws generalizing q with
  | nil => exact h
  | cons w ws ih => exact ⟨h.1, ih (by rw [heq]; exact h.2)⟩

omit [DecidableEq τ] in
theorem Shows.setWq (h : Shows m k o) (f : τ → Task τ) (wq : WaitQueue τ) :
    Shows { m with task := f, wq := wq } { k with task := f, wq := wq } o := by
  obtain ⟨rtCreated, hr, hp⟩ := h
  exact .mk (m := { m with task := f, wq := wq }) rtCreated hr hp

theorem shows_setPrevNext (h : Shows m k o) (pt : τ) (v : Option τ) :
    Shows (setPrevNext m pt v) (Slos.setPrevNext k pt v) o := by
  rw [setPrevNext, Slos.setPrevNext, h.task]
  cases (m.task pt).waitPrev with
  | none => exact h
  | some l =>
      cases l with
      | head =>
          dsimp only
          rw [h.wq]
          exact h.setWq _ _
      | task q =>
          dsimp only [Kernel.setTask]
          rw [h.task]
          exact h.setTasks _

theorem shows_setNextPrev (h : Shows m k o) (pt : τ) :
    Shows (if (m.task pt).waitNext ≠ none then setNextPrev m pt (m.task pt).waitPrev else m) (Slos.setNextPrev k pt) o := by
  rw [setNextPrev, Slos.setNextPrev, h.task]
  cases (m.task pt).waitNext with
  | none => exact h
  | some q =>
      dsimp only [Kernel.setTask]
      rw [h.task]
      exact h.setTasks _

theorem ends_unlinkWait (h : Shows m k o) (pt : τ) :
    (unlinkWait pt).Ends B (fun _ m' => Shows m' (Slos.unlinkWait k pt) o) m := by
  have hlast {m' : Mem τ} {k' : Kernel τ} (h : Shows m' k' o) : (do
      setTask pt fun t => { t with waitPrev := none }
      setTask pt fun t => { t with waitNext := none }
      store fun m => { m with wq := { m.wq with count := m.wq.count - 1 } } : Body τ Unit).Ends B (fun _ m' => Shows m'
        { k'.setTask pt { k'.task pt with waitPrev := none, waitNext := none } with
          wq := { k'.wq with count := k'.wq.count - 1 } } o) m' := by
    have hset := h.setWq (k'.setTask pt { k'.task pt with waitPrev := none, waitNext := none }).task
      { k'.wq with count := k'.wq.count - 1 }
    obtain ⟨rtCreated, hr, hp⟩ := h
    simp only [setTask, Straight.ends_bind, Straight.ends_store]
    simpa [view, Kernel.setTask] using hset
  have hprev := shows_setPrevNext h pt (k.task pt).waitNext
  have hnext := shows_setNextPrev hprev pt
  rw [h.task] at hprev hnext
  have hdone := hlast hnext
  simp only [setTask, Straight.ends_bind, Straight.ends_store] at hdone
  simp only [unlinkWait, setTask, Straight.ends_bind, Straight.ends_ite, Straight.ends_store, ends_task]
  rw [Slos.unlinkWait, h.task]
  split_ifs with hne
  · rw [if_pos hne] at hdone
    exact hdone
  · rw [if_neg hne] at hdone
    exact hdone

theorem ends_removeLoop (hn : ws.length < n) (h : Shows m k o) {cur : Option τ} (hw : Waits k.task cur ws) :
    LoopEnds B n (removeRound p) cur (fun _ m' => Shows m' (match ws.find? (· == p) with
      | none => k
      | some pt => Slos.unlinkWait k pt) o) m := by
  obtain ⟨n, rfl⟩ := Nat.exists_eq_succ_of_ne_zero (Nat.ne_zero_of_lt hn)
  induction ws generalizing cur n with
  | nil =>
      obtain rfl : cur = none := hw
      exact loopEnds_succ.mpr ((Straight.ends_pure _).mpr h)
  | cons w ws ih =>
      obtain ⟨rfl, hw⟩ := hw
      rw [List.length_cons] at hn
      obtain ⟨n, rfl⟩ := Nat.exists_eq_succ_of_ne_zero (show n ≠ 0 by omega)
      refine loopEnds_succ.mpr ?_
      simp only [removeRound, Straight.ends_bind, Straight.ends_ite, ends_task, Straight.ends_pure, List.find?_cons]
      by_cases hwp : w = p
      · rw [if_pos hwp, beq_iff_eq.mpr hwp]
        exact ends_unlinkWait h w
      · rw [if_neg hwp, beq_eq_false_iff_ne.mpr hwp, ← h.task]
        exact ih hw n (by omega)

theorem findWait_eq {cur : Option τ} (hlen : ws.length < n) (hw : Waits k.task cur ws) :
    cur.bind (LinkedNodes.findFrom (fun t => (k.task t).waitNext) (· == p) n) = ws.find? (· == p) := by
  induction ws generalizing cur n with
  | nil =>
      obtain rfl : cur = none := hw
      rfl
  | cons w ws ih =>
      obtain ⟨rfl, hw⟩ := hw
      obtain ⟨n, rfl⟩ := Nat.exists_eq_succ_of_ne_zero (Nat.ne_zero_of_lt hlen)
      rw [Option.bind_some, LinkedNodes.findFrom, List.find?_cons]
      cases hwp : w == p with
      | true => rfl
      | false =>
          rw [if_neg (by simp)]
          exact ih (Nat.lt_of_succ_lt_succ hlen) hw

theorem computes_removeFromWq (hB : ws.length < B) (hlen : ws.length < Word.size) (h : Shows m k o)
    (hw : Waits k.task k.wq.next ws) : Computes B (removeFromWq p) m (Slos.removeFromWq k p) o := by
  have hfind : findWait k p = ws.find? (· == p) := findWait_eq hlen hw
  have hloop := ends_iterate.mpr (ends_removeLoop (p := p) hB h hw)
  have hcurrent : (Slos.removeFromWq k p).current = m.current := (removeFromWq_waitOnly k p).current.trans h.current.symm
  have hbody : (do iterate (removeRound p) (← fetch fun m => m.wq.next) : Body τ Unit).Ends B
      (fun _ m' => Shows m' (Slos.removeFromWq k p) o) m := by
    rw [Slos.removeFromWq, hfind]
    refine Straight.ends_bind.mpr ((Straight.ends_fetch _).mpr ?_)
    rw [h.wq]
    refine hloop.mono fun _ m' h => ?_
    cases hf : ws.find? (· == p) with
    | none =>
        rw [hf] at h
        exact h
    | some pt =>
        rw [hf] at h
        exact h
  exact computes_locked hbody hcurrent

theorem computes_addToWq (h : Shows m k o) : Computes B (addToWq p) m (Slos.addToWq k p) o := by
  have hset := h.setWq (Slos.addToWq k p).task (Slos.addToWq k p).wq
  obtain ⟨rtCreated, hr, hp⟩ := h
  simp only [Computes, quiet, addToWq, Code.ends_bind, ends_lock, ends_lift, ends_unlock, Straight.ends_fetch,
    Straight.ends_store, setTask]
  refine ⟨by simp, ?_, by rw [erase_insert_lock]⟩
  simpa [view, Slos.addToWq, Kernel.setTask] using hset

end WaitQueue

section RunQueue

/-- What the lists of a kernel hold against the bound on the rounds. -/
structure Room (B : ℕ) (k : Kernel τ) (ws : List τ) : Prop where
  waits : Waits k.task k.wq.next ws
  waiting : ws.length < B
  waitingLt : ws.length < Word.size
  queue : k.queue.length + 3 ≤ B
  timers : k.timers.queue.length + 3 ≤ B

omit [DecidableEq τ] in
theorem Room.treeRounds (h : Room B k ws) : treeRounds k.queue.length ≤ B := (treeRounds_le _).trans h.queue

omit [DecidableEq τ] in
theorem Room.treeRoundsTimers (h : Room B k ws) : SearchTree.treeRounds k.timers.queue.length ≤ B :=
  (treeRounds_le _).trans h.timers

omit [DecidableEq τ] in
theorem Room.queue_lt (h : Room B k ws) : k.queue.length < B := by
  have := h.queue
  omega

omit [DecidableEq τ] in
theorem Shows.setPrioritySum (h : Shows m k o) (n : ℕ) :
    Shows { m with prioritySum := n } { k with runq := { k.runq with prioritySum := n } } o := by
  obtain ⟨rtCreated, hr, hp⟩ := h
  exact .mk (m := { m with prioritySum := n }) rtCreated hr hp

theorem computes_enqueueSeToRunq (hroom : Room B k ws) (h : Shows m k o) (hp : p ∉ k.queue) :
    Computes B (enqueueSeToRunq p) m (Slos.enqueueSeToRunq (Balancer.redBlack τ) k p) o := by
  have hqueue : (wakeState k p).queue = k.queue := (wakeState_sameSched k p).queue
  have hcurrent := (updateVruntimeRunq_seOnly (wakeState k p) p).current
  have hpri := h.setPrioritySum (Slos.addPriority k p).runq.prioritySum
  have hsave : (store fun m : Mem τ => { m with prioritySum := Word.u32 (m.prioritySum + (m.task p).se.priority) }).Ends B
      (fun _ m' => Shows m' (Slos.addPriority k p) o) m := by
    obtain ⟨_, _, _⟩ := h
    exact (ends_store _).mpr hpri
  refine (computes_lines hsave h.current.symm).bind fun m h => ?_
  refine (computes_removeFromWq hroom.waiting hroom.waitingLt h hroom.waits).bind fun m h => ?_
  refine (computes_lines (ends_setState h p .taskRunning) h.current.symm).bind fun m h => ?_
  have hlocked : (do updateVruntimeRunq p; enqueueSe p : Body τ Unit).Ends B
      (fun _ m' => Shows m' (Slos.enqueueSeToRunq (Balancer.redBlack τ) k p) o) m := by
    have hqueue' := (updateVruntimeRunq_queue (wakeState k p) p).trans hqueue
    refine Straight.ends_bind.mpr ((ends_updateVruntimeRunq ?_ h).mono fun _ m h => ends_enqueueSe ?_ h ?_)
    · exact hqueue ▸ hroom.queue_lt
    · exact hqueue' ▸ hroom.treeRounds
    · exact hqueue' ▸ hp
  exact computes_locked hlocked (hcurrent.trans h.current.symm)

theorem computes_dequeueSeToWq (hroom : Room B k ws) (h : Shows m k o) (hp : p ∈ k.queue) :
    Computes B (dequeueSeToWq p) m (Slos.dequeueSeToWq (Balancer.redBlack τ) k p) o := by
  have hqueue : (sleepState k p).queue = k.queue := (sleepState_sameSched k p).queue
  have hcurrent := (updateVruntimeRunq_seOnly (sleepState k p) p).current
  have hpri := h.setPrioritySum (Slos.subPriority k p).runq.prioritySum
  have hsave : (store fun m : Mem τ => { m with prioritySum := Word.usub m.prioritySum (m.task p).se.priority }).Ends B
      (fun _ m' => Shows m' (Slos.subPriority k p) o) m := by
    obtain ⟨_, _, _⟩ := h
    exact (ends_store _).mpr hpri
  refine (computes_lines hsave h.current.symm).bind fun m h => ?_
  refine (computes_addToWq h).bind fun m h => ?_
  refine (computes_lines (ends_setState h p .taskWaiting) h.current.symm).bind fun m h => ?_
  have hlocked : (do updateVruntimeRunq p; dequeueSe p : Body τ Unit).Ends B
      (fun _ m' => Shows m' (Slos.dequeueSeToWq (Balancer.redBlack τ) k p) o) m := by
    have hqueue' := (updateVruntimeRunq_queue (sleepState k p) p).trans hqueue
    refine Straight.ends_bind.mpr ((ends_updateVruntimeRunq ?_ h).mono fun _ m h => ends_dequeueSe ?_ h ?_)
    · exact hqueue ▸ hroom.queue_lt
    · exact hqueue' ▸ hroom.treeRounds
    · exact hqueue' ▸ hp
  exact computes_locked hlocked (hcurrent.trans h.current.symm)

end RunQueue

section TimerIrq

variable {thisCurrent : τ} {pct : TimerId} {k' : Kernel τ}

omit [DecidableEq τ] in
theorem Shows.setCurrent (h : Shows m k o) (t : τ) : Shows { m with current := t } { k with current := t } o := by
  obtain ⟨rtCreated, hr, hp⟩ := h
  exact .mk (m := { m with current := t }) rtCreated hr hp

omit [DecidableEq τ] in
theorem Shows.setLoad (h : Shows m k o) (tc : ℕ) :
    Shows { m with load := tc } { k with timers := { k.timers with load := tc } } o := by
  obtain ⟨rtCreated, hr, hp⟩ := h
  exact .mk (m := { m with load := tc }) rtCreated hr hp

theorem computes_schedule (h : Shows m k o) (hk : Slos.schedule k = some k') : Computes B schedule m k' o := by
  obtain ⟨next, hnext, rfl⟩ := Option.map_eq_some_iff.mp hk
  have hleft : m.runq.rbLeftmost = some next := h.linked.leftmost.trans (h.leftmost.symm.trans hnext)
  refine computes_fetch ?_
  rw [hleft]
  refine computes_follow (computes_fetch ?_)
  split_ifs with hcur
  · rw [← hcur, h.current]
    exact computes_pure h
  · exact computes_switchTo (ends_lift.mpr ((Straight.ends_store _).mpr ⟨h.setCurrent next, rfl⟩))

theorem computes_cfsScheduler (hroom : Room B k ws) (h : Shows m k o)
    (hk : Slos.cfsScheduler (Balancer.redBlack τ) k = some k') :
    Computes B cfsScheduler m k' o := by
  obtain ⟨k₁, hk₁, hk'⟩ := Option.bind_eq_some_iff.mp hk
  have hcurrent : k₁.current = k.current := by
    obtain ⟨cur, -, rfl⟩ := Option.map_eq_some_iff.mp hk₁
    dsimp only
    split_ifs <;> rfl
  exact (computes_lines (ends_updateSe hroom.treeRounds h hk₁) (hcurrent.trans h.current.symm)).bind fun m h =>
    computes_schedule h hk'

theorem computes_schedExpired (hroom : Room B k ws) (h : Shows m k o)
    (hk : Slos.schedExpired (Balancer.redBlack τ) k thisCurrent pct = some k') :
    Computes B (schedExpired thisCurrent pct) m k' o := by
  refine computes_fetch ?_
  rw [Slos.schedExpired, h.task] at hk
  split_ifs at hk ⊢ with hrt
  · cases hk
    exact computes_pure h
  · obtain ⟨k₁, hk₁, rfl⟩ := Option.map_eq_some_iff.mp hk
    refine (computes_cfsScheduler hroom h hk₁).bind fun m h => computes_lines ?_ h.current.symm
    have hset := h.setTimers (k₁.timers.setTimer pct { k₁.timers.timer pct with pt := thisCurrent }).timer
    obtain ⟨_, _, _⟩ := h
    exact (Straight.ends_store _).mpr hset

theorem ends_setTask (h : Shows m k o) (t : τ) (f : Task τ → Task τ) :
    (setTask t f).Ends B (fun _ m' => Shows m' (k.setTask t (f (k.task t))) o) m := by
  have hset := h.setTasks (k.setTask t (f (k.task t))).task
  obtain ⟨_, _, _⟩ := h
  exact (Straight.ends_store _).mpr hset

theorem computes_switchToTimer (h : Shows m k o) (hthis : thisCurrent = k.current) :
    Computes B (switchToTimer thisCurrent pct) m (Slos.switchToTimer k thisCurrent (k.timers.timer pct).pt) o := by
  have htype : (m.task thisCurrent).type = (k.task thisCurrent).type := by rw [h.task]
  have hpt : (m.timer pct).pt = (k.timers.timer pct).pt := by rw [h.timer]
  have hlast {m : Mem τ} {k' : Kernel τ} (h : Shows m k' o) (ht : k'.timers = k.timers)
    (hcurrent : k'.current = thisCurrent) :
      Computes B (do
        switchTo thisCurrent (← load fun m => (m.timer pct).pt)
        save fun m => { m with
          task := Function.update m.task (m.timer pct).pt { m.task (m.timer pct).pt with yieldTask := some thisCurrent } }
        save fun m => { m with current := (m.timer pct).pt }) m
          { k'.setTask (k.timers.timer pct).pt { k'.task (k.timers.timer pct).pt with yieldTask := some thisCurrent } with
            current := (k.timers.timer pct).pt } o := by
    have hpt : (m.timer pct).pt = (k.timers.timer pct).pt := by rw [h.timer, ht]
    have hset := (h.setTasks (k'.setTask (k.timers.timer pct).pt
      { k'.task (k.timers.timer pct).pt with yieldTask := some thisCurrent }).task).setCurrent (k.timers.timer pct).pt
    refine computes_fetch ?_
    rw [← hcurrent, ← h.current]
    refine computes_switchTo ?_
    rw [h.current, hcurrent]
    simp only [quiet, Code.ends_bind, ends_lift, Straight.ends_store, hpt, and_true]
    obtain ⟨_, _, _⟩ := h
    exact hset
  refine computes_fetch ?_
  rw [Slos.switchToTimer, hpt]
  by_cases hcur : thisCurrent = (k.timers.timer pct).pt
  · rw [if_neg (by simpa using hcur), if_pos hcur]
    exact computes_pure h
  · rw [if_pos hcur, if_neg hcur]
    refine computes_task ?_
    rw [htype]
    split_ifs with hrt
    · exact (computes_lines (ends_setTask h thisCurrent _) h.current.symm).bind fun m h => hlast h rfl hthis.symm
    · exact hlast h rfl hthis.symm

omit [DecidableEq τ] in
/-- A change that keeps every task in its queue. -/
theorem Room.unmoved (h : Room B k ws) (hsame : Unmoved k k') (htimers : k'.timers.queue.length = k.timers.queue.length) :
    Room B k' ws := by
  constructor
  · rw [hsame.next]
    exact waits_congr (fun t => (place_eq_iff.mp (hsame.place t)).2.2.2) h.waits
  · exact h.waiting
  · exact h.waitingLt
  · rw [Kernel.queue, hsame.root]
    exact h.queue
  · rw [htimers]
    exact h.timers

/-- The processor has gone to the task of the timer. -/
theorem computes_oneshotExpired (hroom : Room B k ws)
    (h : Shows m (Slos.switchToTimer k thisCurrent (k.timers.timer pct).pt) o)
    (hpct : pct ∈ k.timers.queue)
    (hwaiting : (k.task (k.timers.timer pct).pt).state = .taskWaiting → (k.timers.timer pct).pt ∉ k.queue) :
    Computes B (oneshotExpired pct) m
      (Slos.oneshotExpired (Balancer.redBlack τ) (Balancer.redBlack TimerId) k thisCurrent pct) o := by
  obtain ⟨pt, hpt⟩ : ∃ pt, pt = (k.timers.timer pct).pt := ⟨_, rfl⟩
  obtain ⟨k₁, hk₁⟩ : ∃ k₁, k₁ = Slos.switchToTimer k thisCurrent pt := ⟨_, rfl⟩
  have hsame : Unmoved k k₁ := hk₁ ▸ switchToTimer_unmoved k thisCurrent pt
  have htimers : k₁.timers = k.timers := hk₁ ▸ switchToTimer_timers k thisCurrent pt
  have hqueue : k₁.queue = k.queue := congrArg BinTree.inorder hsame.root
  have hroom₁ := hroom.unmoved hsame (by rw [htimers])
  rw [← hpt] at hwaiting h
  rw [Slos.oneshotExpired, ← hpt]
  rw [← hk₁] at h ⊢
  have hread : (m.timer pct).pt = pt := by rw [h.timer, htimers, hpt]
  have hlast {m : Mem τ} {k₂ : Kernel τ} (h : Shows m k₂ o) (ht : k₂.timers = k.timers) :
      Computes B (lines (delTimer pct)) m { k₂ with timers := Slos.delTimer (Balancer.redBlack TimerId) k₂.timers pct } o :=
    computes_lines (ends_delTimer (by rw [ht]; exact hroom.treeRoundsTimers) h (by rw [ht]; exact hpct)) h.current.symm
  refine computes_fetch ?_
  rw [hread, ← h.task]
  split_ifs with hstate
  · rw [hsame.state] at hstate
    have hnot : pt ∉ k₁.queue := hqueue ▸ hwaiting hstate
    refine computes_fetch ?_
    rw [hread]
    refine (computes_enqueueSeToRunq hroom₁ h hnot).bind fun m h => ?_
    exact hlast h ((enqueueSeToRunq_timers _ k₁ pt).trans htimers)
  · exact hlast h htimers

theorem computes_realtimeExpired (h : Shows m (Slos.switchToTimer k thisCurrent (k.timers.timer pct).pt) o) :
    Computes B (lines (realtimeExpired thisCurrent)) m (Slos.realtimeExpired k thisCurrent pct) o := by
  obtain ⟨k₁, hk₁⟩ : ∃ k₁, k₁ = Slos.switchToTimer k thisCurrent (k.timers.timer pct).pt := ⟨_, rfl⟩
  rw [Slos.realtimeExpired]
  rw [← hk₁] at h ⊢
  have hbody : (realtimeExpired thisCurrent).Ends B (fun _ m' => Shows m' (if (k₁.task thisCurrent).done = 0 ∧
      (k₁.task thisCurrent).preempted = 0 then k₁.setTask thisCurrent { k₁.task thisCurrent with
        missedCnt := Word.u32 ((k₁.task thisCurrent).missedCnt + 1) } else k₁) o) m := by
    simp only [realtimeExpired, Straight.ends_bind, ends_task, Straight.ends_ite, Straight.ends_pure, ← h.task]
    split_ifs
    · exact ends_setTask h thisCurrent _
    · exact h
  refine computes_lines hbody ?_
  rw [h.current]
  split_ifs <;> rfl

theorem ends_reprogram (hroom : Room B k ws) (h : Shows m k o)
    (hk : Slos.reprogram (Balancer.redBlack TimerId) k = some k') :
    (reprogram m.load).Ends B (fun _ m' => Shows m' (Slos.updateCurrent k' k.timers.load) o) m := by
  obtain ⟨s, hs, hk'⟩ := Option.bind_eq_some_iff.mp hk
  obtain ⟨pnt, hpnt, hk'⟩ := Option.bind_eq_some_iff.mp hk'
  cases hk'
  have hlen : k.timers.queue.length < B := by
    have := hroom.timers
    omega
  rw [h.load]
  refine Straight.ends_bind.mpr ((ends_updateTimerTree hroom.treeRoundsTimers hlen h hs).mono fun _ m h => ?_)
  have hleft : m.ptroot.rbLeftmost = some pnt := h.linkedTimers.leftmost.trans (h.timersLeftmost.symm.trans hpnt)
  have hread : (m.timer pnt).tc = s.tc pnt := by
    rw [h.timer]
    rfl
  simp only [Straight.ends_bind, ends_leftmostTimer, hleft, ends_deref, ends_timer, Straight.ends_store, hread]
  have hload := h.setLoad (s.tc pnt)
  exact ends_updateCurrent hload k.timers.load

omit [DecidableEq τ] in
/-- The tree update takes a timer out and puts it back. -/
theorem updateTimerTree_perm {s s' : Timers τ} {done : τ → ℕ} {elapsed : ℕ} (hnd : s.queue.Nodup)
    (hleft : s.rbLeftmost = s.queue.head?)
    (hs : Slos.updateTimerTree (Balancer.redBlack TimerId) done s elapsed = some s') : s'.queue.Perm s.queue := by
  obtain ⟨pct, s₁, hpct, honly, -, rfl⟩ := updateTimerTree_spec (Balancer.redBlack TimerId) hnd hleft hs
  have hq : s₁.queue = s.queue := congrArg BinTree.inorder honly.root
  have hmem : pct ∈ s₁.queue := hq ▸ List.mem_of_head? (hleft.symm.trans hpct)
  have hnd₁ : s₁.queue.Nodup := hq ▸ hnd
  have hdel := delTimer_queue (Balancer.redBlack TimerId) hnd₁ hmem
  have hperm := insertTimer_perm (Balancer.redBlack TimerId) (s := Slos.delTimer (Balancer.redBlack TimerId) s₁ pct)
    (by rw [hdel]; exact hnd₁.erase pct) (by rw [hdel]; exact hnd₁.not_mem_erase)
  refine hperm.trans ?_
  rw [hdel, ← hq]
  exact (List.perm_cons_erase hmem).symm

/-- What the tree update and the account of the current task leave to the part of `timer_irq` that is about the timer. -/
theorem reprogram_spec {k₁ : Kernel τ} (pct : TimerId) (elapsed : ℕ) (h : Shows m k o)
    (hk : Slos.reprogram (Balancer.redBlack TimerId) k = some k₁) :
    Unmoved k (Slos.updateCurrent k₁ elapsed) ∧ (Slos.updateCurrent k₁ elapsed).current = k.current ∧
      (Slos.updateCurrent k₁ elapsed).timers.queue.Perm k.timers.queue ∧
      ((Slos.updateCurrent k₁ elapsed).timers.timer pct).pt = (k.timers.timer pct).pt ∧
      ((Slos.updateCurrent k₁ elapsed).timers.timer pct).type = (k.timers.timer pct).type := by
  obtain ⟨s, hs, hk⟩ := Option.bind_eq_some_iff.mp hk
  obtain ⟨pnt, hpnt, hk⟩ := Option.bind_eq_some_iff.mp hk
  cases hk
  have htimer := updateTimerTree_timer _ hs pct
  rw [updateCurrent_timers]
  have hperm := updateTimerTree_perm h.linkedTimers.nodup h.timersLeftmost hs
  refine ⟨?_, YieldChain.updateCurrent_current _ elapsed, hperm, ?_, ?_⟩
  · have hcurrent := updateCurrent_unmoved { k with timers := { s with load := s.tc pnt } } elapsed
    exact ⟨hcurrent.root, hcurrent.rbLeftmost, hcurrent.next, hcurrent.place⟩
  · change (s.timer pct).pt = _
    rw [htimer]
  · change (s.timer pct).type = _
    rw [htimer]

/-- `timer_irq` where no other handler comes: with the locks free it ends, with the locks free. -/
theorem computes_timerIrq (hroom : Room B k ws) (h : Shows m k o) (hwaiting : ∀ t ∈ expiring k, t ∉ k.queue)
    (hk : Slos.timerIrq (Balancer.redBlack τ) (Balancer.redBlack TimerId) k = some k') : Computes B timerIrq m k' o := by
  obtain ⟨pct, hpct, hk⟩ := Option.bind_eq_some_iff.mp hk
  obtain ⟨k₁, hk₁, hk⟩ := Option.bind_eq_some_iff.mp hk
  have hleft : m.ptroot.rbLeftmost = some pct := h.linkedTimers.leftmost.trans (h.timersLeftmost.symm.trans hpct)
  have hmem : pct ∈ k.timers.queue := List.mem_of_head? (h.timersLeftmost.symm.trans hpct)
  have hcurrent := h.current
  obtain ⟨hsame, hthis, hperm, hpt, htype⟩ := reprogram_spec pct k.timers.load h hk₁
  have hdone := ends_reprogram hroom h hk₁
  refine computes_fetch (computes_fetch (computes_fetch ?_))
  rw [hleft, hcurrent]
  refine computes_follow ((computes_lines hdone (hthis.trans hcurrent.symm)).bind fun m h => ?_)
  obtain ⟨k₂, hk₂⟩ : ∃ k₂, k₂ = Slos.updateCurrent k₁ k.timers.load := ⟨_, rfl⟩
  rw [← hk₂] at h hsame hthis hperm hpt htype hk
  have hroom₂ : Room B k₂ ws := hroom.unmoved hsame hperm.length_eq
  have htimers : (Slos.switchToTimer k₂ k.current (k₂.timers.timer pct).pt).timers = k₂.timers := switchToTimer_timers _ _ _
  have hswitch (m : Mem τ) (h : Shows m (Slos.switchToTimer k₂ k.current (k₂.timers.timer pct).pt) o) :
      (m.timer pct).type = (k₂.timers.timer pct).type := by rw [h.timer, htimers]
  refine computes_fetch ?_
  rw [h.timer]
  cases hkind : (k₂.timers.timer pct).type with
  | schedTimer =>
      simp only [hkind] at hk
      rw [if_pos rfl]
      exact computes_schedExpired hroom₂ h hk
  | realtimeTimer =>
      simp only [hkind] at hk
      cases hk
      rw [if_neg (by decide)]
      refine (computes_switchToTimer h hthis.symm).bind fun m h => computes_fetch ?_
      rw [hswitch m h, hkind, if_neg (by decide)]
      exact computes_realtimeExpired h
  | oneshotTimer =>
      simp only [hkind] at hk
      cases hk
      rw [if_neg (by decide)]
      refine (computes_switchToTimer h hthis.symm).bind fun m h => computes_fetch ?_
      rw [hswitch m h, hkind, if_pos rfl]
      refine computes_oneshotExpired hroom₂ h (hperm.mem_iff.mpr hmem) ?_
      rw [hpt, hsame.state]
      intro hstate
      have hexpiring : expiring k = some (k.timers.timer pct).pt := by
        rw [expiring, hpct, Option.bind_some, if_pos ⟨htype.symm.trans hkind, hstate⟩]
      rw [Kernel.queue, hsame.root]
      exact hwaiting _ hexpiring

end TimerIrq

end Slos.KernelCode
