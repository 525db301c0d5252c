import Slos.RbCached
import Slos.TimerIrq

/-!
# The scheduler's code computes the atomic scheduler

Where no interrupt comes, a function of `KernelCode` that starts in a memory which shows a kernel ends, without a
fault, in a memory that shows what the atomic function makes of that kernel, with the red-black trees of `rbtree.c` as
the balancers.
-/

namespace Slos.KernelCode
open Interruptible Straight RbTree
open SearchTree (BinTree Balancer Path treeRounds treeRounds_mono)
open WorkerWakeup (WorkFunc)

variable {τ α : Type}

/-- The kernel that a memory shows, with the trees its nodes are laid out as. -/
def view (m : Mem τ) (r : BinTree τ) (p : BinTree TimerId) (rtCreated : ℕ) : Kernel τ where
  task := m.task
  runq := { root := r, rbLeftmost := m.runq.rbLeftmost, prioritySum := m.prioritySum, cfsTaskNum := m.cfsTaskNum }
  wq := m.wq
  timers :=
    { root := p
      rbLeftmost := m.ptroot.rbLeftmost
      timer := m.timer
      oneshotTimerIdx := m.oneshotTimerIdx
      rtCreated := rtCreated
      ticksPerSec := m.ticksPerSec
      load := m.load }
  current := m.current
  idleTask := m.idleTask
  jiffies := m.jiffies
  nullVruntime := m.nullVruntime

/-- The rest of the memory: the list of all tasks with the counters of `forkyi`, and the worker with its ring. -/
structure Others (τ : Type) where
  taskNext : τ → Option τ
  first : τ
  last : τ
  pid : ℕ
  taskCreatedNum : ℕ
  qworker : Worker WorkFunc ℕ
  qworkerTask : Option τ

def others (m : Mem τ) : Others τ :=
  ⟨m.taskNext, m.first, m.last, m.pid, m.taskCreatedNum, m.qworker, m.qworkerTask⟩

inductive Shows (m : Mem τ) : Kernel τ → Others τ → Prop
  | mk {r : BinTree τ} {p : BinTree TimerId} (rtCreated : ℕ) (hr : Linked m.runq r) (hp : Linked m.ptroot p) :
      Shows m (view m r p rtCreated) (others m)

variable {m : Mem τ} {k : Kernel τ} {o : Others τ} {se : τ} {B : ℕ}

theorem ends_onRunq {c : Straight (CachedRoot τ) α} {Q : α → Mem τ → Prop} :
    (onRunq c).Ends B Q m ↔ c.Ends B (fun a r => Q a { m with runq := r }) m.runq := by
  rw [onRunq]
  apply ends_on <;> intros <;> rfl

theorem ends_onPtroot {c : Straight (CachedRoot TimerId) α} {Q : α → Mem τ → Prop} :
    (onPtroot c).Ends B Q m ↔ c.Ends B (fun a r => Q a { m with ptroot := r }) m.ptroot := by
  rw [onPtroot]
  apply ends_on <;> intros <;> rfl

/-- A read of a part of the memory. -/
theorem ends_readLink {Q : Option τ → Mem τ → Prop} (link : Link τ) :
    (onRunq (onTree (readLink link))).Ends B Q m ↔ Q (m.runq.root.link link) m := by
  rw [ends_onRunq, ends_onTree, readLink, ends_fetch]

theorem ends_readLinkTimer {Q : Option TimerId → Mem τ → Prop} (link : Link TimerId) :
    (onPtroot (onTree (readLink link)) : Body τ _).Ends B Q m ↔ Q (m.ptroot.root.link link) m := by
  rw [ends_onPtroot, ends_onTree, readLink, ends_fetch]

theorem ends_task {Q : α → Mem τ → Prop} (t : τ) (f : Task τ → α) : (task t f).Ends B Q m ↔ Q (f (m.task t)) m :=
  ends_fetch _

theorem ends_timer {Q : α → Mem τ → Prop} (t : TimerId) (f : TimerStruct τ → α) :
    (timer t f).Ends B Q m ↔ Q (f (m.timer t)) m := ends_fetch _

theorem ends_vruntime {Q : ℕ → Mem τ → Prop} (t : τ) : (vruntime t).Ends B Q m ↔ Q (m.task t).se.jiffiesVruntime m :=
  ends_fetch _

theorem ends_leftmost {Q : Option τ → Mem τ → Prop} : (onRunq leftmost).Ends B Q m ↔ Q m.runq.rbLeftmost m := by
  rw [ends_onRunq, leftmost, ends_fetch]

theorem ends_leftmostTimer {Q : Option TimerId → Mem τ → Prop} :
    (onPtroot leftmost : Body τ _).Ends B Q m ↔ Q m.ptroot.rbLeftmost m := by
  rw [ends_onPtroot, leftmost, ends_fetch]

/-- The run queue becomes another tree. -/
theorem Shows.setRunq {r : CachedRoot τ} {t : BinTree τ} {left : Option τ} (h : Shows m k o) (hr : Linked r t)
    (hleft : left = t.inorder.head?) :
    Shows { m with runq := r } { k with runq := { k.runq with root := t, rbLeftmost := left } } o := by
  obtain ⟨rtCreated, -, hp⟩ := h
  rw [hleft, ← hr.leftmost]
  exact .mk (m := { m with runq := r }) rtCreated hr hp

theorem Shows.setPtroot {r : CachedRoot TimerId} {t : BinTree TimerId} {left : Option TimerId} (h : Shows m k o)
    (hr : Linked r t) (hleft : left = t.inorder.head?) :
    Shows { m with ptroot := r } { k with timers := { k.timers with root := t, rbLeftmost := left } } o := by
  obtain ⟨rtCreated, hq, -⟩ := h
  rw [hleft, ← hr.leftmost]
  exact .mk (m := { m with ptroot := r }) rtCreated hq hr

theorem Shows.setTasks (h : Shows m k o) (f : τ → Task τ) : Shows { m with task := f } { k with task := f } o := by
  obtain ⟨rtCreated, hr, hp⟩ := h
  exact .mk (m := { m with task := f }) rtCreated hr hp

theorem Shows.setTimers (h : Shows m k o) (f : TimerId → TimerStruct τ) :
    Shows { m with timer := f } { k with timers := { k.timers with timer := f } } o := by
  obtain ⟨rtCreated, hr, hp⟩ := h
  exact .mk (m := { m with timer := f }) rtCreated hr hp

theorem Shows.setJiffies (h : Shows m k o) (jiffies : ℕ) (f : τ → Task τ) :
    Shows { m with jiffies := jiffies, task := f } { k with jiffies := jiffies, task := f } o := by
  obtain ⟨rtCreated, hr, hp⟩ := h
  exact .mk (m := { m with jiffies := jiffies, task := f }) rtCreated hr hp

theorem Shows.task (h : Shows m k o) : k.task = m.task := by
  obtain ⟨-, -, -⟩ := h
  rfl

theorem Shows.current (h : Shows m k o) : m.current = k.current := by
  obtain ⟨-, -, -⟩ := h
  rfl

theorem Shows.wq (h : Shows m k o) : m.wq = k.wq := by
  obtain ⟨-, -, -⟩ := h
  rfl

theorem Shows.timer (h : Shows m k o) : m.timer = k.timers.timer := by
  obtain ⟨-, -, -⟩ := h
  rfl

theorem Shows.load (h : Shows m k o) : m.load = k.timers.load := by
  obtain ⟨-, -, -⟩ := h
  rfl

theorem Shows.linked (h : Shows m k o) : Linked m.runq k.runq.root := by
  obtain ⟨-, hr, -⟩ := h
  exact hr

theorem Shows.linkedTimers (h : Shows m k o) : Linked m.ptroot k.timers.root := by
  obtain ⟨-, -, hp⟩ := h
  exact hp

theorem Shows.leftmost (h : Shows m k o) : k.runq.rbLeftmost = k.queue.head? := by
  obtain ⟨-, hr, -⟩ := h
  exact hr.leftmost

theorem Shows.timersLeftmost (h : Shows m k o) : k.timers.rbLeftmost = k.timers.queue.head? := by
  obtain ⟨-, -, hp⟩ := h
  exact hp.leftmost

variable [DecidableEq τ]

section RunQueue

omit [DecidableEq τ] in
theorem ends_enqueueRound (value : ℕ) (b : Option τ × Link τ × Bool) : (enqueueRound value b).Ends B (fun next m' =>
    next = descentStep (fun t => decide (value ≤ (m.task t).se.jiffiesVruntime)) (m.runq.root.link b.2.1) b ∧ m' = m)
      m := by
  obtain ⟨parent, link, isLeftmost⟩ := b
  simp only [enqueueRound, ends_bind, ends_ite, ends_pure, ends_readLink, ends_vruntime]
  cases hlink : m.runq.root.link link with
  | none => simp [descentStep]
  | some v =>
      simp only [ends_deref, reduceCtorEq, if_false, descentStep, decide_eq_true_eq]
      by_cases hle : value ≤ (m.task v).se.jiffiesVruntime
      · simp [hle, hlink]
      · simp [hle, Nat.lt_of_not_le hle, hlink]

theorem ends_enqueueSe (hB : treeRounds k.queue.length ≤ B) (h : Shows m k o) (hse : se ∉ k.queue) :
    (enqueueSe se).Ends B (fun _ m' => Shows m' (Slos.enqueueSe (Balancer.redBlack τ) k se) o) m := by
  have hheight := h.linked.height_lt hB
  have hleft := enqueueSe_leftmost (Balancer.redBlack τ) h.linked.nodup hse h.leftmost
  have hdescent := ends_descent [] true (ends_enqueueRound (B := B) (m := m) (m.task se).se.jiffiesVruntime) hheight
    h.linked.stored
  simp only [enqueueSe, ends_bind, ends_vruntime]
  refine (ends_iterate.mpr hdescent).mono ?_
  rintro b m ⟨rfl, rfl⟩
  have hlink := ends_linkLeaf hheight h.linked hse (enqueueLeft k (k.vruntime se))
  have hvruntime : (fun t => decide ((m.task se).se.jiffiesVruntime ≤ (m.task t).se.jiffiesVruntime)) =
      enqueueLeft k (k.vruntime se) := by
    rw [← h.task]
    rfl
  rw [hvruntime]
  exact ends_onRunq.mpr (hlink.mono fun _ r hr => h.setRunq hr hleft)

theorem ends_dequeueSe (hB : treeRounds k.queue.length ≤ B) (h : Shows m k o) (hse : se ∈ k.queue) :
    (dequeueSe se).Ends B (fun _ m' => Shows m' (Slos.dequeueSe (Balancer.redBlack τ) k se) o) m := by
  have hleft := dequeueSe_leftmost (Balancer.redBlack τ) h.linked.nodup hse h.leftmost
  exact ends_onRunq.mpr ((ends_unlinkNode (h.linked.height_lt hB) h.linked hse).mono fun _ r hr => h.setRunq hr hleft)

theorem ends_updateSe {k' : Kernel τ} (hB : treeRounds k.queue.length ≤ B) (h : Shows m k o)
    (hk : Slos.updateSe (Balancer.redBlack τ) k = some k') : updateSe.Ends B (fun _ m' => Shows m' k' o) m := by
  obtain ⟨cur, hcur, rfl⟩ := Option.map_eq_some_iff.mp hk
  have hleft : m.runq.rbLeftmost = some cur := h.linked.leftmost.trans (h.leftmost.symm.trans hcur)
  have hmem : cur ∈ k.queue := List.mem_of_head? (h.leftmost.symm.trans hcur)
  have hnull : m.nullVruntime = k.nullVruntime := by
    obtain ⟨-, -, -⟩ := h
    rfl
  have hlength : (k.queue.erase cur).length ≤ k.queue.length := List.length_erase_le
  have hmove {v : ℕ} : (do
      if v < (← vruntime cur) then
        dequeueSe cur
        enqueueSe cur : Body τ Unit).Ends B (fun _ m' => Shows m' (if v < k.vruntime cur then
          Slos.enqueueSe (Balancer.redBlack τ) (Slos.dequeueSe (Balancer.redBlack τ) k cur) cur else k) o) m := by
    simp only [ends_bind, ends_vruntime, ends_ite, ends_pure, ← h.task]
    change if v < k.vruntime cur then _ else _
    split_ifs
    · have hdequeue := dequeueSe_queue (Balancer.redBlack τ) h.linked.nodup hmem
      refine (ends_dequeueSe hB h hmem).mono fun _ m' h' => ends_enqueueSe ?_ h' ?_
      · rw [hdequeue]
        exact (treeRounds_mono hlength).trans hB
      · rw [hdequeue]
        exact h.linked.nodup.not_mem_erase
    · exact h
  simp only [updateSe, ends_bind, ends_leftmost]
  rw [hleft, ends_deref, hleft, ends_deref, ends_onRunq, ends_onTree]
  refine (reads_rbNext (h.linked.height_lt hB).le h.linked.stored hmem).mono ?_
  rintro b r ⟨rfl, rfl⟩
  cases hnext : k.runq.root.next cur with
  | none =>
      refine ends_bind.mpr ((ends_fetch _).mpr ?_)
      rw [← hnull]
      exact hmove
  | some next =>
      refine ends_bind.mpr ((ends_vruntime _).mpr ?_)
      have hread : k.vruntime next = (m.task next).se.jiffiesVruntime := by rw [← h.task]; rfl
      refine hmove.mono fun _ m' h' => ?_
      change Shows m' (if k.vruntime next < k.vruntime cur then _ else _) o
      rw [hread]
      exact h'

theorem ends_normal (h : Shows m k o) (l t : τ) : (normal l t).Ends B (fun _ m' => Shows m' (renorm l k t) o) m := by
  simp only [normal, setSe, setTask, ends_bind, ends_vruntime, ends_store]
  have hset := h.setTasks (k.setSe t (Slos.normal (k.vruntime l) (k.se t))).task
  obtain ⟨rtCreated, hr, hp⟩ := h
  simpa [view, Kernel.setSe, Kernel.setTask, Kernel.se, Kernel.vruntime, Slos.normal, renorm] using hset

/-- The loop of `update_vruntime_runq` from the node that `ys` stand behind. -/
theorem ends_normalLoop {n : ℕ} {l cur : τ} (xs : List τ) {ys : List τ} (hB : k.runq.root.height ≤ B) (hn : ys.length < n)
    (h : Shows m k o) (hq : k.queue = xs ++ cur :: ys) :
    LoopEnds B n (normalRound l) cur (fun _ m' => Shows m' ((cur :: ys).foldl (renorm l) k) o) m := by
  obtain ⟨n, rfl⟩ := Nat.exists_eq_succ_of_ne_zero (Nat.ne_zero_of_lt hn)
  induction ys generalizing m k cur xs n with
  | nil =>
      refine loopEnds_succ.mpr (ends_bind.mpr ((ends_normal h l cur).mono fun _ m h => ?_))
      have hnext := (reads_neighbours hB h.linked.stored hq).1
      refine ends_bind.mpr (ends_onRunq.mpr (ends_onTree.mpr (hnext.mono ?_)))
      rintro b r ⟨rfl, rfl⟩
      exact (ends_pure _).mpr h
  | cons y ys ih =>
      rw [List.length_cons] at hn
      obtain ⟨n, rfl⟩ := Nat.exists_eq_succ_of_ne_zero (show n ≠ 0 by omega)
      refine loopEnds_succ.mpr (ends_bind.mpr ((ends_normal h l cur).mono fun _ m h => ?_))
      have hnext := (reads_neighbours hB h.linked.stored hq).1
      refine ends_bind.mpr (ends_onRunq.mpr (ends_onTree.mpr (hnext.mono ?_)))
      rintro b r ⟨rfl, rfl⟩
      have hq' : (renorm l k cur).queue = (xs ++ [cur]) ++ y :: ys := by
        rw [List.append_assoc, List.singleton_append]
        exact hq
      exact (ends_pure _).mpr (ih (k := renorm l k cur) (xs ++ [cur]) hB h hq' n (by omega))

theorem ends_setState (h : Shows m k o) (t : τ) (st : TaskState) :
    (setState t st).Ends B (fun _ m' => Shows m' (k.setState t st) o) m := by
  have hset := h.setTasks (k.setState t st).task
  obtain ⟨_, _, _⟩ := h
  exact (ends_store _).mpr hset

theorem ends_updateVruntimeRunq (hB : k.queue.length < B) (h : Shows m k o) :
    (updateVruntimeRunq se).Ends B (fun _ m' => Shows m' (Slos.updateVruntimeRunq k se) o) m := by
  have hheight : k.runq.root.height ≤ B := (BinTree.height_le_length _).trans hB.le
  have hleft : m.runq.rbLeftmost = k.queue.head? := h.linked.leftmost
  simp only [updateVruntimeRunq, ends_bind, ends_ite, ends_pure, ends_leftmost]
  rw [Slos.updateVruntimeRunq, h.leftmost, hleft]
  cases hq : k.queue with
  | nil => exact h
  | cons l ys =>
      rw [List.head?_cons, if_neg (by simp)]
      refine (ends_deref l).mpr ((ends_normal h l se).mono fun _ m h => ?_)
      have hwalk : k.runq.root.walk l = l :: ys := by
        rw [BinTree.walk_head (by rw [← Kernel.queue, hq]; rfl)]
        exact hq
      rw [hq, List.length_cons] at hB
      have hloop := ends_normalLoop (k := renorm l k se) (B := B) (n := B) (l := l) [] hheight (by omega) h hq
      rw [← hwalk] at hloop
      exact ends_iterate.mpr hloop

theorem ends_updateCurrent (h : Shows m k o) (elapsed : ℕ) :
    (updateCurrent elapsed).Ends B (fun _ m' => Shows m' (Slos.updateCurrent k elapsed) o) m := by
  have hsame := h
  have hjiffies := h.setJiffies (Word.u32 (k.jiffies + 1)) (Slos.updateCurrent k elapsed).task
  have htasks := h.setTasks (Slos.updateCurrent k elapsed).task
  obtain ⟨rtCreated, hr, hp⟩ := h
  simp only [updateCurrent, ends_bind, ends_ite, ends_task, ends_fetch, setSe, setTask, ends_store, ends_pure]
  cases htype : (m.task m.current).type with
  | cfsTask =>
      rw [if_pos rfl]
      simpa [Slos.updateCurrent, view, htype, Kernel.setSe, Kernel.setTask, Kernel.se] using hjiffies
  | rtTask =>
      rw [if_neg (by simp), if_pos rfl]
      simpa [Slos.updateCurrent, view, htype, Kernel.setSe, Kernel.setTask, Kernel.se] using htasks
  | oneshotTask =>
      rw [if_neg (by simp), if_neg (by simp)]
      simpa [Slos.updateCurrent, view, htype] using hsame

end RunQueue

section Timers

variable {pts : TimerId}

omit [DecidableEq τ] in
theorem ends_insertRound (value : ℕ) (b : Option TimerId × Link TimerId × Bool) :
    (insertRound value b : Body τ _).Ends B (fun next m' =>
      next = descentStep (fun t => decide (value < (m.timer t).tc)) (m.ptroot.root.link b.2.1) b ∧ m' = m) m := by
  obtain ⟨parent, link, isLeftmost⟩ := b
  simp only [insertRound, ends_bind, ends_ite, ends_pure, ends_readLinkTimer, ends_timer]
  cases hlink : m.ptroot.root.link link with
  | none => simp [descentStep]
  | some v =>
      simp only [ends_deref, reduceCtorEq, if_false, descentStep, decide_eq_true_eq]
      by_cases hlt : value < (m.timer v).tc
      · simp [hlt, hlink]
      · simp [hlt, hlink]

omit [DecidableEq τ] in
theorem ends_insertTimer (hB : treeRounds k.timers.queue.length ≤ B) (h : Shows m k o) (hpts : pts ∉ k.timers.queue) :
    (insertTimer pts : Body τ Unit).Ends B
      (fun _ m' => Shows m' { k with timers := Slos.insertTimer (Balancer.redBlack TimerId) k.timers pts } o) m := by
  have hheight := h.linkedTimers.height_lt hB
  have hleft := insertTimer_leftmost (Balancer.redBlack TimerId) h.linkedTimers.nodup hpts h.timersLeftmost
  have hdescent := ends_descent [] true (ends_insertRound (B := B) (m := m) (m.timer pts).tc) hheight h.linkedTimers.stored
  simp only [insertTimer, ends_bind, ends_timer]
  refine (ends_iterate.mpr hdescent).mono ?_
  rintro b m ⟨rfl, rfl⟩
  have hlink := ends_linkLeaf hheight h.linkedTimers hpts (timerLeft k.timers (k.timers.tc pts))
  have htc : (fun t => decide ((m.timer pts).tc < (m.timer t).tc)) = timerLeft k.timers (k.timers.tc pts) := by
    obtain ⟨-, -, -⟩ := h
    rfl
  rw [htc]
  exact ends_onPtroot.mpr (hlink.mono fun _ r hr => h.setPtroot hr hleft)

omit [DecidableEq τ] in
theorem ends_delTimer (hB : treeRounds k.timers.queue.length ≤ B) (h : Shows m k o) (hpts : pts ∈ k.timers.queue) :
    (delTimer pts : Body τ Unit).Ends B
      (fun _ m' => Shows m' { k with timers := Slos.delTimer (Balancer.redBlack TimerId) k.timers pts } o) m := by
  have hleft := delTimer_leftmost (Balancer.redBlack TimerId) h.linkedTimers.nodup hpts h.timersLeftmost
  exact ends_onPtroot.mpr ((ends_unlinkNode (h.linkedTimers.height_lt hB) h.linkedTimers hpts).mono fun _ r hr =>
    h.setPtroot hr hleft)

omit [DecidableEq τ] in
theorem ends_elapse (h : Shows m k o) (pct : TimerId) (elapsed : ℕ) : (elapse pct elapsed : Body τ Unit).Ends B
    (fun _ m' => Shows m' { k with timers := k.timers.setTc pct (remaining k.timers (k.timers.tc pct) elapsed) } o) m := by
  have hset := h.setTimers (k.timers.setTc pct (remaining k.timers (k.timers.tc pct) elapsed)).timer
  obtain ⟨rtCreated, hr, hp⟩ := h
  simp only [elapse, ends_bind, ends_ite, ends_timer, ends_fetch, setTimer, ends_store]
  split_ifs with hlt
  · simpa [view, remaining, Timers.setTc, Timers.setTimer, Timers.tc, Timers.minTimeInt, hlt] using hset
  · simpa [view, remaining, Timers.setTc, Timers.setTimer, Timers.tc, Timers.minTimeInt, hlt] using hset

omit [DecidableEq τ] in
theorem ends_updateRound {pct : TimerId} {xs ys : List TimerId} (hB : k.timers.root.height ≤ B) (h : Shows m k o)
    (hq : k.timers.queue = xs ++ pct :: ys) (elapsed : ℕ) :
    (updateRound elapsed (some pct) : Body τ _).Ends B (fun next m' =>
      next = .inl ys.head? ∧ Shows m' { k with timers := updateTimer (done k) elapsed k.timers pct } o) m := by
  have hleft := h.linkedTimers.leftmost.trans h.timersLeftmost.symm
  have hroot : (updateTimer (done k) elapsed k.timers pct).root = k.timers.root := by
    rw [updateTimer_eq]
    rfl
  have hnext {v : Mem τ} (h : Shows v { k with timers := updateTimer (done k) elapsed k.timers pct } o) :
      (do return .inl (← onPtroot (onTree (rbNext pct))) : Body τ (Option TimerId ⊕ Unit)).Ends B (fun next m' =>
        next = .inl ys.head? ∧ Shows m' { k with timers := updateTimer (done k) elapsed k.timers pct } o) v := by
    have hstored := h.linkedTimers.stored
    rw [show Kernel.timers { k with timers := updateTimer (done k) elapsed k.timers pct } =
      updateTimer (done k) elapsed k.timers pct from rfl, hroot] at hstored
    refine ends_bind.mpr (ends_onPtroot.mpr (ends_onTree.mpr ((reads_neighbours hB hstored hq).1.mono ?_)))
    rintro b r ⟨rfl, rfl⟩
    exact (ends_pure _).mpr ⟨rfl, h⟩
  have hreads : m.ptroot.rbLeftmost = k.timers.rbLeftmost ∧ (m.timer pct).pt = (k.timers.timer pct).pt ∧
    m.task = k.task := by
    obtain ⟨-, -, -⟩ := h
    exact ⟨rfl, rfl, rfl⟩
  simp only [updateRound, ends_bind, ends_ite, ends_leftmostTimer, ends_timer, ends_task]
  rw [hreads.1, hreads.2.1, hreads.2.2]
  have helapse (hne : ¬(k.timers.rbLeftmost = some pct ∧ done k (k.timers.timer pct).pt ≠ 0)) :=
    (ends_elapse (B := B) h pct elapsed).mono fun _ m' h' =>
      ends_bind.mp (hnext (v := m') (by rwa [updateTimer, if_neg hne]))
  split_ifs with hfirst hdone
  · have hset := h.setTimers (k.timers.setTc pct (k.timers.timer pct).intvl).timer
    refine (ends_store _).mpr (ends_bind.mp (hnext ?_))
    rw [updateTimer, if_pos ⟨hfirst, hdone⟩]
    obtain ⟨rtCreated, hr, hp⟩ := h
    simpa [view, Timers.setTc, Timers.setTimer] using hset
  · exact helapse fun hand => hdone hand.2
  · exact helapse fun hand => hfirst hand.1

omit [DecidableEq τ] in
/-- The loop of `update_timer_tree` from a node on. -/
theorem ends_updateLoop {n : ℕ} (xs : List TimerId) {ys : List TimerId} (hB : k.timers.root.height ≤ B) (hn : ys.length < n)
    (h : Shows m k o) (hq : k.timers.queue = xs ++ ys) (elapsed : ℕ) : LoopEnds B n (updateRound elapsed) ys.head?
      (fun _ m' => Shows m' { k with timers := ys.foldl (updateTimer (done k) elapsed) k.timers } o) m := by
  obtain ⟨n, rfl⟩ := Nat.exists_eq_succ_of_ne_zero (Nat.ne_zero_of_lt hn)
  induction ys generalizing m k xs n with
  | nil => exact loopEnds_succ.mpr ((ends_pure _).mpr h)
  | cons y ys ih =>
      rw [List.length_cons] at hn
      obtain ⟨n, rfl⟩ := Nat.exists_eq_succ_of_ne_zero (show n ≠ 0 by omega)
      refine loopEnds_succ.mpr ((ends_updateRound hB h hq elapsed).mono ?_)
      rintro b m ⟨rfl, h⟩
      have hroot : (updateTimer (done k) elapsed k.timers y).root = k.timers.root := by
        rw [updateTimer_eq]
        rfl
      have hq' : (updateTimer (done k) elapsed k.timers y).queue = (xs ++ [y]) ++ ys := by
        rw [List.append_assoc, List.singleton_append, ← hq]
        exact congrArg BinTree.inorder hroot
      exact ih (k := { k with timers := updateTimer (done k) elapsed k.timers y }) (xs ++ [y]) (hroot ▸ hB) h hq' n
        (by omega)

omit [DecidableEq τ] in
theorem ends_updateTimerTree {s : Timers τ} {elapsed : ℕ} (hB : treeRounds k.timers.queue.length ≤ B)
    (hlen : k.timers.queue.length < B) (h : Shows m k o)
    (hs : Slos.updateTimerTree (Balancer.redBlack TimerId) (done k) k.timers elapsed = some s) :
    (updateTimerTree elapsed : Body τ Unit).Ends B (fun _ m' => Shows m' { k with timers := s } o) m := by
  obtain ⟨pct, hpct, rfl⟩ := Option.map_eq_some_iff.mp hs
  have hhead : k.timers.queue.head? = some pct := h.timersLeftmost.symm.trans hpct
  have hwalk : k.timers.root.walk pct = k.timers.queue := BinTree.walk_head hhead
  have hloop := ends_updateLoop (B := B) [] (h.linkedTimers.height_lt hB).le hlen h rfl elapsed
  have hleft : m.ptroot.rbLeftmost = k.timers.queue.head? := h.linkedTimers.leftmost
  simp only [updateTimerTree, ends_bind, ends_leftmostTimer]
  rw [hleft, hwalk]
  refine (ends_iterate.mpr hloop).mono fun _ m h => ?_
  obtain ⟨s₁, hs₁⟩ : ∃ s₁, s₁ = k.timers.queue.foldl (updateTimer (done k) elapsed) k.timers := ⟨_, rfl⟩
  have honly := foldl_updateTimer_tcOnly (done k) elapsed k.timers.queue k.timers
  rw [← hs₁] at h honly ⊢
  have hq : s₁.queue = k.timers.queue := congrArg BinTree.inorder honly.root
  have hmem : pct ∈ s₁.queue := hq ▸ List.mem_of_head? hhead
  have hnd : s₁.queue.Nodup := h.linkedTimers.nodup
  have hdel := delTimer_queue (Balancer.redBlack TimerId) hnd hmem
  have hleft : m.ptroot.rbLeftmost = some pct := by
    rw [h.linkedTimers.leftmost, ← hhead, ← hq]
    rfl
  rw [hleft]
  refine (ends_deref pct).mpr ((ends_delTimer (k := { k with timers := s₁ }) (by rw [hq]; exact hB) h hmem).mono
    fun _ m h => ?_)
  refine ends_insertTimer ?_ h ?_
  · change treeRounds (Slos.delTimer (Balancer.redBlack TimerId) s₁ pct).queue.length ≤ B
    rw [hdel, hq]
    exact (treeRounds_mono List.length_erase_le).trans hB
  · change pct ∉ (Slos.delTimer (Balancer.redBlack TimerId) s₁ pct).queue
    rw [hdel]
    exact hnd.not_mem_erase

end Timers

end Slos.KernelCode
