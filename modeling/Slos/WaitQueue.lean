import Slos.Kernel
import Slos.LinkedNodes

/-!
# The wait queue

`add_to_wq` and `remove_from_wq` of `waitq.c`, on the list that starts at the head's `next` pointer.
A write through the `prev` pointer of a task reaches the head or another task; through `NULL` it
reaches no task.
-/

namespace Slos
open Word LinkedNodes Kernel

variable {τ : Type}

/-- `k'` differs from `k` only in the wait queue and the list nodes the tasks carry for it. -/
structure WaitOnly (k k' : Kernel τ) : Prop where
  runq : k'.runq = k.runq
  timers : k'.timers = k.timers
  current : k'.current = k.current
  idleTask : k'.idleTask = k.idleTask
  jiffies : k'.jiffies = k.jiffies
  nullVruntime : k'.nullVruntime = k.nullVruntime
  task : ∀ t, k'.task t = { k.task t with
    waitPrev := (k'.task t).waitPrev, waitNext := (k'.task t).waitNext }

theorem WaitOnly.refl (k : Kernel τ) : WaitOnly k k := ⟨rfl, rfl, rfl, rfl, rfl, rfl, fun _ => rfl⟩

theorem WaitOnly.trans {k k' k'' : Kernel τ} (h : WaitOnly k k') (h' : WaitOnly k' k'') :
    WaitOnly k k'' := by
  refine ⟨h'.runq.trans h.runq, h'.timers.trans h.timers, h'.current.trans h.current,
    h'.idleTask.trans h.idleTask, h'.jiffies.trans h.jiffies,
    h'.nullVruntime.trans h.nullVruntime, fun t => ?_⟩
  rw [h'.task t, h.task t]

theorem WaitOnly.se {k k' : Kernel τ} (h : WaitOnly k k') (t : τ) : k'.se t = k.se t := by
  rw [Kernel.se, h.task t, Kernel.se]

theorem WaitOnly.type {k k' : Kernel τ} (h : WaitOnly k k') (t : τ) :
    (k'.task t).type = (k.task t).type := by
  rw [h.task t]

theorem WaitOnly.state {k k' : Kernel τ} (h : WaitOnly k k') (t : τ) :
    (k'.task t).state = (k.task t).state := by
  rw [h.task t]

variable [DecidableEq τ]

def addToWq (k : Kernel τ) (p : τ) : Kernel τ :=
  let temp := k.wq.next
  { k.setTask p { k.task p with waitPrev := some .head, waitNext := temp } with
    wq := { next := some p, count := k.wq.count + 1 } }

/-- `pt->waitlist.prev->next = v`. -/
def setPrevNext (k : Kernel τ) (pt : τ) (v : Option τ) : Kernel τ :=
  match (k.task pt).waitPrev with
  | none => k
  | some .head => { k with wq := { k.wq with next := v } }
  | some (.task q) => k.setTask q { k.task q with waitNext := v }

/-- `if (pt->waitlist.next != NULL) pt->waitlist.next->prev = pt->waitlist.prev`. -/
def setNextPrev (k : Kernel τ) (pt : τ) : Kernel τ :=
  match (k.task pt).waitNext with
  | none => k
  | some q => k.setTask q { k.task q with waitPrev := (k.task pt).waitPrev }

def unlinkWait (k : Kernel τ) (pt : τ) : Kernel τ :=
  let before := setNextPrev (setPrevNext k pt (k.task pt).waitNext) pt
  { before.setTask pt { before.task pt with waitPrev := none, waitNext := none } with
    wq := { before.wq with count := before.wq.count - 1 } }

/-- The task the loop of `remove_from_wq` stops at. -/
def findWait (k : Kernel τ) (p : τ) : Option τ :=
  k.wq.next.bind (findFrom (fun t => (k.task t).waitNext) (· == p) Word.size)

def removeFromWq (k : Kernel τ) (p : τ) : Kernel τ :=
  match findWait k p with
  | none => k
  | some pt => unlinkWait k pt

theorem WaitOnly.setTask (k : Kernel τ) (t : τ) (prev : Option (ListHead τ)) (next : Option τ)
    (wq : WaitQueue τ) :
    WaitOnly k { k.setTask t { k.task t with waitPrev := prev, waitNext := next } with wq := wq } := by
  refine ⟨rfl, rfl, rfl, rfl, rfl, rfl, fun u => ?_⟩
  by_cases hu : u = t
  · subst hu
    simp [Kernel.setTask]
  · simp [Kernel.setTask, hu]

theorem addToWq_waitOnly (k : Kernel τ) (p : τ) : WaitOnly k (addToWq k p) :=
  WaitOnly.setTask k p _ _ _

theorem setPrevNext_waitOnly (k : Kernel τ) (p : τ) (v : Option τ) :
    WaitOnly k (setPrevNext k p v) := by
  unfold setPrevNext
  split
  · exact WaitOnly.refl k
  · exact ⟨rfl, rfl, rfl, rfl, rfl, rfl, fun _ => rfl⟩
  · exact WaitOnly.setTask k _ (k.task _).waitPrev v k.wq

theorem setNextPrev_waitOnly (k : Kernel τ) (p : τ) : WaitOnly k (setNextPrev k p) := by
  unfold setNextPrev
  split
  · exact WaitOnly.refl k
  · exact WaitOnly.setTask k _ (k.task p).waitPrev (k.task _).waitNext k.wq

theorem unlinkWait_waitOnly (k : Kernel τ) (p : τ) : WaitOnly k (unlinkWait k p) :=
  ((setPrevNext_waitOnly k p _).trans (setNextPrev_waitOnly _ p)).trans
    (WaitOnly.setTask _ p none none _)

theorem removeFromWq_waitOnly (k : Kernel τ) (p : τ) : WaitOnly k (removeFromWq k p) := by
  unfold removeFromWq
  split
  · exact WaitOnly.refl k
  · exact unlinkWait_waitOnly k _

end Slos
