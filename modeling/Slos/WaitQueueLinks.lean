import Slos.RunQueue
import Slos.Machine

/-!
# Wait queue integrity

Runs of `add_to_wq` and `remove_from_wq` on the queue `init_wq` sets up. `queued` lists the tasks
added and not yet removed, newest first. The links lead through exactly these tasks and back in every
state of a run if and only if tasks are only ever added to an empty queue: `add_to_wq` leaves the
`prev` pointer of the task that was first at the head.
-/

namespace Slos.WaitQueueLinks
open LinkedNodes Machine Kernel

variable {τ : Type} [DecidableEq τ]

def initWq (k : Kernel τ) : Kernel τ := { k with wq := { next := none, count := 0 } }

structure WqState (τ : Type) where
  kernel : Kernel τ
  queued : List τ

inductive Step (τ : Type)
  | add (p : τ)
  | remove (p : τ)

/-- A task is added only while it is not in the queue. -/
def step (s : WqState τ) : Step τ → Option (WqState τ)
  | .add p => if p ∈ s.queued then none else some ⟨addToWq s.kernel p, p :: s.queued⟩
  | .remove p => some ⟨removeFromWq s.kernel p, s.queued.erase p⟩

def start (k : Kernel τ) : WqState τ := ⟨initWq k, []⟩

def nextOf (k : Kernel τ) : ListHead τ → Option (ListHead τ)
  | .head => k.wq.next.map .task
  | .task t => (k.task t).waitNext.map .task

/-- The head's own `prev` is `NULL`. -/
def prevOf (k : Kernel τ) : ListHead τ → Option (ListHead τ)
  | .head => none
  | .task t => (k.task t).waitPrev

structure Intact (s : WqState τ) : Prop where
  forward : Forward (nextOf s.kernel) .head (s.queued.map .task)
  backward : Backward (prevOf s.kernel) .head (s.queued.map .task)
  nodup : s.queued.Nodup
  count : s.kernel.wq.count = s.queued.length

/-- A task is added while the head's `next` is `NULL`. -/
def AddsToEmpty (s : WqState τ) : Step τ → Prop
  | .add _ => s.kernel.wq.next = none
  | .remove _ => True

structure AtMostOne (s : WqState τ) : Prop extends Intact s where
  short : s.queued.length ≤ 1

omit [DecidableEq τ] in
theorem next_eq_none_iff {s : WqState τ} (hs : Intact s) : s.kernel.wq.next = none ↔ s.queued = [] := by
  have hf := hs.forward
  cases hq : s.queued with
  | nil =>
      rw [hq] at hf
      simpa [Forward, nextOf] using hf
  | cons q qs =>
      rw [hq] at hf
      have hnext : s.kernel.wq.next.map ListHead.task = some (.task q) := hf.1
      constructor
      · intro hnone
        rw [hnone] at hnext
        cases hnext
      · intro hnil
        cases hnil

theorem intact_add_empty {k : Kernel τ} (hk : Intact ⟨k, []⟩) (p : τ) :
    Intact ⟨addToWq k p, [p]⟩ := by
  have hnext : k.wq.next = none := (next_eq_none_iff hk).mpr rfl
  have hcount : k.wq.count = 0 := hk.count
  refine ⟨⟨rfl, ?_⟩, ⟨?_, trivial⟩, List.nodup_singleton p, ?_⟩
  · simp [Forward, nextOf, addToWq, hnext]
  · simp [prevOf, addToWq]
  · simp [addToWq, hcount]

/-- The second task's node is put in front, but the first still points back at the head. -/
theorem not_intact_add_second {k : Kernel τ} {p q : τ} (hk : Intact ⟨k, [q]⟩) (hpq : q ≠ p) :
    ¬ Intact ⟨addToWq k p, [p, q]⟩ := by
  intro h
  have hback : prevOf (addToWq k p) (.task q) = some (.task p) := h.backward.2.1
  have hkeep : prevOf (addToWq k p) (.task q) = prevOf k (.task q) := by
    simp [prevOf, addToWq, setTask_of_ne k _ hpq]
  rw [hkeep, hk.backward.1] at hback
  cases hback

theorem findWait_nil {k : Kernel τ} (hk : Intact ⟨k, []⟩) (p : τ) : findWait k p = none := by
  rw [findWait, (next_eq_none_iff hk).mpr rfl, Option.bind_none]

theorem findWait_singleton {k : Kernel τ} {q : τ} (hk : Intact ⟨k, [q]⟩) (p : τ) :
    findWait k p = if q = p then some q else none := by
  obtain ⟨hfirst, hlast⟩ := hk.forward
  have hnext : k.wq.next = some q := by
    simpa [nextOf] using hfirst
  have hend : Forward (fun t => (k.task t).waitNext) q [] := by
    simpa [Forward, nextOf] using hlast
  have hfind : findFrom (fun t => (k.task t).waitNext) (· == p) Word.size q =
      [q].find? (· == p) := findFrom_eq hend _ (Nat.two_pow_pos 32)
  rw [findWait, hnext, Option.bind_some, hfind, List.find?_singleton]
  simp

theorem intact_remove_only {k : Kernel τ} {q : τ} (hk : Intact ⟨k, [q]⟩) :
    Intact ⟨removeFromWq k q, []⟩ := by
  have hback : (k.task q).waitPrev = some .head := hk.backward.1
  have hend : (k.task q).waitNext = none := by
    simpa [Forward, nextOf] using hk.forward.2
  have hcount : k.wq.count = 1 := hk.count
  rw [removeFromWq, findWait_singleton hk, if_pos rfl]
  refine ⟨?_, trivial, List.nodup_nil, ?_⟩
  · simp [Forward, nextOf, unlinkWait, setPrevNext, setNextPrev, hback, hend]
  · simp [unlinkWait, setPrevNext, setNextPrev, hback, hend, hcount]

omit [DecidableEq τ] in
theorem atMostOne_start (k : Kernel τ) : AtMostOne (start k) :=
  ⟨⟨rfl, trivial, List.nodup_nil, rfl⟩, Nat.zero_le 1⟩

theorem atMostOne_step {s t : WqState τ} {a : Step τ} (hs : AtMostOne s) (hC : AddsToEmpty s a)
    (h : step s a = some t) : AtMostOne t := by
  obtain ⟨k, queued⟩ := s
  cases a with
  | add p =>
      obtain ⟨-, ht⟩ := Option.ite_none_left_eq_some.mp h
      obtain rfl := Option.some.inj ht
      obtain rfl : queued = [] := (next_eq_none_iff hs.toIntact).mp hC
      exact ⟨intact_add_empty hs.toIntact p, le_rfl⟩
  | remove p =>
      obtain rfl := Option.some.inj h
      match queued, hs with
      | [], hs =>
          rw [removeFromWq, findWait_nil hs.toIntact]
          exact hs
      | [q], hs =>
          by_cases hqp : q = p
          · subst hqp
            rw [List.erase_cons_head]
            exact ⟨intact_remove_only hs.toIntact, Nat.zero_le 1⟩
          · rw [removeFromWq, findWait_singleton hs.toIntact, if_neg hqp,
              List.erase_of_not_mem (by simpa using Ne.symm hqp)]
            exact hs
      | q :: r :: qs, hs => exact absurd hs.short (by simp)

theorem addsToEmpty_of_intact {s t : WqState τ} {a : Step τ} (hs : AtMostOne s)
    (h : step s a = some t) (ht : Intact t) : AddsToEmpty s a := by
  obtain ⟨k, queued⟩ := s
  cases a with
  | add p =>
      obtain ⟨hp, heq⟩ := Option.ite_none_left_eq_some.mp h
      obtain rfl := Option.some.inj heq
      match queued, hs with
      | [], hs => exact (next_eq_none_iff hs.toIntact).mpr rfl
      | [q], hs =>
          have hqp : q ≠ p := fun he => hp (he ▸ List.mem_cons_self)
          exact absurd ht (not_intact_add_second hs.toIntact hqp)
      | q :: r :: qs, hs => exact absurd hs.short (by simp)
  | remove p => trivial

/-- For every kernel, every run and any number of tasks. -/
theorem links_intact_iff (k : Kernel τ) (run : List (Step τ)) :
    Always step Intact (start k) run ↔ StepsMeet step AddsToEmpty (start k) run := by
  apply always_iff_stepsMeet AtMostOne
  · exact fun s hs => hs.toIntact
  · exact fun s a t => atMostOne_step
  · exact fun s a t => addsToEmpty_of_intact
  · exact atMostOne_start k

/-- Removing the older of two tasks takes the newer one out of the queue as well. -/
theorem newer_task_dropped :
    ∃ s, Machine.exec step (start bootKernel) [.add 1, .add 2, .remove 1] = some s ∧
      s.queued = [2] ∧ s.kernel.wq.next = none ∧ ¬ Intact s := by
  have hrun : (Machine.exec step (start bootKernel) [.add 1, .add 2, .remove 1]).map
      (fun s => (s.queued, s.kernel.wq.next)) = some ([2], none) := by decide +kernel
  obtain ⟨s, hs, hv⟩ := Option.map_eq_some_iff.mp hrun
  obtain ⟨hqueued, hnext⟩ := Prod.mk.inj hv
  refine ⟨s, hs, hqueued, hnext, fun h => ?_⟩
  rw [next_eq_none_iff h, hqueued] at hnext
  cases hnext

end Slos.WaitQueueLinks
