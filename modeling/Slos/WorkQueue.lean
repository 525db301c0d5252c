import Slos.Machine
import Slos.RingBuffer
import Slos.Word

/-!
# The work queue

`enqueue_workq` and the loop of `workq_worker` in `task.c`. Interrupts enqueue items between any two steps
of the worker, which samples `enq_idx`, runs the items up to the sample and stores it as `deq_idx`. The
worker runs what was enqueued, in order, as long as no item is enqueued over one that is still waiting.
-/

namespace Slos
open RingBuffer

variable {φ α : Type}

def maxWorkq : ℕ := 32

def noErr : ℤ := 0

structure Workq (φ α : Type) where
  func : φ
  arg : α
  deriving DecidableEq

structure Worker (φ α : Type) where
  enqIdx : ℕ
  deqIdx : ℕ
  wkq : ℕ → Workq φ α

/-- What is stored in the ring, and the status returned. -/
def enqueueWorkq (q : Worker φ α) (func : φ) (arg : α) : Worker φ α × ℤ :=
  ({ q with
      wkq := Function.update q.wkq q.enqIdx { func := func, arg := arg }
      enqIdx := if q.enqIdx = maxWorkq - 1 then 0 else q.enqIdx + 1 }, noErr)

/-- Where the worker stands, with the local variables that are alive there. -/
inductive WorkerPoint
  | readEnq
  | readDeq (enqIdx : ℕ)
  | item (i enqIdx : ℕ)
  | store (enqIdx : ℕ)
  | sleep
  | yield
  deriving DecidableEq

/-- One step of the worker: where it goes, the queue, and the item it runs. -/
def workqWorker (q : Worker φ α) :
    WorkerPoint → WorkerPoint × Worker φ α × Option (Workq φ α)
  | .readEnq => (.readDeq q.enqIdx, q, none)
  | .readDeq enqIdx =>
      (.item q.deqIdx (if enqIdx < q.deqIdx then enqIdx + maxWorkq else enqIdx), q, none)
  | .item i enqIdx =>
      if i < enqIdx then (.item (i + 1) enqIdx, q, some (q.wkq (i % maxWorkq)))
      else (.store (if enqIdx ≥ maxWorkq then enqIdx - maxWorkq else enqIdx), q, none)
  | .store enqIdx => (.sleep, { q with deqIdx := enqIdx }, none)
  | .sleep => (.yield, q, none)
  | .yield => (.readEnq, q, none)

namespace WorkQueue

/-- The queue, the worker, and what has been accepted and executed so far. -/
structure State (φ α : Type) where
  q : Worker φ α
  point : WorkerPoint
  accepted : List (Workq φ α)
  executed : List (Workq φ α)

inductive Step (φ α : Type)
  | enqueue (func : φ) (arg : α)
  | work

def step (s : State φ α) : Step φ α → Option (State φ α)
  | .enqueue func arg =>
      let (q, status) := enqueueWorkq s.q func arg
      some { s with
        q := q
        accepted := if status = noErr then s.accepted ++ [{ func := func, arg := arg }] else s.accepted }
  | .work =>
      let (point, q, item) := workqWorker s.q s.point
      some { s with q := q, point := point, executed := s.executed ++ item.toList }

/-- The queue as `create_workq_worker` leaves it, in memory that holds anything. -/
def created (wkq : ℕ → Workq φ α) : State φ α where
  q := { enqIdx := 0, deqIdx := 0, wkq := wkq }
  point := .readEnq
  accepted := []
  executed := []

def InOrder (s : State φ α) : Prop := s.executed <+: s.accepted

/-- Fewer items than there are slots are waiting when one is enqueued. -/
def Roomy (s : State φ α) : Step φ α → Prop
  | .enqueue _ _ => s.accepted.length < s.executed.length + maxWorkq
  | .work => True

instance (s : State φ α) : ∀ i, Decidable (Roomy s i)
  | .enqueue _ _ => inferInstanceAs (Decidable (_ < _))
  | .work => isTrue trivial

/-- The local variables of the worker, with `n` items accepted and `m` executed. -/
def Tracks (deqIdx n m : ℕ) : WorkerPoint → Prop
  | .readDeq enqIdx =>
      deqIdx = m % maxWorkq ∧ ∃ k, enqIdx = k % maxWorkq ∧ m ≤ k ∧ k ≤ n
  | .item i enqIdx => i % maxWorkq = m % maxWorkq ∧ i ≤ enqIdx ∧ enqIdx < 2 * maxWorkq ∧ m + enqIdx ≤ n + i
  | .store enqIdx => enqIdx = m % maxWorkq
  | _ => deqIdx = m % maxWorkq

structure Delivering (s : State φ α) : Prop where
  order : InOrder s
  holds : Holds maxWorkq s.q.wkq s.accepted
  enqIdx : s.q.enqIdx = s.accepted.length % maxWorkq
  room : s.accepted.length ≤ s.executed.length + maxWorkq
  tracks : Tracks s.q.deqIdx s.accepted.length s.executed.length s.point

theorem Tracks.mono {deqIdx n n' m : ℕ} {point : WorkerPoint} (h : Tracks deqIdx n m point) (hn : n ≤ n') :
    Tracks deqIdx n' m point := by
  cases point with
  | readDeq enqIdx =>
      obtain ⟨hdeq, k, henq, hm, hk⟩ := h
      exact ⟨hdeq, k, henq, hm, hk.trans hn⟩
  | item i enqIdx =>
      obtain ⟨hi, hle, hlt, hmn⟩ := h
      exact ⟨hi, hle, hlt, hmn.trans (Nat.add_le_add_right hn i)⟩
  | readEnq => exact h
  | store enqIdx => exact h
  | sleep => exact h
  | yield => exact h

theorem enqueue_delivering {s : State φ α} (h : Delivering s) (func : φ) (arg : α)
    (hroom : s.accepted.length < s.executed.length + maxWorkq) :
    Delivering { s with
      q := (enqueueWorkq s.q func arg).1
      accepted := s.accepted ++ [{ func := func, arg := arg }] } := by
  have hlen : (s.accepted ++ [({ func := func, arg := arg } : Workq φ α)]).length = s.accepted.length + 1 := by
    rw [List.length_append, List.length_singleton]
  refine ⟨h.order.trans (List.prefix_append ..), ?_, ?_, ?_, ?_⟩
  · have hpush := h.holds.push ({ func := func, arg := arg } : Workq φ α)
    rw [← h.enqIdx] at hpush
    exact hpush
  · have hnext := next_mod (n := maxWorkq) (by decide) s.accepted.length
    rw [← h.enqIdx, next] at hnext
    rw [hlen]
    exact hnext
  · rw [hlen]
    exact hroom
  · rw [hlen]
    exact h.tracks.mono (Nat.le_succ _)

theorem prefix_concat_of_next {β : Type} {xs ys : List β} {x : β} (h : xs <+: ys)
    (hx : ys[xs.length]? = some x) : xs ++ [x] <+: ys := by
  obtain ⟨rest, rfl⟩ := h
  rw [List.getElem?_append_right le_rfl, Nat.sub_self] at hx
  cases rest with
  | nil => cases hx
  | cons y rest =>
      obtain rfl : y = x := by simpa using hx
      exact ⟨rest, by simp⟩

theorem item_delivering {q : Worker φ α} {accepted executed : List (Workq φ α)} {i enqIdx : ℕ}
    (h : Delivering { q := q, point := .item i enqIdx, accepted := accepted, executed := executed })
    (hi : i < enqIdx) :
    Delivering { q := q, point := .item (i + 1) enqIdx, accepted := accepted,
                 executed := executed ++ [q.wkq (i % maxWorkq)] } := by
  have hroom : accepted.length ≤ executed.length + maxWorkq := h.room
  obtain ⟨hslot, hle, hlt, hmn⟩ := h.tracks
  dsimp only at hslot hmn
  have hlen : (executed ++ [q.wkq (i % maxWorkq)]).length = executed.length + 1 := by
    rw [List.length_append, List.length_singleton]
  have hread : accepted[executed.length]? = some (q.wkq (executed.length % maxWorkq)) :=
    h.holds.read (by dsimp only; omega) hroom
  rw [← hslot] at hread
  refine ⟨prefix_concat_of_next h.order hread, h.holds, h.enqIdx, ?_, ?_⟩
  · dsimp only
    omega
  · have hnext : (i + 1) % maxWorkq = (executed.length + 1) % maxWorkq := Nat.ModEq.add_right 1 hslot
    dsimp only
    rw [hlen]
    exact ⟨hnext, by omega, hlt, by omega⟩

theorem work_delivering {s : State φ α} (h : Delivering s) : Delivering { s with
    q := (workqWorker s.q s.point).2.1
    point := (workqWorker s.q s.point).1
    executed := s.executed ++ (workqWorker s.q s.point).2.2.toList } := by
  obtain ⟨q, point, accepted, executed⟩ := s
  have horder : executed <+: accepted := h.order
  have htracks := h.tracks
  cases point with
  | readEnq =>
      have hnext : Delivering { q := q, point := .readDeq q.enqIdx, accepted := accepted,
                                executed := executed } :=
        ⟨horder, h.holds, h.enqIdx, h.room, htracks, accepted.length, h.enqIdx, horder.length_le, le_rfl⟩
      simpa [workqWorker] using hnext
  | readDeq enqIdx =>
      obtain ⟨hdeq, k, henq, hm, hk⟩ := htracks
      have hroom : accepted.length ≤ executed.length + maxWorkq := h.room
      have hlocal : Tracks q.deqIdx accepted.length executed.length
          (.item q.deqIdx (if enqIdx < q.deqIdx then enqIdx + maxWorkq else enqIdx)) := by
        simp only [Tracks, maxWorkq] at *
        split <;> omega
      have hnext : Delivering { q := q, point := .item q.deqIdx _, accepted := accepted,
                                executed := executed } :=
        ⟨horder, h.holds, h.enqIdx, h.room, hlocal⟩
      simpa [workqWorker] using hnext
  | item i enqIdx =>
      by_cases hi : i < enqIdx
      · simpa [workqWorker, hi] using item_delivering h hi
      · obtain ⟨hslot, hle, hlt, hmn⟩ := htracks
        have hlocal : (if enqIdx ≥ maxWorkq then enqIdx - maxWorkq else enqIdx) =
            executed.length % maxWorkq := by
          split
          · simp only [maxWorkq] at *
            omega
          · simp only [maxWorkq] at *
            omega
        have hnext : Delivering { q := q, point := .store _, accepted := accepted,
                                  executed := executed } :=
          ⟨horder, h.holds, h.enqIdx, h.room, hlocal⟩
        simpa [workqWorker, hi] using hnext
  | store enqIdx =>
      have hnext : Delivering { q := { q with deqIdx := enqIdx }, point := .sleep, accepted := accepted,
                                executed := executed } :=
        ⟨horder, h.holds, h.enqIdx, h.room, htracks⟩
      simpa [workqWorker] using hnext
  | sleep =>
      have hnext : Delivering { q := q, point := .yield, accepted := accepted, executed := executed } :=
        ⟨horder, h.holds, h.enqIdx, h.room, htracks⟩
      simpa [workqWorker] using hnext
  | yield =>
      have hnext : Delivering { q := q, point := .readEnq, accepted := accepted, executed := executed } :=
        ⟨horder, h.holds, h.enqIdx, h.room, htracks⟩
      simpa [workqWorker] using hnext

theorem step_delivering (s : State φ α) (i : Step φ α) (t : State φ α) (h : Delivering s) (hc : Roomy s i)
    (hs : step s i = some t) : Delivering t := by
  cases i with
  | enqueue func arg =>
      cases hs
      exact enqueue_delivering h func arg hc
  | work =>
      cases hs
      exact work_delivering h

theorem created_delivering (wkq : ℕ → Workq φ α) : Delivering (created wkq) where
  order := List.nil_prefix
  holds := holds_nil _ _
  enqIdx := rfl
  room := Nat.zero_le _
  tracks := rfl

/-- As long as a slot is free whenever an item is enqueued, the worker has executed a prefix of the
accepted items at every moment. -/
theorem executed_inOrder (wkq : ℕ → Workq φ α) (is : List (Step φ α))
    (hroom : Machine.StepsMeet step Roomy (created wkq) is) :
    Machine.Always step InOrder (created wkq) is :=
  Machine.always_of_stepsMeet Delivering (fun _ h => h.order) step_delivering (created_delivering wkq)
    hroom

def empty : State ℕ ℕ := created fun _ => { func := 0, arg := 0 }

def twoItems : List (Step ℕ ℕ) :=
  [.enqueue 1 10, .work, .enqueue 2 20] ++ List.replicate 6 .work ++ [.enqueue 3 30, .work]

theorem executed_inOrder_twoItems :
    Machine.StepsMeet step Roomy empty twoItems ∧
      Machine.Always step InOrder empty twoItems :=
  have hroom : Machine.StepsMeet step Roomy empty twoItems := by
    decide +kernel
  ⟨hroom, executed_inOrder _ _ hroom⟩

/-- 33 items are enqueued before the worker runs: it starts with the last one, which took the slot of
the first. -/
def fullQueue : List (Step ℕ ℕ) := (List.range 33).map (fun n => .enqueue n n) ++ List.replicate 3 .work

theorem fullQueue_not_inOrder : ∃ s, Machine.exec step empty fullQueue = some s ∧ ¬ InOrder s := by
  have hrun : (Machine.exec step empty fullQueue).map (fun s => (s.executed, s.accepted.head?)) =
      some ([{ func := 32, arg := 32 }], some { func := 0, arg := 0 }) := by decide +kernel
  obtain ⟨s, hs, hv⟩ := Option.map_eq_some_iff.mp hrun
  obtain ⟨hexecuted, haccepted⟩ := Prod.mk.inj hv
  refine ⟨s, hs, fun h => ?_⟩
  obtain ⟨rest, hrest⟩ := h
  rw [← hrest, hexecuted] at haccepted
  cases haccepted

end WorkQueue

end Slos
