import Slos.Mailbox
import Slos.Tasks
import Slos.WorkQueue

/-!
# Waking the work-queue worker

`sgi_irq` and `dma_irq` enqueue work between any two statements of `workq_worker`, which takes its sample of
`enq_idx` long before it puts itself to sleep. `sgi_irq` also wakes the worker and `dma_irq` does not.
`InTime` says which steps leave the worker runnable while there is work, and it is exact.
-/

namespace Slos.WorkerWakeup
open Kernel SearchTree
open Mailbox (LetterType)

def einval : ℤ := 22

def bmModcoreDmaStart : ℕ := 0x1

def bmModcoreDmaIrqDone : ℕ := 0x2

inductive WorkFunc
  | printTaskStat
  | createOdevTask
  | startDma
  deriving DecidableEq

/-- The kernel, the worker with its task, where it stands, and the devices: the orders `dev->data` starts
and the control register. -/
structure State (τ δ ω : Type) where
  kernel : Kernel τ
  task : τ
  q : Worker WorkFunc (Option δ)
  point : WorkerPoint
  data : δ → List ω
  cntl : δ → ℕ

variable {τ δ ω : Type}

def enqueueWork (s : State τ δ ω) (func : WorkFunc) (arg : Option δ) : State τ δ ω :=
  { s with q := (enqueueWorkq s.q func arg).1 }

/-- A statement of the worker, an interrupt, or anything the rest of the kernel and the work items do. -/
inductive Step (τ δ ω : Type)
  | work
  | sgi (letter : LetterType) (arg : Option δ)
  | dma (arg : Option δ)
  | other (kernel : Kernel τ) (data : δ → List ω) (cntl : δ → ℕ)

def start (s : Tasks τ) (task : τ) (q : Worker WorkFunc (Option δ)) (data : δ → List ω) (cntl : δ → ℕ) :
    State τ δ ω where
  kernel := s.kernel
  task := task
  q := q
  point := .readEnq
  data := data
  cntl := cntl

def state (s : State τ δ ω) : TaskState := (s.kernel.task s.task).state

/-- The index the worker has reached. -/
def reached (deqIdx : ℕ) : WorkerPoint → ℕ
  | .item i _ => i % maxWorkq
  | .store enqIdx => enqIdx
  | _ => deqIdx

def Awake (s : State τ δ ω) : Prop :=
  s.q.enqIdx ≠ reached s.q.deqIdx s.point → state s ≠ .taskWaiting

/-- The worker goes to sleep only on a drained queue, and `dma_irq` finds work to enqueue only while the
worker is awake. -/
def InTime (s : State τ δ ω) : Step τ δ ω → Prop
  | .work => s.point = .sleep → s.q.enqIdx = s.q.deqIdx
  | .dma (some dev) => s.data dev = [] ∨ state s ≠ .taskWaiting
  | _ => True

/-- The local variables of the worker, when nothing is left to run. -/
def Drained (q : Worker WorkFunc (Option δ)) : WorkerPoint → Prop
  | .readDeq enqIdx => enqIdx = q.enqIdx ∧ q.deqIdx = q.enqIdx
  | .item i enqIdx => i = q.enqIdx ∧ enqIdx = q.enqIdx
  | .store enqIdx => enqIdx = q.enqIdx
  | _ => q.deqIdx = q.enqIdx

structure Resting (s : State τ δ ω) : Prop where
  enqIdx : s.q.enqIdx < maxWorkq
  drained : state s = .taskWaiting → Drained s.q s.point

theorem Drained.reached_eq {q : Worker WorkFunc (Option δ)} {point : WorkerPoint} (h : Drained q point)
    (henq : q.enqIdx < maxWorkq) : reached q.deqIdx point = q.enqIdx := by
  cases point with
  | readEnq => exact h
  | readDeq enqIdx => exact h.2
  | item i enqIdx =>
      rw [reached, h.1]
      exact Nat.mod_eq_of_lt henq
  | store enqIdx => exact h
  | sleep => exact h
  | yield => exact h

/-- A worker with nothing left to run finds nothing to run. -/
theorem Drained.worker {q : Worker WorkFunc (Option δ)} {point : WorkerPoint} (h : Drained q point)
    (henq : q.enqIdx < maxWorkq) :
    Drained (workqWorker q point).2.1 (workqWorker q point).1 := by
  cases point with
  | readEnq => exact ⟨rfl, h⟩
  | readDeq enqIdx =>
      obtain ⟨rfl, hdeq⟩ := h
      have hnowrap : ¬ q.enqIdx < q.deqIdx := by omega
      simp only [workqWorker, if_neg hnowrap]
      exact ⟨hdeq, rfl⟩
  | item i enqIdx =>
      obtain ⟨rfl, rfl⟩ := h
      have hnowrap : ¬ q.enqIdx ≥ maxWorkq := by omega
      simp only [workqWorker, if_neg (lt_irrefl q.enqIdx), if_neg hnowrap]
      rfl
  | store enqIdx => exact h
  | sleep => exact h
  | yield => exact h

theorem workqWorker_enqIdx (q : Worker WorkFunc (Option δ)) (point : WorkerPoint) :
    (workqWorker q point).2.1.enqIdx = q.enqIdx := by
  cases point with
  | item i enqIdx =>
      rw [workqWorker]
      split <;> rfl
  | readEnq => rfl
  | readDeq enqIdx => rfl
  | store enqIdx => rfl
  | sleep => rfl
  | yield => rfl

theorem Resting.awake {s : State τ δ ω} (h : Resting s) : Awake s := by
  intro hne hwaiting
  exact hne ((h.drained hwaiting).reached_eq h.enqIdx).symm

theorem enqueueWork_enqIdx {s : State τ δ ω} (h : s.q.enqIdx < maxWorkq) (func : WorkFunc)
    (arg : Option δ) : (enqueueWork s func arg).q.enqIdx < maxWorkq :=
  RingBuffer.next_lt h

section Devices

variable [DecidableEq δ]

def setCntl (s : State τ δ ω) (dev : δ) (cntl : ℕ) : State τ δ ω :=
  { s with cntl := Function.update s.cntl dev cntl }

def dmaIrq (s : State τ δ ω) (arg : Option δ) : State τ δ ω × ℤ :=
  match arg with
  | none => (s, -einval)
  | some dev =>
      let s := match s.data dev with
        | _ :: _ => enqueueWork s .startDma (some dev)
        | [] => setCntl s dev (s.cntl dev &&& (Word.size - 1 - bmModcoreDmaStart))
      (setCntl s dev (s.cntl dev ||| bmModcoreDmaIrqDone), 0)

theorem dmaIrq_resting {s : State τ δ ω} (h : Resting s) (arg : Option δ) (hc : InTime s (.dma arg)) :
    Resting (dmaIrq s arg).1 := by
  cases arg with
  | none => exact h
  | some dev =>
      cases hdata : s.data dev with
      | nil =>
          rw [dmaIrq, hdata]
          exact ⟨h.enqIdx, h.drained⟩
      | cons order orders =>
          rw [dmaIrq, hdata]
          refine ⟨enqueueWork_enqIdx h.enqIdx _ _, fun hwaiting => ?_⟩
          rcases hc with hnil | hawake
          · rw [hdata] at hnil
            cases hnil
          · exact absurd hwaiting hawake

end Devices

variable [DecidableEq τ] (b : Balancer τ)

def wakeupWorkqWorker (s : State τ δ ω) : State τ δ ω :=
  { s with kernel := enqueueSeToRunq b s.kernel s.task }

def sgiIrq (s : State τ δ ω) (letter : LetterType) (arg : Option δ) : State τ δ ω × ℤ :=
  match letter with
  | .empty => (s, 0)
  | .taskStat => (wakeupWorkqWorker b (enqueueWork s .printTaskStat none), 0)
  | .taskOdev => (wakeupWorkqWorker b (enqueueWork s .createOdevTask arg), 0)

def runWorker (s : State τ δ ω) : State τ δ ω :=
  let (point, q, _) := workqWorker s.q s.point
  let kernel := match s.point with
    | .sleep => dequeueSeToWq b s.kernel s.task
    | .yield => yieldyi s.kernel
    | _ => s.kernel
  { s with kernel := kernel, q := q, point := point }

/-- The tasks and the queue after `create_workq_worker`, in memory that holds anything. -/
def createWorkqWorker (s : Tasks τ) (pt : τ) (wkq : ℕ → Workq WorkFunc (Option δ)) :
    Option (Tasks τ × Worker WorkFunc (Option δ)) :=
  (createCfsTask b s pt 4).map fun s => (s, { enqIdx := 0, deqIdx := 0, wkq := wkq })

/-- Only going to sleep makes the worker wait. -/
theorem runWorker_state (s : State τ δ ω) :
    state (runWorker b s) = if s.point = .sleep then .taskWaiting else state s := by
  obtain ⟨k, task, q, point, data, cntl⟩ := s
  cases point with
  | sleep =>
      have hmoved := (dequeueSeToWq_moved b k task).state task
      rw [if_pos rfl] at hmoved
      rw [if_pos rfl]
      exact hmoved
  | yield =>
      rw [if_neg (by simp)]
      exact congrArg (fun t => (t task).state) (yieldyi_task k)
  | readEnq => rfl
  | readDeq enqIdx => rfl
  | item i enqIdx => rfl
  | store enqIdx => rfl

theorem runWorker_resting {s : State τ δ ω} (h : Resting s)
    (hc : s.point = .sleep → s.q.enqIdx = s.q.deqIdx) : Resting (runWorker b s) where
  enqIdx := by
    change (workqWorker s.q s.point).2.1.enqIdx < maxWorkq
    rw [workqWorker_enqIdx]
    exact h.enqIdx
  drained := by
    intro hwaiting
    rw [runWorker_state] at hwaiting
    change Drained (workqWorker s.q s.point).2.1 (workqWorker s.q s.point).1
    by_cases hsleep : s.point = .sleep
    · rw [hsleep]
      exact (hc hsleep).symm
    · rw [if_neg hsleep] at hwaiting
      exact (h.drained hwaiting).worker h.enqIdx

theorem wakeup_resting {s : State τ δ ω} (h : s.q.enqIdx < maxWorkq) :
    Resting (wakeupWorkqWorker b s) where
  enqIdx := h
  drained := by
    intro hwaiting
    have hmoved := (enqueueSeToRunq_moved b s.kernel s.task).state s.task
    rw [if_pos rfl] at hmoved
    have hrunning : state (wakeupWorkqWorker b s) = .taskRunning := hmoved
    rw [hrunning] at hwaiting
    cases hwaiting

theorem sgiIrq_resting {s : State τ δ ω} (h : Resting s) (letter : LetterType) (arg : Option δ) :
    Resting (sgiIrq b s letter arg).1 := by
  cases letter with
  | empty => exact h
  | taskStat => exact wakeup_resting b (enqueueWork_enqIdx h.enqIdx _ _)
  | taskOdev => exact wakeup_resting b (enqueueWork_enqIdx h.enqIdx _ _)

theorem start_resting {s s' : Tasks τ} {pt : τ} {wkq : ℕ → Workq WorkFunc (Option δ)}
    {q : Worker WorkFunc (Option δ)} (h : createWorkqWorker b s pt wkq = some (s', q))
    (data : δ → List ω) (cntl : δ → ℕ) : Resting (start s' pt q data cntl) := by
  obtain ⟨s₁, hs₁, heq⟩ := Option.map_eq_some_iff.mp h
  cases heq
  exact ⟨Nat.zero_lt_succ _, fun _ => rfl⟩

variable [DecidableEq δ]

/-- The worker runs while its task is current; the rest of the kernel leaves the worker's state to it. -/
def step (s : State τ δ ω) : Step τ δ ω → Option (State τ δ ω)
  | .work => if s.kernel.current = s.task then some (runWorker b s) else none
  | .sgi letter arg => some (sgiIrq b s letter arg).1
  | .dma arg => some (dmaIrq s arg).1
  | .other kernel data cntl =>
      if (kernel.task s.task).state = (s.kernel.task s.task).state then
        some { s with kernel := kernel, data := data, cntl := cntl }
      else none

theorem step_resting (s : State τ δ ω) (i : Step τ δ ω) (t : State τ δ ω) (h : Resting s)
    (hc : InTime s i) (ht : step b s i = some t) : Resting t := by
  cases i with
  | work =>
      simp only [step, Option.ite_none_right_eq_some, Option.some.injEq] at ht
      obtain ⟨-, rfl⟩ := ht
      exact runWorker_resting b h hc
  | sgi letter arg =>
      cases ht
      exact sgiIrq_resting b h letter arg
  | dma arg =>
      cases ht
      exact dmaIrq_resting h arg hc
  | other kernel data cntl =>
      simp only [step, Option.ite_none_right_eq_some, Option.some.injEq] at ht
      obtain ⟨hstate, rfl⟩ := ht
      exact ⟨h.enqIdx, fun hwaiting => h.drained (hstate.symm.trans hwaiting)⟩

/-- A step out of time leaves the worker waiting with work to do. -/
theorem inTime_of_awake (s : State τ δ ω) (i : Step τ δ ω) (t : State τ δ ω) (h : Resting s)
    (ht : step b s i = some t) (hawake : Awake t) : InTime s i := by
  cases i with
  | work =>
      intro hsleep
      simp only [step, Option.ite_none_right_eq_some, Option.some.injEq] at ht
      obtain ⟨-, rfl⟩ := ht
      by_contra hne
      have hwaiting : state (runWorker b s) = .taskWaiting := by
        rw [runWorker_state, if_pos hsleep]
      refine hawake ?_ hwaiting
      change (workqWorker s.q s.point).2.1.enqIdx ≠
        reached (workqWorker s.q s.point).2.1.deqIdx (workqWorker s.q s.point).1
      rw [hsleep]
      exact hne
  | dma arg =>
      cases arg with
      | none => trivial
      | some dev =>
          cases ht
          cases hdata : s.data dev with
          | nil => exact Or.inl hdata
          | cons order orders =>
              refine Or.inr fun hwaiting => ?_
              rw [dmaIrq, hdata] at hawake
              refine hawake ?_ hwaiting
              change RingBuffer.next maxWorkq s.q.enqIdx ≠ reached s.q.deqIdx s.point
              rw [(h.drained hwaiting).reached_eq h.enqIdx]
              exact RingBuffer.next_ne (by decide)
  | sgi letter arg => trivial
  | other kernel data cntl => trivial

/-- From the creation of the worker on, it is awake while there is work in every state exactly when every
step is in time. -/
theorem worker_awake_iff {s s' : Tasks τ} {pt : τ} {wkq : ℕ → Workq WorkFunc (Option δ)}
    {q : Worker WorkFunc (Option δ)} (h : createWorkqWorker b s pt wkq = some (s', q))
    (data : δ → List ω) (cntl : δ → ℕ) (is : List (Step τ δ ω)) :
    Machine.Always (step b) Awake (start s' pt q data cntl) is ↔
      Machine.StepsMeet (step b) InTime (start s' pt q data cntl) is :=
  Machine.always_iff_stepsMeet Resting (fun _ hr => hr.awake) (step_resting b) (inTime_of_awake b)
    (start_resting b h data cntl)



/-- The worker as task 1 of a CPU that has only the idle task 0. -/
def bootWorker : Option (Tasks ℕ × Worker WorkFunc (Option Unit)) :=
  createWorkqWorker (Balancer.plain ℕ) (initTasks (Balancer.plain ℕ) bootKernel 0 0 1) 1
    fun _ => { func := .printTaskStat, arg := none }

theorem bootWorker_isSome : bootWorker.isSome := by decide +kernel

def created : Tasks ℕ × Worker WorkFunc (Option Unit) := bootWorker.get bootWorker_isSome

theorem bootWorker_eq : bootWorker = some (created.1, created.2) := (Option.some_get bootWorker_isSome).symm

/-- One device with one order left. -/
def booted : State ℕ Unit Unit := start created.1 1 created.2 (fun _ => [()]) fun _ => 0

/-- The worker gets the CPU, finds nothing to do and goes to sleep. -/
def fallAsleep : List (Step ℕ Unit Unit) :=
  .other { booted.kernel with current := 1 } booted.data booted.cntl :: List.replicate 5 .work

instance (s : State ℕ Unit Unit) : ∀ i, Decidable (InTime s i)
  | .work => inferInstanceAs (Decidable (_ → _))
  | .dma none => isTrue trivial
  | .dma (some _) => inferInstanceAs (Decidable (_ ∨ _))
  | .sgi _ _ => isTrue trivial
  | .other _ _ _ => isTrue trivial

theorem worker_awake_after_sgi :
    Machine.Always (step (Balancer.plain ℕ)) Awake booted (fallAsleep ++ [.sgi .taskStat none, .work]) :=
  (worker_awake_iff (Balancer.plain ℕ) bootWorker_eq _ _ _).mpr (by decide +kernel)

/-- The transfer ends while the worker sleeps: the next order is enqueued and nothing wakes the worker. -/
theorem dma_leaves_worker_waiting :
    ∃ s, Machine.exec (step (Balancer.plain ℕ)) booted (fallAsleep ++ [.dma (some ())]) = some s ∧
      ¬ Awake s := by
  have hrun : (Machine.exec (step (Balancer.plain ℕ)) booted (fallAsleep ++ [.dma (some ())])).map
      (fun s => (s.q.enqIdx, reached s.q.deqIdx s.point, state s)) = some (1, 0, .taskWaiting) := by
    decide +kernel
  obtain ⟨s, hs, hv⟩ := Option.map_eq_some_iff.mp hrun
  simp only [Prod.mk.injEq] at hv
  obtain ⟨henq, hreached, hwaiting⟩ := hv
  refine ⟨s, hs, fun hawake => hawake ?_ hwaiting⟩
  rw [henq, hreached]
  exact Nat.one_ne_zero

end Slos.WorkerWakeup
