import Slos.HandlerLocks
import Slos.KernelCalls
import Slos.KernelSystem
import Slos.SoloRun

/-!
# Serial runs of the scheduler

Interrupts and calls that come only while a task is in code of its own: each handler and each call comes to its end
without a fault and without waiting for a lock, and the statements of `KernelCode` together make the steps of the
atomic machine.
-/

namespace Slos.KernelCode
open Interruptible Straight Code Machine
open SearchTree (Balancer)
open QueueMembers (Unmoved place place_eq_iff shellTask shellTask_mem expiring)
open WorkerWakeup (WorkFunc)
open Mailbox (LetterType)

variable {τ α : Type} [DecidableEq τ]

section Stays

variable {inHandler last : Bool}

omit [DecidableEq τ] in
theorem stays_lines (c : Body τ α) : (lines c).Stays inHandler last := stays_lift c

omit [DecidableEq τ] in
theorem stays_lock (l : Lock) : (lock l : Prog τ Unit).Stays inHandler last := trivial

omit [DecidableEq τ] in
theorem stays_unlock (l : Lock) : (unlock l : Prog τ Unit).Stays inHandler last := trivial

theorem removeFromWq_stays (p : τ) : (removeFromWq p).Stays inHandler last :=
  stays_bind (stays_lock _) fun _ => stays_bind (stays_lines _) fun _ => stays_bind (stays_lines _) fun _ => stays_unlock _

theorem addToWq_stays (p : τ) : (addToWq p).Stays inHandler last := by
  refine stays_bind (stays_lines _) fun temp => stays_bind (stays_lock _) fun _ => stays_bind (stays_lines _) fun _ => ?_
  exact stays_bind (stays_lines _) fun _ => stays_bind (stays_lines _) fun _ => stays_bind (stays_lines _) fun _ =>
    stays_unlock _

theorem enqueueSeToRunq_stays (se : τ) : (enqueueSeToRunq se).Stays inHandler last := by
  refine stays_bind (stays_lines _) fun _ => stays_bind (removeFromWq_stays se) fun _ =>
    stays_bind (stays_lines _) fun _ => ?_
  exact stays_bind (stays_lock _) fun _ => stays_bind (stays_lines _) fun _ => stays_bind (stays_lines _) fun _ =>
    stays_unlock _

theorem dequeueSeToWq_stays (se : τ) : (dequeueSeToWq se).Stays inHandler last := by
  refine stays_bind (stays_lines _) fun _ => stays_bind (addToWq_stays se) fun _ => stays_bind (stays_lines _) fun _ => ?_
  exact stays_bind (stays_lock _) fun _ => stays_bind (stays_lines _) fun _ => stays_bind (stays_lines _) fun _ =>
    stays_unlock _

theorem schedExpired_stays (thisCurrent : τ) (pct : TimerId) : (schedExpired thisCurrent pct).Stays true false := by
  have hschedule : (schedule : Prog τ Unit).Stays true false := by
    refine stays_bind (stays_lines _) fun next => stays_bind (stays_lines _) fun next =>
      stays_bind (stays_lines _) fun t => ?_
    split
    · exact stays_pure _
    · exact stays_bind ⟨rfl, trivial⟩ fun _ => stays_lines _
  refine stays_bind (stays_lines _) fun type => ?_
  split
  · exact stays_pure _
  · exact stays_bind (stays_bind (stays_lines _) fun _ => hschedule) fun _ => stays_lines _

theorem switchToTimer_stays (thisCurrent : τ) (pct : TimerId) : (switchToTimer thisCurrent pct).Stays true false := by
  refine stays_bind (stays_lines _) fun pt => ?_
  split
  · refine stays_bind (stays_lines _) fun type => ?_
    have hswitch (dest : τ) : (switchTo thisCurrent dest : Prog τ Unit).Stays true false := ⟨rfl, trivial⟩
    split
    · exact stays_bind (stays_lines _) fun _ => stays_bind (stays_lines _) fun _ => stays_bind (hswitch _) fun _ =>
        stays_bind (stays_lines _) fun _ => stays_lines _
    · exact stays_bind (stays_lines _) fun _ => stays_bind (hswitch _) fun _ => stays_bind (stays_lines _) fun _ =>
        stays_lines _
  · exact stays_pure _

theorem timerIrq_stays : (timerIrq : Prog τ Unit).Stays true false := by
  refine stays_bind (stays_lines _) fun t => stays_bind (stays_lines _) fun e => stays_bind (stays_lines _) fun p =>
    stays_bind (stays_lines _) fun pct => stays_bind (stays_lines _) fun _ => stays_bind (stays_lines _) fun type => ?_
  split
  · exact schedExpired_stays _ _
  refine stays_bind (switchToTimer_stays _ _) fun _ => stays_bind (stays_lines _) fun type => ?_
  split
  · refine stays_bind (stays_lines _) fun state => ?_
    split
    · exact stays_bind (stays_lines _) fun _ => stays_bind (enqueueSeToRunq_stays _) fun _ => stays_lines _
    · exact stays_lines _
  · exact stays_lines _

theorem handler_stays (source : Source) : (handler source : Prog τ Unit).Stays true false := by
  have hwake : (wakeupWorkqWorker : Prog τ Unit).Stays true false :=
    stays_bind (stays_lines _) fun _ => stays_bind (stays_lines _) fun _ => enqueueSeToRunq_stays _
  cases source with
  | timer => exact timerIrq_stays
  | sgi letter arg =>
      cases letter with
      | empty => exact stays_pure _
      | taskStat => exact stays_bind (stays_lines _) fun _ => hwake
      | taskOdev => exact stays_bind (stays_lines _) fun _ => hwake

omit [DecidableEq τ] in
/-- `yieldyi` leaves with its last statement. -/
theorem yieldyi_stays : (yieldyi : Prog τ Unit).Stays false true := by
  refine stays_bind (stays_lines _) fun t => stays_bind (stays_lines _) fun idle => stays_bind (stays_lines _) fun y => ?_
  split
  · exact stays_pure _
  have hyield (prev next : τ) : (yieldTo prev next : Prog τ Unit).Stays false true := ⟨rfl, rfl, (), rfl⟩
  refine stays_bind trivial fun _ => stays_bind (stays_lines _) fun y => stays_bind (stays_lines _) fun y =>
    stays_bind (stays_lines _) fun state => ?_
  split
  · exact stays_bind (stays_lines _) fun _ => stays_bind (stays_lines _) fun _ => stays_bind (stays_lines _) fun _ =>
      stays_bind (stays_lines _) fun _ => hyield _ _
  · exact stays_bind (stays_lines _) fun _ => stays_bind (stays_lines _) fun _ => hyield _ _

theorem mdelay_stays (msecs : ℕ) : (mdelay msecs : Prog τ Unit).Stays false true := by
  refine stays_bind (stays_lines _) fun ticks => stays_bind (stays_lines _) fun t => stays_bind (stays_lines _) fun idle =>
    stays_bind (dequeueSeToWq_stays _) fun _ => stays_bind (stays_lines _) fun _ => stays_bind (stays_lines _) fun y =>
    stays_bind (stays_lines _) fun y => stays_bind (stays_lines _) fun state => ?_
  split
  · exact stays_bind (stays_lines _) fun _ => yieldyi_stays
  · exact yieldyi_stays

theorem forkyi_stays (pt : τ) (type : TaskType) (pri : ℕ) : (forkyi pt type pri).Stays inHandler last := by
  have hrest (first lastTask thisCurrent : τ) : (do
      setSe pt fun e => { e with ticksConsumed := 0 }
      setSe pt fun e => { e with jiffiesVruntime := 0 }
      setSe pt fun e => { e with jiffiesConsumed := 0 }
      setTask pt fun t => { t with yieldTask := some thisCurrent }
      setTask pt fun t => { t with preempted := 0 }
      setTask pt fun t => { t with done := 1 }
      save fun m => { m with taskCreatedNum := Word.u32 (m.taskCreatedNum + 1) }
      spawnThread pt
      save fun m => { m with taskNext := Function.update m.taskNext lastTask (some pt) }
      save fun m => { m with taskNext := Function.update m.taskNext pt (some first) }
      save fun m => { m with last := pt }
      return some pt : Prog τ (Option τ)).Stays inHandler last := by
    refine stays_bind (stays_lines _) fun _ => stays_bind (stays_lines _) fun _ => stays_bind (stays_lines _) fun _ => ?_
    refine stays_bind (stays_lines _) fun _ => stays_bind (stays_lines _) fun _ => stays_bind (stays_lines _) fun _ => ?_
    refine stays_bind (stays_lines _) fun _ => stays_bind trivial fun _ => stays_bind (stays_lines _) fun _ => ?_
    exact stays_bind (stays_lines _) fun _ => stays_bind (stays_lines _) fun _ => stays_pure _
  unfold forkyi
  split
  · exact stays_pure _
  refine stays_bind (stays_lines _) fun first => stays_bind (stays_lines _) fun lastTask =>
    stays_bind (stays_lines _) fun thisCurrent => stays_bind (stays_lines _) fun num => ?_
  split
  · exact stays_pure _
  refine stays_bind (stays_lines _) fun _ => stays_bind (stays_lines _) fun _ => stays_bind (stays_lines _) fun _ => ?_
  split
  · exact stays_bind (stays_lines _) fun _ => stays_bind (stays_lines _) fun _ => hrest first lastTask thisCurrent
  · exact hrest first lastTask thisCurrent

theorem call_stays (c : Call τ) : (call c).Stays false true := by
  cases c with
  | mdelay msecs => exact mdelay_stays msecs
  | createCfsTask pt pri =>
      exact stays_bind (forkyi_stays _ _ _) fun _ => stays_bind (stays_lines _) fun task =>
        stays_bind (stays_lines _) fun _ => stays_bind (enqueueSeToRunq_stays task) fun _ => stays_lines _
  | sleep byte =>
      refine stays_bind (stays_lines _) fun found => ?_
      split
      · exact dequeueSeToWq_stays _
      · exact stays_pure _
  | run byte =>
      refine stays_bind (stays_lines _) fun found => ?_
      split
      · exact enqueueSeToRunq_stays _
      · exact stays_pure _

end Stays

/-- The current task is in code of its own, and the memory is that of a state of the atomic machine. -/
structure Rests (u : Cpu (Mem τ) Lock τ) (s : System τ) : Prop where
  resting : u.Resting fun m => m.current
  shows : ∃ o, Shows u.mem s.kernel o ∧ Lists o s.toTasks ∧ o.qworker = s.q ∧ o.qworkerTask = s.worker
  intact : s.Intact

section Steps

variable {u : Cpu (Mem τ) Lock τ} {s s' : System τ} {o o' : Others τ} {m : Mem τ} {ws : List τ} {B : ℕ}

omit [DecidableEq τ] in
theorem System.Intact.room (h : s.Intact) (hsound : Sound s.kernel s.tasks ws) : ∃ B, Room B s.kernel ws ∧
    s.kernel.runq.cfsTaskNum < B := by
  refine ⟨ws.length + s.kernel.queue.length + s.kernel.timers.queue.length + s.kernel.runq.cfsTaskNum + 4, ?_, by omega⟩
  exact ⟨hsound.parted.waits, by omega, h.waiting_lt hsound, by omega, by omega⟩

/-- What runs alone to the state after a step answers the step. -/
theorem Rests.answer {x : Source ⊕ Call τ} (hu : Rests u s) (hd : s.Disciplined x) (hs : s.step x = some s')
    (hc : Computes B (x.elim handler call) u.mem s'.kernel o') (hl : Lists o' s'.toTasks) (hq : o'.qworker = s'.q)
    (hworker : o'.qworkerTask = s'.worker) :
    ∃ n v, exec step u (.of x :: List.replicate n .run) = some v ∧ Rests v s' := by
  obtain ⟨o, hshows, -⟩ := hu.shows
  have hintact := System.step_intact hu.intact hshows hd hs
  have hrests {v : Cpu (Mem τ) Lock τ} (hv : v.Resting fun m => m.current) (hshows' : Shows v.mem s'.kernel o') :
    Rests v s' :=
    ⟨hv, ⟨o', hshows', hl, hq, hworker⟩, hintact⟩
  rcases x with source | c
  · obtain ⟨n, v, hexec, hv, hshows'⟩ := Cpu.rests_after_irq (Q := fun m => Shows m s'.kernel o') handler call
      hu.resting (handler_stays source) hc
    exact ⟨n, v, hexec, hrests hv hshows'⟩
  · obtain ⟨n, v, hexec, hv, hshows'⟩ := Cpu.rests_after_call (Q := fun m => Shows m s'.kernel o') handler call
      hu.resting (call_stays c) hc
    exact ⟨n, v, hexec, hrests hv hshows'⟩

theorem computes_sgi {func : WorkFunc} {arg : ℕ} {worker : τ} (hroom : Room B s.kernel ws) (h : Shows m s.kernel o)
    (hworker : o.qworkerTask = some worker) (hnew : worker ∉ s.kernel.queue) :
    Computes B (do lines (enqueueWorkq func arg); wakeupWorkqWorker) m
      (Slos.enqueueSeToRunq (Balancer.redBlack τ) s.kernel worker) (o.enqueue func arg) :=
  (computes_lines (ends_enqueueWorkq h func arg) h.current.symm).bind fun _ h =>
    computes_wakeup hroom h hworker hnew

omit [DecidableEq τ] in
theorem Lists.setKernel {t : Tasks τ} (h : Lists o t) (k : Kernel τ) : Lists o { t with kernel := k } :=
  ⟨h.follows, h.last, h.pid, h.taskCreatedNum⟩

theorem irq_answered {source : Source} (hu : Rests u s) (hd : s.Disciplined (.inl source)) (hs : s.irq source = some s') :
    ∃ n v, exec step u (.irq source :: List.replicate n .run) = some v ∧ Rests v s' := by
  obtain ⟨o, hshows, hl, hq, hworker⟩ := hu.shows
  obtain ⟨ws, hsound⟩ := hu.intact.sound
  obtain ⟨B, hroom, -⟩ := hu.intact.room hsound
  have hwake {func : WorkFunc} {arg : ℕ} (hnew : ∀ t ∈ s.worker, t ∉ s.kernel.queue) (hs' : s.wake func arg = some s') :
      Computes B (do lines (enqueueWorkq func arg); wakeupWorkqWorker) u.mem s'.kernel (o.enqueue func arg) ∧
        Lists (o.enqueue func arg) s'.toTasks ∧ (o.enqueue func arg).qworker = s'.q ∧ s.worker = s'.worker := by
    obtain ⟨worker, hsome, rfl⟩ := Option.map_eq_some_iff.mp hs'
    refine ⟨computes_sgi hroom hshows (hworker.trans hsome) (hnew worker hsome), ?_, ?_, rfl⟩
    · exact ⟨hl.follows, hl.last, hl.pid, hl.taskCreatedNum⟩
    · exact congrArg (fun q => (Slos.enqueueWorkq q func arg).1) hq
  cases source with
  | timer =>
      have hs' := hs
      obtain ⟨k, hk, rfl⟩ := Option.map_eq_some_iff.mp hs'
      exact hu.answer hd hs (computes_timerIrq hroom hshows hd.enqueued hk) (hl.setKernel k) hq hworker
  | sgi letter arg =>
      cases letter with
      | empty =>
          cases hs
          exact hu.answer hd rfl (computes_pure (B := B) hshows) hl hq hworker
      | taskStat =>
          obtain ⟨hc, hl', hq', hsame⟩ := hwake hd.enqueued hs
          exact hu.answer hd hs hc hl' hq' (hworker.trans hsame)
      | taskOdev =>
          obtain ⟨hc, hl', hq', hsame⟩ := hwake hd.enqueued hs
          exact hu.answer hd hs hc hl' hq' (hworker.trans hsame)

theorem call_answered {c : Call τ} (hu : Rests u s) (hd : s.Disciplined (.inr c)) (hs : s.call c = some s') :
    ∃ n v, exec step u (.call c :: List.replicate n .run) = some v ∧ Rests v s' := by
  obtain ⟨o, hshows, hl, hq, hworker⟩ := hu.shows
  obtain ⟨ws, hsound⟩ := hu.intact.sound
  obtain ⟨B, hroom, hnum⟩ := hu.intact.room hsound
  have hcall := hs
  cases c with
  | mdelay msecs =>
      obtain ⟨k, hk, rfl⟩ := Option.map_eq_some_iff.mp hcall
      exact hu.answer hd hs (computes_mdelay hroom hshows (hd.dequeued _ rfl) (hd.armed _ rfl) hk)
        (hl.setKernel k) hq hworker
  | createCfsTask pt pri =>
      simp only [System.call] at hcall
      split_ifs at hcall with hpt
      obtain ⟨t, ht, rfl⟩ := Option.map_eq_some_iff.mp hcall
      have hnew : pt ∉ s.kernel.queue := fun hmem => hpt (hsound.parted.queued pt hmem)
      have hlists : Lists (o.fork pt) t := by
        obtain ⟨t₁, ht₁, rfl⟩ := Option.map_eq_some_iff.mp ht
        exact (hl.fork hu.intact.nodup hpt ht₁).setKernel _
      exact hu.answer hd hs (computes_createCfsTask hroom hshows hl hnew ht) hlists hq hworker
  | sleep byte =>
      cases hcall
      refine hu.answer hd hs (computes_shellSleep hroom hshows hl hnum hu.intact.cfs fun t ht hstate => ?_)
        (hl.setKernel _) hq hworker
      exact hd.dequeued t (Option.filter_eq_some_iff.mpr ⟨ht, decide_eq_true hstate⟩)
  | run byte =>
      cases hcall
      refine hu.answer hd hs (computes_shellRun hroom hshows hl hnum hu.intact.cfs fun t ht hstate => ?_)
        (hl.setKernel _) hq hworker
      exact hd.enqueued t (Option.filter_eq_some_iff.mpr ⟨ht, decide_eq_true hstate⟩)

theorem answers : Cpu.Answers (handler : Source → Prog τ Unit) call System.step System.Disciplined Rests := by
  rintro u s (source | c) s' hu hd hs
  · exact irq_answered hu hd hs
  · exact call_answered hu hd hs

omit [DecidableEq τ] in
theorem Rests.atRest (h : Rests u s) : u.AtRest := ⟨h.resting.irq, h.resting.code⟩

end Steps

/-- A run of the atomic machine whose steps are disciplined is one of the processor, and every serial run of the processor
with the same interrupts and calls that comes to rest ends in the same state: with all locks free and interrupts on, the
queues red-black trees that are cached right, and no task in both queues. -/
theorem serial_runs {u : Cpu (Mem τ) Lock τ} {s s' : System τ} {xs : List (Source ⊕ Call τ)} (hu : Rests u s)
    (hd : StepsMeet System.step System.Disciplined s xs) (hs : exec System.step s xs = some s') :
    (∃ fs v, exec step u fs = some v ∧ Cpu.Serial handler call u fs ∧ fs.filterMap Event.external = xs ∧ Rests v s') ∧
      ∀ fs v, exec step u fs = some v → Cpu.Serial handler call u fs → fs.filterMap Event.external = xs → v.AtRest →
        Rests v s' := by
  refine ⟨Cpu.exists_serial answers (fun _ _ h => h.atRest) hu hd hs, ?_⟩
  rintro fs v hexec hserial rfl hrest
  exact Cpu.serial_refines answers (fun _ _ h => h.atRest) hu hserial hexec hrest hd hs

/-- The atomic state that `workerWaits` shows. -/
def workerWaitsSystem : System ℕ where
  kernel := view workerWaits (.node .black (.node .red .nil 1 .nil) 0 .nil) (.node .black .nil .sched .nil) 0
  tasks := [0, 1, 2]
  pid := 3
  taskCreatedNum := 3
  q := workerWaits.qworker
  worker := some 2

theorem rests_workerWaits : Rests (idle workerWaits) workerWaitsSystem := by
  have hrunq : Linked workerWaits.runq (.node .black (.node .red .nil 1 .nil) 0 .nil) :=
    ⟨⟨rfl, ⟨rfl, ⟨rfl, trivial, trivial⟩, trivial⟩, by decide⟩, ⟨rfl, 1, 0, rfl, ⟨rfl, rfl, rfl, rfl⟩, rfl⟩, rfl⟩
  have hptroot : Linked workerWaits.ptroot (.node .black .nil .sched .nil) :=
    ⟨⟨rfl, ⟨rfl, trivial, trivial⟩, by decide⟩, ⟨rfl, 1, 0, rfl, rfl, rfl⟩, rfl⟩
  refine ⟨⟨⟨rfl, fun l => by simp [idle], fun _ => rfl, rfl, fun _ => rfl, nofun⟩, rfl, rfl⟩, ?_, ?_⟩
  · exact ⟨others workerWaits, .mk 0 hrunq hptroot, ⟨⟨rfl, rfl, rfl, trivial⟩, rfl, rfl, rfl⟩, rfl, rfl⟩
  · refine ⟨by decide, rfl, by decide, by decide, ⟨[2], ⟨?_, ?_⟩⟩, ?_⟩
    · exact ⟨by decide, ⟨rfl, rfl⟩, by decide, by decide, by decide⟩
    · exact ⟨by decide, by decide, by decide, by decide⟩
    · rintro t ⟨⟩
      decide

/-- The task delays itself, a letter wakes the worker, and then a tick comes. -/
def delayedRun : List (Source ⊕ Call ℕ) := [.inr (.mdelay 1000), .inl (.sgi .taskStat 0), .inl .timer]

theorem serial_runs_delayedRun :
    ∃ fs v, exec step (idle workerWaits) fs = some v ∧ fs.filterMap Event.external = delayedRun ∧
    v.mem.current = 2 ∧ v.owner .rqlock = none ∧ v.owner .wqlock = none := by
  have hrun : ((exec System.step workerWaitsSystem delayedRun).map fun s => s.kernel.current) = some 2 := by decide +kernel
  obtain ⟨s', hs', hcurrent⟩ := Option.map_eq_some_iff.mp hrun
  obtain ⟨fs, v, hexec, -, hfs, hv⟩ := (serial_runs rests_workerWaits (by decide +kernel) hs').1
  obtain ⟨o, hshows, -⟩ := hv.shows
  have howner (l : Lock) : v.owner l = none := (hv.resting.place.owner l).mpr (Finset.notMem_empty l)
  exact ⟨fs, v, hexec, hfs, hshows.current.trans hcurrent, howner _, howner _⟩

end Slos.KernelCode
