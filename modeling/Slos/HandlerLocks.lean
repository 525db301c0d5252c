import Slos.KernelCode

/-!
# Locks that interrupt handlers ask for

The calls a task makes hold `rqlock` or `wqlock` with interrupts on, and `enqueue_se_to_runq` asks for both of them in
`timer_irq` and in `sgi_irq`. An interrupt that comes while the interrupted code holds one of them is harmless exactly where
the handler does not get as far as `enqueue_se_to_runq`: a letter must not be there, and the leftmost timer must not be the
oneshot timer of a task that waits. The lock may belong to a task that was switched away from on the same processor as
well, so a handler that waits for no task at all needs the same wherever any task holds one.
-/

namespace Slos.KernelCode
open Interruptible Straight Code Machine

variable {τ α : Type}

/-- `m'` has the timers' types and tasks and the tasks' states of `m`. -/
structure Keeps (m m' : Mem τ) : Prop where
  type : ∀ p, (m'.timer p).type = (m.timer p).type
  pt : ∀ p, (m'.timer p).pt = (m.timer p).pt
  state : ∀ t, (m'.task t).state = (m.task t).state

namespace Keeps

theorem refl (m : Mem τ) : Keeps m m := ⟨fun _ => rfl, fun _ => rfl, fun _ => rfl⟩

theorem trans {m m' m'' : Mem τ} (h : Keeps m m') (h' : Keeps m' m'') : Keeps m m'' :=
  ⟨fun p => (h'.type p).trans (h.type p), fun p => (h'.pt p).trans (h.pt p), fun t => (h'.state t).trans (h.state t)⟩

theorem setTimer (m : Mem τ) (t : TimerId) {p : TimerStruct τ} (htype : p.type = (m.timer t).type)
    (hpt : p.pt = (m.timer t).pt) : Keeps m { m with timer := Function.update m.timer t p } := by
  refine ⟨fun u => ?_, fun u => ?_, fun _ => rfl⟩ <;> rcases eq_or_ne u t with rfl | hu
  · simpa only [Function.update_self] using htype
  · simp only [Function.update_of_ne hu]
  · simpa only [Function.update_self] using hpt
  · simp only [Function.update_of_ne hu]

variable [DecidableEq τ]

theorem setTask (m : Mem τ) (t : τ) {p : Task τ} (hp : p.state = (m.task t).state) :
    Keeps m { m with task := Function.update m.task t p } := by
  refine ⟨fun _ => rfl, fun _ => rfl, fun u => ?_⟩
  rcases eq_or_ne u t with rfl | hu
  · simpa only [Function.update_self] using hp
  · simp only [Function.update_of_ne hu]

end Keeps

section Reprogram

theorem fetch_keeps (f : Mem τ → α) : (fetch f).Within Keeps := within_fetch Keeps.refl f

theorem onPtroot_keeps (c : Straight (CachedRoot TimerId) α) : (onPtroot c : Body τ α).Within Keeps :=
  within_on (fun _ _ => ⟨fun _ => rfl, fun _ => rfl, fun _ => rfl⟩) c

theorem setTimer_keeps (t : TimerId) {f : TimerStruct τ → TimerStruct τ} (htype : ∀ p, (f p).type = p.type)
    (hpt : ∀ p, (f p).pt = p.pt) : (setTimer t f).Within Keeps :=
  within_store.2 fun m => Keeps.setTimer m t (htype _) (hpt _)

theorem elapse_keeps (pct : TimerId) (elapsed : ℕ) : (elapse pct elapsed : Body τ Unit).Within Keeps := by
  refine within_bind (fetch_keeps _) fun temp => within_bind (fetch_keeps _) fun least => ?_
  split
  · exact within_store.2 fun m => Keeps.setTimer m pct rfl rfl
  · exact setTimer_keeps pct (fun _ => rfl) fun _ => rfl

theorem insertRound_keeps (value : ℕ) (l : Option TimerId × RbTree.Link TimerId × Bool) :
    (insertRound value l : Body τ _).Within Keeps := by
  obtain ⟨parent, link, isLeftmost⟩ := l
  refine within_bind (onPtroot_keeps _) fun top => ?_
  split
  · exact within_pure _
  · refine within_bind (onPtroot_keeps _) fun top => within_bind (within_deref _) fun parent =>
      within_bind (fetch_keeps _) fun tc => ?_
    split <;> exact within_bind (onPtroot_keeps _) fun n => within_bind (within_deref _) fun n => within_pure _

theorem updateRound_keeps (elapsed : ℕ) (pcur : Option TimerId) : (updateRound elapsed pcur : Body τ _).Within Keeps := by
  cases pcur with
  | none => exact within_pure _
  | some pct =>
      refine within_bind (onPtroot_keeps _) fun first => ?_
      have hnext : (do return .inl (← onPtroot (onTree (RbTree.rbNext pct))) : Body τ (Option TimerId ⊕ Unit)).Within Keeps :=
        within_bind (onPtroot_keeps _) fun _ => within_pure _
      dsimp only
      split
      · refine within_bind (fetch_keeps _) fun pt => within_bind (fetch_keeps _) fun done => ?_
        split
        · exact within_bind (setTimer_keeps pct (fun _ => rfl) fun _ => rfl) fun _ => hnext
        · exact within_bind (elapse_keeps pct elapsed) fun _ => hnext
      · exact within_bind (elapse_keeps pct elapsed) fun _ => hnext

theorem insertTimer_keeps (pts : TimerId) : (insertTimer pts : Body τ Unit).Within Keeps :=
  within_bind (fetch_keeps _) fun value => within_bind (within_iterate (insertRound_keeps value) _) fun _ =>
    onPtroot_keeps _

theorem updateTimerTree_keeps (elapsed : ℕ) : (updateTimerTree elapsed : Body τ Unit).Within Keeps :=
  within_bind (onPtroot_keeps _) fun _ => within_bind (within_iterate (updateRound_keeps elapsed) _) fun _ =>
    within_bind (onPtroot_keeps _) fun _ => within_bind (within_deref _) fun pct =>
      within_bind (onPtroot_keeps _) fun _ => insertTimer_keeps pct

variable [DecidableEq τ]

theorem setSe_keeps (t : τ) (f : SchedEntity → SchedEntity) : (setSe t f).Within Keeps :=
  within_store.2 fun m => Keeps.setTask m t rfl

theorem updateCurrent_keeps (elapsed : ℕ) : (updateCurrent elapsed : Body τ Unit).Within Keeps := by
  refine within_bind (fetch_keeps _) fun thisCurrent => within_bind (fetch_keeps _) fun type => ?_
  split
  · refine within_bind (within_store.2 fun m => ⟨fun _ => rfl, fun _ => rfl, fun _ => rfl⟩) fun _ => ?_
    exact within_bind (setSe_keeps _ _) fun _ => within_bind (setSe_keeps _ _) fun _ => setSe_keeps _ _
  · refine within_bind (fetch_keeps _) fun type => ?_
    split
    · exact setSe_keeps _ _
    · exact within_pure _

theorem reprogram_keeps (elapsed : ℕ) : (reprogram elapsed : Body τ Unit).Within Keeps := by
  refine within_bind (updateTimerTree_keeps elapsed) fun _ => within_bind (onPtroot_keeps _) fun _ =>
    within_bind (within_deref _) fun pnt => within_bind (fetch_keeps _) fun tc => ?_
  exact within_bind (within_store.2 fun m => ⟨fun _ => rfl, fun _ => rfl, fun _ => rfl⟩) fun _ =>
    updateCurrent_keeps elapsed

end Reprogram

section Handlers

theorem wp_of_keeps {c : Prog τ α} {m₀ m : Mem τ} (hc : c.Calm Keeps) (h : Keeps m₀ m) :
    c.wp (fun _ m' => Keeps m₀ m') m :=
  wp_of_calm (R := Keeps) (fun _ _ _ => Keeps.trans) hc m₀ h

theorem lockless_lines (c : Body τ α) : (lines c).Lockless := lockless_lift c

variable [DecidableEq τ]

theorem switchToTimer_calm (thisCurrent : τ) (pct : TimerId) : (switchToTimer thisCurrent pct).Calm Keeps := by
  have hswitch : ((do
      switchTo thisCurrent (← load fun m => (m.timer pct).pt)
      save fun m => { m with
        task := Function.update m.task (m.timer pct).pt
          { m.task (m.timer pct).pt with yieldTask := some thisCurrent } }
      save fun m => { m with current := (m.timer pct).pt }) : Prog τ Unit).Calm Keeps := by
    refine calm_bind (calm_lift (fetch_keeps _)) fun pt => calm_bind (calm_switchTo _ _) fun _ => ?_
    refine calm_bind (calm_lift (within_store.2 fun m => Keeps.setTask m _ rfl)) fun _ => ?_
    exact calm_lift (within_store.2 fun m => ⟨fun _ => rfl, fun _ => rfl, fun _ => rfl⟩)
  refine calm_bind (calm_lift (fetch_keeps _)) fun pt => ?_
  split
  · refine calm_bind (calm_lift (fetch_keeps _)) fun type => ?_
    split
    · exact calm_bind (calm_lift (within_store.2 fun m => Keeps.setTask m _ rfl)) fun _ => hswitch
    · exact hswitch
  · exact calm_pure _

theorem schedExpired_lockless (thisCurrent : τ) (pct : TimerId) : (schedExpired thisCurrent pct).Lockless := by
  have hschedule : (schedule : Prog τ Unit).Lockless := by
    refine calm_bind (lockless_lines _) fun next => calm_bind (lockless_lines _) fun next => ?_
    refine calm_bind (lockless_lines _) fun thisCurrent => ?_
    split
    · exact calm_pure _
    · exact calm_bind (calm_switchTo _ _) fun _ => lockless_lines _
  refine calm_bind (lockless_lines _) fun type => ?_
  split
  · exact calm_pure _
  · exact calm_bind (calm_bind (lockless_lines _) fun _ => hschedule) fun _ => lockless_lines _

/-- The leftmost timer is the oneshot timer of a task that waits. -/
def WakesTask (m : Mem τ) : Prop := ∃ p, m.ptroot.rbLeftmost = some p ∧ (m.timer p).type = .oneshotTimer ∧
  (m.task (m.timer p).pt).state = .taskWaiting

theorem oneshotExpired_wp {m : Mem τ} {pct : TimerId} (h : (m.task (m.timer pct).pt).state ≠ .taskWaiting) :
    (oneshotExpired pct).wp (fun _ _ => True) m := by
  apply wp_fetch
  rw [if_neg h]
  exact (lockless_lines _).wp m

theorem timerIrq_wp {m : Mem τ} (h : ¬ WakesTask m) : (timerIrq : Prog τ Unit).wp (fun _ _ => True) m := by
  apply wp_fetch
  apply wp_fetch
  apply wp_fetch
  refine wp_deref fun pct hpct => ?_
  refine wp_bind (wp_mono (wp_of_keeps (calm_lift (reprogram_keeps _)) (Keeps.refl m)) fun _ m₁ h₁ => ?_)
  apply wp_fetch
  split
  · exact (schedExpired_lockless _ _).wp m₁
  refine wp_bind (wp_mono (wp_of_keeps (switchToTimer_calm _ _) h₁) fun _ m₂ h₂ => ?_)
  apply wp_fetch
  split
  · next htype =>
      apply oneshotExpired_wp
      rw [h₂.state, h₂.pt]
      exact fun hstate => h ⟨pct, hpct, (h₂.type pct) ▸ htype, hstate⟩
  · exact (lockless_lines _).wp m₂

end Handlers

/-- The interrupt does not come to `enqueue_se_to_runq`. -/
def Harmless (m : Mem τ) : Source → Prop
  | .timer => ¬ WakesTask m
  | .sgi letter _ => letter = .empty

/-- Where the interrupted code holds a lock, no letter and no oneshot timer of a task that waits is there. -/
def Careful (s : Cpu (Mem τ) Lock τ) : Event Source (Call τ) → Prop
  | .irq source => Cpu.OwnsNone s.owner s.running.id ∨ match source with
    | .timer => ¬ WakesTask s.mem
    | .sgi letter _ => letter = .empty
  | _ => True

/-- The same where any task of the processor holds a lock, the interrupted one or one that it was switched from. -/
def CarefulOfAll (s : Cpu (Mem τ) Lock τ) : Event Source (Call τ) → Prop
  | .irq source => (∀ t, Cpu.OwnsNone s.owner t) ∨ Harmless s.mem source
  | _ => True

section Runs

variable [DecidableEq τ] {s : Cpu (Mem τ) Lock τ} {es : List (Event Source (Call τ))}

theorem Harmless.handler_wp {m : Mem τ} {source : Source} (h : Harmless m source) :
    (handler source).wp (fun _ _ => True) m := by
  cases source with
  | timer => exact timerIrq_wp h
  | sgi letter arg =>
      have hempty : letter = .empty := h
      subst hempty
      trivial

/-- In a run whose interrupts are all careful no handler waits for a lock of the code it interrupted. -/
theorem handlers_never_spin (hirq : s.irq = none) (h : StepsMeet step Careful s es) :
    Always step Cpu.NoSelfDeadlock s es := by
  refine Cpu.always_noSelfDeadlock hirq (h.mono fun s e he => ?_)
  cases e with
  | irq source =>
      refine he.imp_right fun he => Harmless.handler_wp ?_
      cases source <;> exact he
  | _ => trivial

/-- A handler waits for no lock of a task at all, where the tasks that do not run are looked at as well. -/
theorem handlers_never_wait (hirq : s.irq = none) (h : StepsMeet step CarefulOfAll s es) :
    Always step Cpu.NoThreadDeadlock s es := by
  refine Cpu.always_noThreadDeadlock hirq (h.mono fun s e he => ?_)
  cases e with
  | irq source => exact he.imp_right Harmless.handler_wp
  | _ => trivial

end Runs

/-- The idle task 0 and the running task 1 are in the run queue, the worker 2 waits, and the sched timer is armed. -/
def workerWaits : Mem ℕ where
  task t := { rawTask with
    se := { jiffiesVruntime := 0, ticksConsumed := 0, jiffiesConsumed := 0, priority := 16, priDivShift := 4 }
    pid := t
    yieldTask := if t = 0 then none else some 0
    waitPrev := if t = 2 then some .head else none
    state := if t = 2 then .taskWaiting else .taskRunning
    done := 1 }
  taskNext t := some (if t = 2 then 0 else t + 1)
  runq := {
    root := {
      node := fun t => if t = 0 then ⟨none, true, none, some 1⟩ else ⟨some 0, false, none, none⟩
      rbNode := some 0 }
    rbLeftmost := some 1 }
  prioritySum := 32
  cfsTaskNum := 3
  wq := { next := some 2, count := 1 }
  timer _ := { tc := 3330000, intvl := 3330000, pt := 0, type := .schedTimer }
  ptroot := { root := { node := fun _ => ⟨none, true, none, none⟩, rbNode := some .sched }, rbLeftmost := some .sched }
  oneshotTimerIdx := 0
  ticksPerSec := 333000000
  load := 3330000
  current := 1
  idleTask := 0
  first := 0
  last := 2
  jiffies := 0
  nullVruntime := 0
  pid := 3
  taskCreatedNum := 3
  qworker := { enqIdx := 0, deqIdx := 0, wkq := fun _ => { func := .printTaskStat, arg := 0 } }
  qworkerTask := some 2

def idle (m : Mem ℕ) : Cpu (Mem ℕ) Lock ℕ where
  mem := m
  owner := fun _ => none
  saved := fun t => ⟨t, .ret ()⟩
  running := ⟨m.current, .ret ()⟩
  masked := false
  irq := none

/-- `mdelay` up to the point where `add_to_wq` has taken `wqlock`. -/
def delayHoldsWqlock : List (Event Source (Call ℕ)) := .call (.mdelay 1000) :: List.replicate 6 .run

/-- The SGI comes there with a letter, and its handler goes on to `remove_from_wq`. -/
theorem sgi_spins_on_wqlock : ¬ Always step Cpu.NoSelfDeadlock (idle workerWaits)
    (delayHoldsWqlock ++ .irq (.sgi .taskStat 0) :: List.replicate 6 .run) := by
  intro h
  have hrun : ((exec step (idle workerWaits) (delayHoldsWqlock ++ .irq (.sgi .taskStat 0) :: List.replicate 6 .run)).map
      fun s => (s.irq.map fun f => (f.handler.waitsFor, f.interrupted), s.owner .wqlock)) =
      some (some (some .wqlock, 1), some (some 1)) := rfl
  obtain ⟨s, hs, hend⟩ := Option.map_eq_some_iff.1 hrun
  obtain ⟨f, hf, hwait⟩ := Option.map_eq_some_iff.1 (congrArg Prod.fst hend)
  have hown : s.owner .wqlock = some (some f.interrupted) := by
    rw [show f.interrupted = 1 from congrArg Prod.snd hwait]
    exact congrArg Prod.snd hend
  exact always_iff_exec.1 h _ List.prefix_rfl s hs f hf .wqlock (congrArg Prod.fst hwait) hown

/-- The interrupt of the sched timer comes there instead. -/
theorem tick_while_wqlock : Always step Cpu.NoSelfDeadlock (idle workerWaits)
    (delayHoldsWqlock ++ [.irq .timer]) := by
  refine handlers_never_spin rfl ?_
  iterate 7
    refine fun t ht => ⟨trivial, ?_⟩
    cases ht
  refine fun t ht => ⟨.inr ?_, trivial⟩
  rintro ⟨p, hp, htype, -⟩
  cases hp
  cases htype

end Slos.KernelCode
