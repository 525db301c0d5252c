import Slos.Machine
import Slos.OdevPut

/-!
# The control register

`put_to_itab` in the device task, `odev_irq`, and `start_consumer` and `stop_consumer` from the shell, register access
by register access. Each changes its bit of the control register by a read and a later write, without a lock.
-/

namespace Slos.Odev
open Machine

/-- The accesses of the calls that make one after the other. -/
inductive Act where
  | readStatus
  | readCtrl
  | write (j : ℕ) (b : Bool)
deriving DecidableEq, Repr

def startConsumer : List Act := [.readCtrl, .write 4 true]

def stopConsumer : List Act := [.readStatus, .readCtrl, .write 4 false]

def odevIrq : List Act := stopConsumer ++ [.readCtrl, .write 1 true]

/-- The value read, with a bit set or cleared. -/
def putBit (v : BitVec 32) (j : ℕ) (b : Bool) : BitVec 32 := if b then v ||| 1#32 <<< j else v &&& ~~~(1#32 <<< j)

/-- What is left of a call, and its `cntl`. -/
structure Thread where
  todo : List Act
  cntl : BitVec 32

/-- The three callers and the device; `last` is what the last call that set or cleared a bit gave it. -/
structure Shared where
  dev : Dev
  task : Option (Call × Pc)
  irq : Thread
  shell : Thread
  last : ℕ → Bool

inductive Event where
  | clock | call (c : Call) | raise | start | stop
  | task | irq | shell

/-- The bit, its value and the word of a write of the control register. -/
def Thread.issued (t : Thread) : Option (ℕ × Bool × BitVec 32) :=
  match t.todo with
  | .write j b :: _ => some (j, b, putBit t.cntl j b)
  | _ => none

def Shared.issued (s : Shared) : Event → Option (ℕ × Bool × BitVec 32)
  | .task =>
      match s.task with
      | some (_, .writeCtrl v) => some (2, true, v)
      | some (_, .writeCtrlAgain v) => some (2, false, v)
      | _ => none
  | .irq => s.irq.issued
  | .shell => s.shell.issued
  | _ => none

def Shared.write (s : Shared) : Event → Option Write
  | .task => s.task.bind fun c => (putToItab c.1 s.dev.slave c.2).1
  | e => (s.issued e).map fun w => (.ctrl, w.2.2)

/-- The next access of a call. -/
def Thread.access (t : Thread) (s : Slave) : Option Thread :=
  match t.todo with
  | [] => none
  | .readCtrl :: acts => some ⟨acts, s.ctrl⟩
  | _ :: acts => some { t with todo := acts }

def Thread.begin (t : Thread) (acts : List Act) : Option Thread :=
  if t.todo = [] then some { t with todo := acts } else none

/-- The callers after an event. -/
def Shared.moves (s : Shared) : Event → Option Shared
  | .clock => some s
  | .call c => if s.task = none then some { s with task := some (c, .readStatus) } else none
  | .raise => (s.irq.begin odevIrq).map fun t => { s with irq := t }
  | .start => (s.shell.begin startConsumer).map fun t => { s with shell := t }
  | .stop => (s.shell.begin stopConsumer).map fun t => { s with shell := t }
  | .task => s.task.map fun c => { s with task := continues c.1 (putToItab c.1 s.dev.slave c.2).2 }
  | .irq => (s.irq.access s.dev.slave).map fun t => { s with irq := t }
  | .shell => (s.shell.access s.dev.slave).map fun t => { s with shell := t }

def Shared.setLast (s : Shared) (e : Event) : ℕ → Bool :=
  match s.issued e with
  | some (j, b, _) => Function.update s.last j b
  | none => s.last

/-- An event of a caller, at a clock of the device. -/
def share (s : Shared) (e : Event × Ports) : Option Shared :=
  (s.moves e.1).map fun t => { t with dev := s.dev.edge (s.write e.1) e.2, last := s.setLast e.1 }

/-- The bits of the global start, the transfer, the stream and the consumer. -/
def controlBits : List ℕ := [0, 2, 3, 4]

/-- Each bit is as the last call left it, and no call polls for a transfer that is not requested. -/
structure Kept (s : Shared) : Prop where
  bits : ∀ k ∈ controlBits, s.dev.slave.ctrl.getLsbD k = s.last k
  polls : ∀ c, s.task = some (c, .poll) ∨ s.task = some (c, .pollCtrl) → s.dev.slave.inTrans = true

/-- A call that writes the register finds the bits that it does not change as it read them. -/
def Unchanged (s : Shared) (e : Event × Ports) : Prop :=
  ∀ w ∈ s.issued e.1, ∀ k ∈ controlBits, k ≠ w.1 → w.2.2.getLsbD k = s.dev.slave.ctrl.getLsbD k

instance (s : Shared) (e : Event × Ports) : Decidable (Unchanged s e) :=
  match h : s.issued e.1 with
  | none => isTrue (by simp [Unchanged, h])
  | some w => decidable_of_iff (∀ k ∈ controlBits, k ≠ w.1 → w.2.2.getLsbD k = s.dev.slave.ctrl.getLsbD k)
      (by simp [Unchanged, h])

/-- No call is running, and no bit has been set or cleared since. -/
structure Quiet (s : Shared) : Prop where
  task : s.task = none
  irq : s.irq.todo = []
  shell : s.shell.todo = []
  last : ∀ k, s.last k = s.dev.slave.ctrl.getLsbD k

/-- The bits that a call other than `put_to_itab` writes: the consumer's and the interrupt's. -/
def Thread.Ok (t : Thread) : Prop := ∀ j b, .write j b ∈ t.todo → j = 4 ∨ j = 1

/-- The word that `put_to_itab` writes next, and the transfer bit while it waits. -/
def TaskOk (last : ℕ → Bool) : Option (Call × Pc) → Prop
  | some (_, .writeCtrl v) => v.getLsbD 2 = true
  | some (_, .poll) | some (_, .pollCtrl) | some (_, .readCtrlAgain) => last 2 = true
  | some (_, .writeCtrlAgain v) => v.getLsbD 2 = false
  | _ => True

structure Shared.Inv (s : Shared) : Prop where
  bits : ∀ k ∈ controlBits, s.dev.slave.ctrl.getLsbD k = s.last k
  task : TaskOk s.last s.task
  irq : s.irq.Ok
  shell : s.shell.Ok

section Thread

variable {t u : Thread} {j : ℕ} {b : Bool} {v : BitVec 32}

theorem putBit_self (v : BitVec 32) (hj : j < 32) (b : Bool) : (putBit v j b).getLsbD j = b := by
  unfold putBit
  cases b with
  | false => simp [getLsbD_clear _ hj]
  | true => simp [getLsbD_set _ hj]

theorem Thread.Ok.issued (h : t.Ok) (hw : t.issued = some (j, b, v)) : v.getLsbD j = b ∧ j ≠ 2 := by
  obtain ⟨todo, cntl⟩ := t
  match todo with
  | [] => cases hw
  | .readStatus :: acts => cases hw
  | .readCtrl :: acts => cases hw
  | .write j' b' :: acts =>
      cases hw
      have hj : j = 4 ∨ j = 1 := h j b (List.mem_cons_self ..)
      exact ⟨putBit_self _ (by omega) b, by omega⟩

theorem Thread.Ok.access (h : t.Ok) {s : Slave} (hu : t.access s = some u) : u.Ok := by
  obtain ⟨todo, cntl⟩ := t
  match todo with
  | [] => cases hu
  | .readStatus :: acts => cases hu; exact fun j b hm => h j b (List.mem_cons_of_mem _ hm)
  | .readCtrl :: acts => cases hu; exact fun j b hm => h j b (List.mem_cons_of_mem _ hm)
  | .write _ _ :: acts => cases hu; exact fun j b hm => h j b (List.mem_cons_of_mem _ hm)

theorem Thread.begin_ok {acts : List Act} (hacts : ∀ j b, .write j b ∈ acts → j = 4 ∨ j = 1)
    (hu : t.begin acts = some u) : u.Ok := by
  unfold Thread.begin at hu
  split at hu
  · cases hu
    exact hacts
  · cases hu

end Thread

section Step

variable {s t : Shared} {e : Event} {i : Ports} {j : ℕ} {b : Bool} {v : BitVec 32}

theorem Shared.Inv.issued (h : s.Inv) (hw : s.issued e = some (j, b, v)) : v.getLsbD j = b := by
  cases e with
  | irq => exact (h.irq.issued hw).1
  | shell => exact (h.shell.issued hw).1
  | task =>
      have htask := h.task
      unfold Shared.issued at hw
      match hs : s.task with
      | none => simp [hs] at hw
      | some (c, pc) =>
          rw [hs] at htask
          cases pc <;> simp_all [TaskOk]
  | clock => cases hw
  | call c => cases hw
  | raise => cases hw
  | start => cases hw
  | stop => cases hw

/-- The register is changed by the writes that are issued only. -/
theorem write_ctrl (s : Shared) (e : Event) : (s.dev.slave.toRegs.write (s.write e)).ctrl =
    match s.issued e with
    | some (_, _, v) => v
    | none => s.dev.slave.ctrl := by
  cases e with
  | task =>
      unfold Shared.write Shared.issued
      match s.task with
      | none => rfl
      | some (c, pc) => cases pc <;> rfl
  | irq =>
      unfold Shared.write Shared.issued
      cases s.irq.issued <;> rfl
  | shell =>
      unfold Shared.write Shared.issued
      cases s.shell.issued <;> rfl
  | clock => rfl
  | call c => rfl
  | raise => rfl
  | start => rfl
  | stop => rfl

theorem bit_one_not_mem : ∀ k ∈ controlBits, k ≠ 1 := by decide

/-- A write keeps the other bits if the register has them as they were read. -/
theorem Shared.Inv.bits_edge (h : s.Inv) (hsame : Unchanged s (e, i)) :
    ∀ k ∈ controlBits, (s.dev.edge (s.write e) i).slave.ctrl.getLsbD k = s.setLast e k := by
  intro k hk
  rw [edge_ctrl _ _ _ (bit_one_not_mem k hk), write_ctrl, Shared.setLast]
  match hw : s.issued e with
  | none => exact h.bits k hk
  | some (j, b, v) =>
      dsimp only
      rcases eq_or_ne k j with rfl | hne
      · rw [Function.update_self]
        exact h.issued hw
      · rw [Function.update_of_ne hne, hsame (j, b, v) hw k hk hne]
        exact h.bits k hk

/-- Only `put_to_itab` changes the transfer bit. -/
theorem Shared.Inv.last_two (h : s.Inv) (he : e ≠ .task) : s.setLast e 2 = s.last 2 := by
  unfold Shared.setLast
  match hw : s.issued e with
  | none => rfl
  | some (j, b, v) =>
      have hj : j ≠ 2 := by
        cases e with
        | irq => exact (h.irq.issued hw).2
        | shell => exact (h.shell.issued hw).2
        | task => exact absurd rfl he
        | clock => cases hw
        | call c => cases hw
        | raise => cases hw
        | start => cases hw
        | stop => cases hw
      exact Function.update_of_ne hj.symm _ _

theorem TaskOk.congr {last last' : ℕ → Bool} {c : Option (Call × Pc)} (h : TaskOk last c) (h2 : last' 2 = last 2) :
    TaskOk last' c := by
  match c with
  | none => trivial
  | some (c, pc) => cases pc <;> simp_all [TaskOk]

/-- An access of `put_to_itab`. -/
theorem Shared.Inv.task_access (h : s.Inv) {c : Call} {pc : Pc} (hs : s.task = some (c, pc)) :
    TaskOk (s.setLast .task) (continues c (putToItab c s.dev.slave pc).2) := by
  have htask := h.task
  rw [hs] at htask
  have hlast (hw : s.issued .task = none) : s.setLast .task = s.last := by rw [Shared.setLast, hw]
  cases pc with
  | readStatus =>
      by_cases hfull : s.dev.slave.status.word &&& bmItabFull ≠ 0#32
      · simp only [putToItab, if_pos hfull]
        trivial
      · simp only [putToItab, if_neg hfull]
        trivial
  | writeAddr => trivial
  | writeLen => trivial
  | readCtrl =>
      change (s.dev.slave.ctrl ||| bmInTrans).getLsbD 2 = true
      rw [bmInTrans, getLsbD_set _ (by decide)]
      exact Bool.or_true _
  | writeCtrl v =>
      change s.setLast .task 2 = true
      simp [Shared.setLast, Shared.issued, hs]
  | poll =>
      rw [hlast (by simp [Shared.issued, hs])]
      by_cases hdone : s.dev.slave.status.word &&& bmTransferDone = 0#32
      · simp only [putToItab, if_pos hdone]
        exact htask
      · simp only [putToItab, if_neg hdone]
        exact htask
  | pollCtrl =>
      rw [hlast (by simp [Shared.issued, hs])]
      by_cases hgbl : s.dev.slave.ctrl &&& bmGblStart = 0#32
      · simp only [putToItab, if_pos hgbl]
        trivial
      · simp only [putToItab, if_neg hgbl]
        exact htask
  | readCtrlAgain =>
      change (s.dev.slave.ctrl &&& ~~~bmInTrans).getLsbD 2 = false
      rw [bmInTrans, getLsbD_clear _ (by decide)]
      exact Bool.and_false _
  | writeCtrlAgain v => trivial

theorem Shared.Inv.moves (h : s.Inv) (ht : s.moves e = some t) :
    TaskOk (s.setLast e) t.task ∧ t.irq.Ok ∧ t.shell.Ok := by
  have hsame (he : e ≠ .task) : TaskOk (s.setLast e) s.task := h.task.congr (h.last_two he)
  cases e with
  | clock =>
      cases ht
      exact ⟨hsame (by simp), h.irq, h.shell⟩
  | call c =>
      unfold Shared.moves at ht
      dsimp only at ht
      split at ht
      · cases ht
        exact ⟨trivial, h.irq, h.shell⟩
      · cases ht
  | raise =>
      obtain ⟨u, hu, rfl⟩ := Option.map_eq_some_iff.mp ht
      exact ⟨hsame (by simp), Thread.begin_ok (by simp +contextual [odevIrq, stopConsumer]) hu, h.shell⟩
  | start =>
      obtain ⟨u, hu, rfl⟩ := Option.map_eq_some_iff.mp ht
      exact ⟨hsame (by simp), h.irq, Thread.begin_ok (by simp [startConsumer]) hu⟩
  | stop =>
      obtain ⟨u, hu, rfl⟩ := Option.map_eq_some_iff.mp ht
      exact ⟨hsame (by simp), h.irq, Thread.begin_ok (by simp [stopConsumer]) hu⟩
  | task =>
      obtain ⟨⟨c, pc⟩, hs, rfl⟩ := Option.map_eq_some_iff.mp ht
      exact ⟨h.task_access hs, h.irq, h.shell⟩
  | irq =>
      obtain ⟨u, hu, rfl⟩ := Option.map_eq_some_iff.mp ht
      exact ⟨hsame (by simp), h.irq.access hu, h.shell⟩
  | shell =>
      obtain ⟨u, hu, rfl⟩ := Option.map_eq_some_iff.mp ht
      exact ⟨hsame (by simp), h.irq, h.shell.access hu⟩

theorem Shared.Inv.share {e : Event × Ports} (h : s.Inv) (hsame : Unchanged s e) (ht : share s e = some t) :
    t.Inv := by
  obtain ⟨m, hm, rfl⟩ := Option.map_eq_some_iff.mp ht
  obtain ⟨htask, hirq, hshell⟩ := h.moves hm
  exact ⟨h.bits_edge hsame, htask, hirq, hshell⟩

theorem Shared.Inv.kept (h : s.Inv) : Kept s := by
  constructor
  · exact h.bits
  · intro c hc
    have htask := h.task
    have htrans : s.dev.slave.inTrans = s.last 2 := h.bits 2 (by decide)
    rw [htrans]
    rcases hc with hc | hc <;> rw [hc] at htask <;> exact htask

/-- A write that keeps the other bits found them as they were read. -/
theorem unchanged_of_kept {e : Event × Ports} (h : s.Inv) (ht : share s e = some t) (hk : Kept t) : Unchanged s e := by
  obtain ⟨m, -, rfl⟩ := Option.map_eq_some_iff.mp ht
  rintro ⟨j, b, v⟩ hw k hmem hne
  rw [Option.mem_def] at hw
  have hbit := hk.bits k hmem
  dsimp only at hbit
  rw [edge_ctrl _ _ _ (bit_one_not_mem k hmem), write_ctrl, Shared.setLast, hw] at hbit
  dsimp only at hbit
  rw [Function.update_of_ne hne, ← h.bits k hmem] at hbit
  exact hbit

theorem Quiet.inv (h : Quiet s) : s.Inv := by
  constructor
  · exact fun k _ => (h.last k).symm
  · rw [h.task]
    trivial
  · intro j b hm
    rw [h.irq] at hm
    cases hm
  · intro j b hm
    rw [h.shell] at hm
    cases hm

/-- No update is lost exactly when every write finds the other bits as its call read them. -/
theorem no_lost_update_iff (h : Quiet s) (es : List (Event × Ports)) :
    Always share Kept s es ↔ StepsMeet share Unchanged s es :=
  always_iff_stepsMeet Shared.Inv (fun _ h => h.kept) (fun _ _ _ h hsame ht => h.share hsame ht)
    (fun _ _ _ h ht hk => unchanged_of_kept h ht hk) h.inv

end Step

section Boot

def bootShared : Shared :=
  ⟨startedDev, none, ⟨[], 0⟩, ⟨[], 0⟩, fun k => startedDev.slave.ctrl.getLsbD k⟩

theorem bootShared_quiet : Quiet bootShared := ⟨rfl, rfl, rfl, fun _ => rfl⟩

def atClocks (es : List Event) : List (Event × Ports) := es.map (·, ⟨false, false, false, false⟩)

/-- `start_consumer` and `put_to_itab` one after the other, then the interrupt. -/
def inTurn : List Event :=
  [.start, .shell, .shell, .call firstCall, .task, .task, .task, .task, .task, .clock, .clock, .clock, .task, .task,
    .task, .raise, .irq, .irq, .irq, .irq, .irq]

theorem no_lost_update_in_turn : Always share Kept bootShared (atClocks inTurn) :=
  (no_lost_update_iff bootShared_quiet (atClocks inTurn)).mpr (by decide +kernel)

/-- `start_consumer` runs between the read and the write of `put_to_itab`. -/
def startLost : List Event :=
  [.call firstCall, .task, .task, .task, .task, .start, .shell, .shell, .task, .clock, .clock, .clock, .task, .task, .task]

/-- `put_to_itab` writes between the read and the write of `start_consumer`, and polls later. -/
def leftPolling : List Event :=
  [.call firstCall, .task, .task, .task, .task, .start, .shell, .task, .shell, .clock, .clock, .clock, .clock, .clock]

/-- The start of the consumer is undone; the request of a transfer is undone and the call polls for ever. -/
theorem updates_lost :
    (∃ t, exec share bootShared (atClocks startLost) = some t ∧ t.task = none ∧ t.shell.todo = [] ∧ t.irq.todo = [] ∧
      t.last 4 = true ∧ t.dev.slave.ctrl.getLsbD 4 = false) ∧
    (∃ t, exec share bootShared (atClocks leftPolling) = some t ∧ (t.task.map Prod.snd = some .poll) ∧ t.shell.todo = [] ∧
      t.dev.slave.inTrans = false ∧ t.dev.slave.state = .receiving ∧ t.dev.slave.status.transDone = false) ∧
    ¬ Always share Kept bootShared (atClocks startLost) := by
  have hlost : ∃ t, exec share bootShared (atClocks startLost) = some t ∧ t.task = none ∧ t.shell.todo = [] ∧
      t.irq.todo = [] ∧ t.last 4 = true ∧ t.dev.slave.ctrl.getLsbD 4 = false :=
    ⟨_, rfl, by decide +kernel, by decide +kernel, by decide +kernel, by decide +kernel, by decide +kernel⟩
  refine ⟨hlost, ?_, ?_⟩
  · exact ⟨_, rfl, by decide +kernel, by decide +kernel, by decide +kernel, by decide +kernel, by decide +kernel⟩
  · intro hkept
    obtain ⟨t, ht, -, -, -, hlast, hbit⟩ := hlost
    have hbits := (always_iff_exec.mp hkept _ List.prefix_rfl t ht).bits 4 (by decide)
    rw [hlast, hbit] at hbits
    cases hbits

end Boot

end Slos.Odev
