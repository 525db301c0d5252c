import Slos.Exclusive
import Slos.Machine
import Mathlib.Tactic.IntervalCases

/-!
# The spin lock

`spin_lock_acquire` and `spin_lock_release` of `ops.S`, instruction by instruction, for any number
of processors that share one lock word. `holds` marks a processor between its return from
`spin_lock_acquire` and its store in `spin_lock_release`, `stored` one whose store-exclusive has
succeeded since it last entered `spin_lock_acquire` and that has not returned yet.
-/

namespace Slos.SpinLock
open Exclusive Machine

def LOCKED : ℕ := 0x1

def UNLOCKED : ℕ := 0x0

/-- `loop1` is at 1 and `spin_lock_release` at 9. -/
def opsText : List Instr :=
  [ ⟨.al, .ldr .r1 LOCKED⟩,
    ⟨.al, .ldrex .r2⟩,
    ⟨.al, .cmp .r2 .r1⟩,
    ⟨.eq, .branch 1⟩,
    ⟨.ne, .strex .r2 .r1⟩,
    ⟨.ne, .cmpImm .r2 1⟩,
    ⟨.eq, .branch 1⟩,
    ⟨.al, .dmb⟩,
    ⟨.al, .ret⟩,
    ⟨.al, .ldr .r1 UNLOCKED⟩,
    ⟨.al, .dmb⟩,
    ⟨.al, .str .r1⟩,
    ⟨.al, .ret⟩ ]

def spinLockAcquire : ℕ := 0

def spinLockAcquireRet : ℕ := 8

def spinLockRelease : ℕ := 9

def spinLockReleaseStr : ℕ := 11

structure LockState (ι : Type) where
  mem : Memory ι
  holds : ι → Bool
  stored : ι → Bool

/-- A call comes with the registers and the flag the calling code has left. -/
inductive Step (ι : Type)
  | acquire (i : ι) (reg : Reg → ℕ) (z : Bool)
  | release (i : ι) (reg : Reg → ℕ) (z : Bool)
  | exec (i : ι) (fails : Bool)

variable {ι : Type} [DecidableEq ι]

def enter (s : LockState ι) (i : ι) (entry : ℕ) (reg : Reg → ℕ) (z : Bool) : LockState ι :=
  { s with mem := s.mem.setCpu i { s.mem.cpu i with pc := some entry, reg := reg, z := z } }

def holdsAfter (pc : Option ℕ) (holds : Bool) : Bool :=
  if pc = some spinLockAcquireRet then true
  else if pc = some spinLockReleaseStr then false
  else holds

def storedAfter (pc : Option ℕ) (stores stored : Bool) : Bool :=
  if pc = some spinLockAcquireRet then false else stores || stored

def LockState.mark (s : LockState ι) (m : Memory ι) (i : ι) (holds stored : Bool) :
    LockState ι where
  mem := m
  holds := Function.update s.holds i holds
  stored := Function.update s.stored i stored

def execInstr (s : LockState ι) (i : ι) (fails : Bool) : Option (LockState ι) :=
  (s.mem.exec opsText i fails).map fun m =>
    s.mark m i (holdsAfter (s.mem.cpu i).pc (s.holds i))
      (storedAfter (s.mem.cpu i).pc (s.mem.storesExclusive opsText i fails) (s.stored i))

def step (s : LockState ι) : Step ι → Option (LockState ι)
  | .acquire i reg z =>
      if (s.mem.cpu i).pc = none then some (enter s i spinLockAcquire reg z) else none
  | .release i reg z =>
      if (s.mem.cpu i).pc = none ∧ s.holds i = true then some (enter s i spinLockRelease reg z)
      else none
  | .exec i fails => execInstr s i fails

/-- The word unlocked and every processor in other code. -/
def start (reg : ι → Reg → ℕ) (z monitor : ι → Bool) : LockState ι where
  mem := { word := UNLOCKED,
           cpu := fun i => { pc := none, reg := reg i, z := z i, monitor := monitor i } }
  holds _ := false
  stored _ := false

/-- What is known of one processor before each instruction. -/
def At (word : ℕ) (c : Cpu) (holds stored : Bool) : Prop :=
  match c.pc with
  | none | some 0 | some 12 => stored = false
  | some 1 => stored = false ∧ c.reg .r1 = LOCKED
  | some 2 => stored = false ∧ c.reg .r1 = LOCKED ∧ (c.monitor = true → c.reg .r2 = word)
  | some 3 => stored = false ∧ c.reg .r1 = LOCKED ∧ (c.monitor = true → c.reg .r2 = word) ∧
      c.z = (c.reg .r2 == LOCKED)
  | some 4 => stored = false ∧ c.reg .r1 = LOCKED ∧ (c.monitor = true → word ≠ LOCKED) ∧
      c.z = false
  | some 5 => c.reg .r1 = LOCKED ∧ c.z = false ∧ stored = !(c.reg .r2 == 1)
  | some 6 => c.reg .r1 = LOCKED ∧ stored = !c.z
  | some 7 | some 8 => stored = true
  | some 9 => stored = false ∧ holds = true
  | some 10 | some 11 => stored = false ∧ holds = true ∧ c.reg .r1 = UNLOCKED
  | some _ => False

def Taken (s : LockState ι) (i : ι) : Prop := s.holds i = true ∨ s.stored i = true

structure Inv (s : LockState ι) : Prop where
  local_ : ∀ i, At s.mem.word (s.mem.cpu i) (s.holds i) (s.stored i)
  word : s.mem.word = LOCKED ↔ ∃ i, Taken s i
  one : ∀ i j, Taken s i → Taken s j → i = j

/-- At most one processor holds the lock; the word is locked exactly while one holds it or has taken
it and not returned; a processor about to return from `spin_lock_acquire` has taken it itself. -/
structure Exclusion (s : LockState ι) : Prop where
  one : ∀ i j, s.holds i = true → s.holds j = true → i = j
  word : s.mem.word = LOCKED ↔ ∃ i, s.holds i = true ∨ s.stored i = true
  returns : ∀ i, (s.mem.cpu i).pc = some spinLockAcquireRet → s.stored i = true

theorem At.clear_monitor {word word' : ℕ} {c : Cpu} {holds stored : Bool}
    (h : At word c holds stored) : At word' { c with monitor := false } holds stored := by
  unfold At at h ⊢
  split at h <;> simp_all

@[simp] theorem mark_mem (s : LockState ι) (m : Memory ι) (i : ι) (holds stored : Bool) :
    (s.mark m i holds stored).mem = m := rfl

theorem mark_taken {s : LockState ι} {m : Memory ι} {i : ι} {holds stored : Bool} :
    Taken (s.mark m i holds stored) i ↔ holds = true ∨ stored = true := by
  simp only [Taken, LockState.mark, Function.update_self]

theorem mark_taken_of_ne {s : LockState ι} {m : Memory ι} {i j : ι} {holds stored : Bool}
    (h : j ≠ i) : Taken (s.mark m i holds stored) j ↔ Taken s j := by
  simp only [Taken, LockState.mark, Function.update_of_ne h]

theorem mark_at {s : LockState ι} {m : Memory ι} {i : ι} {holds stored : Bool} {c : Cpu}
    (hi : m.cpu i = c) (hc : At m.word c holds stored)
    (hothers : ∀ j, j ≠ i → At m.word (m.cpu j) (s.holds j) (s.stored j)) (j : ι) :
    At m.word (m.cpu j) ((s.mark m i holds stored).holds j)
      ((s.mark m i holds stored).stored j) := by
  by_cases hj : j = i
  · subst hj
    simpa only [LockState.mark, Function.update_self, hi] using hc
  · simpa only [LockState.mark, Function.update_of_ne hj] using hothers j hj

/-- An instruction that leaves the word alone. -/
theorem inv_quiet {s : LockState ι} (hs : Inv s) {i : ι} {c : Cpu} {holds stored : Bool}
    (hc : At s.mem.word c holds stored) (ht : holds = true ∨ stored = true ↔ Taken s i) :
    Inv (s.mark (s.mem.setCpu i c) i holds stored) := by
  have htaken : ∀ j, Taken (s.mark (s.mem.setCpu i c) i holds stored) j ↔ Taken s j := by
    intro j
    by_cases hj : j = i
    · subst hj
      exact mark_taken.trans ht
    · exact mark_taken_of_ne hj
  refine ⟨mark_at (Memory.setCpu_self ..) hc fun j hj => ?_, ?_, fun j k hj hk => ?_⟩
  · rw [mark_mem, Memory.setCpu_of_ne _ _ hj]
    exact hs.local_ j
  · exact hs.word.trans (exists_congr fun j => (htaken j).symm)
  · exact hs.one j k ((htaken j).mp hj) ((htaken k).mp hk)

/-- A store-exclusive that finds the word unlocked. -/
theorem inv_take {s : LockState ι} (hs : Inv s) {i : ι} {c : Cpu} {holds : Bool}
    (hfree : s.mem.word ≠ LOCKED) (hc : At LOCKED c holds true) :
    Inv (s.mark ((s.mem.store i LOCKED).setCpu i c) i holds true) := by
  have hnone : ∀ j, ¬ Taken s j := fun j hj => hfree (hs.word.mpr ⟨j, hj⟩)
  have honly : ∀ j, Taken (s.mark ((s.mem.store i LOCKED).setCpu i c) i holds true) j → j = i := by
    intro j hj
    by_contra hji
    exact hnone j ((mark_taken_of_ne hji).mp hj)
  refine ⟨mark_at (Memory.setCpu_self ..) hc fun j hj => ?_, ?_, fun j k hj hk => ?_⟩
  · rw [mark_mem, Memory.setCpu_of_ne _ _ hj, Memory.store_of_ne _ _ hj]
    exact (hs.local_ j).clear_monitor
  · exact iff_of_true rfl ⟨i, mark_taken.mpr (Or.inr rfl)⟩
  · exact (honly j hj).trans (honly k hk).symm

/-- The store of the processor that holds the lock. -/
theorem inv_free {s : LockState ι} (hs : Inv s) {i : ι} {c : Cpu} (hi : Taken s i)
    (hc : At UNLOCKED c false false) :
    Inv (s.mark ((s.mem.store i UNLOCKED).setCpu i c) i false false) := by
  have hnone : ∀ j, ¬ Taken (s.mark ((s.mem.store i UNLOCKED).setCpu i c) i false false) j := by
    intro j hj
    by_cases hji : j = i
    · subst hji
      rcases mark_taken.mp hj with h | h <;> cases h
    · exact hji (hs.one j i ((mark_taken_of_ne hji).mp hj) hi)
  refine ⟨mark_at (Memory.setCpu_self ..) hc fun j hj => ?_, ?_, fun j k hj _ => ?_⟩
  · rw [mark_mem, Memory.setCpu_of_ne _ _ hj, Memory.store_of_ne _ _ hj]
    exact (hs.local_ j).clear_monitor
  · exact iff_of_false Nat.zero_ne_one fun ⟨j, hj⟩ => hnone j hj
  · exact absurd hj (hnone j)

theorem execInstr_eq {s : LockState ι} {i : ι} {fails : Bool} {n : ℕ} {instr : Instr}
    (hpc : (s.mem.cpu i).pc = some n) (hn : opsText[n]? = some instr) :
    execInstr s i fails = some (s.mark
      (if instr.cond.passes (s.mem.cpu i).z then s.mem.execOp i fails instr.op
        else s.mem.setCpu i (s.mem.cpu i).advance) i
      (holdsAfter (some n) (s.holds i))
      (storedAfter (some n) (s.mem.storesExclusive opsText i fails) (s.stored i))) := by
  simp only [execInstr, Memory.exec, Memory.fetch, hpc, Option.bind_some, hn, Option.map_some]

theorem inv_exec {s t : LockState ι} {i : ι} {fails : Bool} (hs : Inv s)
    (h : execInstr s i fails = some t) : Inv t := by
  have hi := hs.local_ i
  rcases hc : s.mem.cpu i with ⟨pc, reg, z, monitor⟩
  have hpc : (s.mem.cpu i).pc = pc := by rw [hc]
  rcases pc with _ | n
  · simp [execInstr, Memory.exec, Memory.fetch, hpc] at h
  cases hn : opsText[n]? with
  | none => simp [execInstr, Memory.exec, Memory.fetch, hpc, hn] at h
  | some instr =>
  rw [execInstr_eq hpc hn] at h
  obtain rfl := Option.some.inj h
  have hlt : n < 13 := (List.getElem?_eq_some_iff.mp hn).1
  rw [hc, At] at hi
  interval_cases n <;> cases hn <;>
    simp [Cond.passes, Memory.execOp, hc, Cpu.advance, Cpu.setReg, holdsAfter, storedAfter,
      Memory.storesExclusive, Memory.fetch, opsText, spinLockAcquireRet, spinLockReleaseStr] at hi ⊢
  · exact inv_quiet hs ⟨hi, rfl⟩ Iff.rfl
  · exact inv_quiet hs ⟨hi.1, hi.2, fun _ => rfl⟩ Iff.rfl
  · obtain ⟨hst, hr, hmon⟩ := hi
    rw [hr]
    exact inv_quiet hs ⟨hst, hr, hmon, rfl⟩ Iff.rfl
  · obtain ⟨hst, hr, hmon, rfl⟩ := hi
    split
    · exact inv_quiet hs ⟨hst, hr⟩ Iff.rfl
    · rename_i hne
      have hz : (reg .r2 == LOCKED) = false := Bool.eq_false_of_not_eq_true hne
      exact inv_quiet hs ⟨hst, hr, fun h => hmon h ▸ beq_eq_false_iff_ne.mp hz, hz⟩ Iff.rfl
  · obtain ⟨hst, hr, hmon, rfl⟩ := hi
    rw [if_pos rfl, hst]
    by_cases hok : monitor = true ∧ fails = false
    · rw [if_pos hok, hr, hok.1, hok.2]
      exact inv_take hs (hmon hok.1) ⟨hr, rfl, rfl⟩
    · have hno : (!false && monitor && !fails || false) = false := by
        cases monitor <;> simp_all
      rw [if_neg hok, hno]
      exact inv_quiet hs ⟨hr, rfl, rfl⟩ (by simp [Taken, hst])
  · obtain ⟨hr, rfl, hst⟩ := hi
    exact inv_quiet hs ⟨hr, hst⟩ Iff.rfl
  · obtain ⟨hr, hst⟩ := hi
    split
    · rename_i hz
      exact inv_quiet hs ⟨by rw [hst, hz]; rfl, hr⟩ Iff.rfl
    · rename_i hz
      exact inv_quiet hs (by simpa [At, hz] using hst) Iff.rfl
  · exact inv_quiet hs hi Iff.rfl
  · exact inv_quiet hs (by simp [At]) (by simp [Taken, hi])
  · exact inv_quiet hs ⟨hi.1, hi.2, rfl⟩ Iff.rfl
  · exact inv_quiet hs hi Iff.rfl
  · rw [hi.1, hi.2.2]
    exact inv_free hs (Or.inl hi.2.1) rfl
  · exact inv_quiet hs hi Iff.rfl

theorem inv_enter {s : LockState ι} (hs : Inv s) {i : ι} {entry : ℕ} {reg : Reg → ℕ} {z : Bool}
    (hc : At s.mem.word { s.mem.cpu i with pc := some entry, reg := reg, z := z } (s.holds i)
      (s.stored i)) : Inv (enter s i entry reg z) := by
  have h := inv_quiet hs hc Iff.rfl
  rwa [LockState.mark, Function.update_eq_self, Function.update_eq_self] at h

theorem inv_step {s t : LockState ι} {a : Step ι} (hs : Inv s) (h : step s a = some t) : Inv t := by
  have hout : ∀ i, (s.mem.cpu i).pc = none → s.stored i = false := by
    intro i hpc
    have hi := hs.local_ i
    rwa [At, hpc] at hi
  cases a with
  | acquire i reg z =>
      obtain ⟨hpc, ht⟩ := Option.ite_none_right_eq_some.mp h
      obtain rfl := Option.some.inj ht
      exact inv_enter hs (hout i hpc)
  | release i reg z =>
      obtain ⟨⟨hpc, hholds⟩, ht⟩ := Option.ite_none_right_eq_some.mp h
      obtain rfl := Option.some.inj ht
      exact inv_enter hs ⟨hout i hpc, hholds⟩
  | exec i fails => exact inv_exec hs h

omit [DecidableEq ι] in
theorem inv_start (reg : ι → Reg → ℕ) (z monitor : ι → Bool) : Inv (start reg z monitor) := by
  have hnone : ∀ i, ¬ Taken (start reg z monitor) i := by
    rintro i (h | h) <;> cases h
  exact ⟨fun _ => rfl, iff_of_false Nat.zero_ne_one fun ⟨i, hi⟩ => hnone i hi,
    fun i _ hi => absurd hi (hnone i)⟩

omit [DecidableEq ι] in
theorem exclusion_of_inv {s : LockState ι} (hs : Inv s) : Exclusion s := by
  refine ⟨fun i j hi hj => hs.one i j (Or.inl hi) (Or.inl hj), hs.word, fun i hpc => ?_⟩
  have hi := hs.local_ i
  rwa [At, hpc] at hi

/-- In every interleaving of single instructions, with any number of processors. -/
theorem spin_lock_exclusion (reg : ι → Reg → ℕ) (z monitor : ι → Bool) (run : List (Step ι)) :
    Always step Exclusion (start reg z monitor) run := by
  apply always_of_step Inv
  · exact fun s => exclusion_of_inv
  · exact fun s a t hs h => inv_step hs h
  · exact inv_start reg z monitor

example : (exec step (start (fun _ : Fin 2 => fun _ => 0) (fun _ => false) (fun _ => false))
    (.acquire 0 (fun _ => 0) false :: List.replicate 9 (.exec 0 false))).map
      (fun s => (s.mem.word, s.holds 0, s.holds 1)) = some (LOCKED, true, false) := by decide

end Slos.SpinLock
