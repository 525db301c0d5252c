import Slos.Interruptible
import Mathlib.Data.Finset.Insert
import Mathlib.Data.Finset.Erase

/-!
# Runs of programs that are not interrupted

`run B` executes a straight program whose loops make at most `B` rounds each, and `Ends B Q` says of a start state that the
program ends from there within that bound, without a fault, where `Q` holds. The rules take a program apart statement by
statement; a loop is unfolded one round at a time, so that a proof about it is an induction over what the loop works on.
-/

namespace Interruptible.Straight

variable {σ ρ α β γ : Type}

/-- The rounds of a loop, at most `fuel` of them. -/
def rounds (body : β → σ → Option ((β ⊕ γ) × σ)) : ℕ → β → σ → Option (γ × σ)
  | 0, _, _ => none
  | fuel + 1, b, m => (body b m).bind fun r => r.1.elim (fun b => rounds body fuel b r.2) fun c => some (c, r.2)

def run (B : ℕ) : ∀ {α : Type}, Straight σ α → σ → Option (α × σ)
  | _, .ret a, m => some (a, m)
  | _, .act f next, m => run B (next (f m).1) (f m).2
  | _, .loop body b next, m => (rounds (fun b => run B (body b)) B b m).bind fun r => run B (next r.1) r.2
  | _, .fault, _ => none

/-- From `m` on the program ends without a fault, its loops within `B` rounds, and there `Q` holds. -/
def Ends (B : ℕ) (c : Straight σ α) (Q : α → σ → Prop) (m : σ) : Prop := ∃ r, run B c m = some r ∧ Q r.1 r.2

/-- From `m` on a loop ends within `n` more rounds. -/
def LoopEnds (B n : ℕ) (body : β → Straight σ (β ⊕ γ)) (b : β) (Q : γ → σ → Prop) (m : σ) : Prop :=
  ∃ r, rounds (fun b => run B (body b)) n b m = some r ∧ Q r.1 r.2

variable {c : Straight σ α} {g : α → Straight σ β} {Q : α → σ → Prop} {m : σ} {B B' n fuel fuel' : ℕ}

theorem run_bind (c : Straight σ α) (g : α → Straight σ β) (m : σ) :
    run B (c >>= g) m = (run B c m).bind fun r => run B (g r.1) r.2 := by
  change run B (c.bind g) m = _
  induction c generalizing m with
  | ret a => rfl
  | act f next ih => exact ih _ _ _
  | loop body b next ihbody ih =>
      rw [Straight.bind, run, run, Option.bind_assoc]
      exact congrArg _ (funext fun r => ih _ _ _)
  | fault => rfl

@[simp] theorem ends_pure (a : α) : (pure a : Straight σ α).Ends B Q m ↔ Q a m := by
  constructor
  · rintro ⟨r, hr, hQ⟩
    cases hr
    exact hQ
  · exact fun h => ⟨(a, m), rfl, h⟩

@[simp] theorem ends_bind {Q : β → σ → Prop} : (c >>= g).Ends B Q m ↔ c.Ends B (fun a m => (g a).Ends B Q m) m := by
  constructor
  · rintro ⟨r, hr, hQ⟩
    rw [run_bind] at hr
    obtain ⟨s, hs, hr⟩ := Option.bind_eq_some_iff.mp hr
    exact ⟨s, hs, r, hr, hQ⟩
  · rintro ⟨s, hs, r, hr, hQ⟩
    refine ⟨r, ?_, hQ⟩
    rw [run_bind]
    exact Option.bind_eq_some_iff.mpr ⟨s, hs, hr⟩

@[simp] theorem ends_map {Q : β → σ → Prop} (f : α → β) : (f <$> c).Ends B Q m ↔ c.Ends B (fun a m => Q (f a) m) m := by
  change (c >>= fun a => pure (f a)).Ends B Q m ↔ _
  simp only [ends_bind, ends_pure]

@[simp] theorem ends_fetch (f : σ → α) : (fetch f).Ends B Q m ↔ Q (f m) m := by
  constructor
  · rintro ⟨r, hr, hQ⟩
    cases hr
    exact hQ
  · exact fun h => ⟨(f m, m), rfl, h⟩

@[simp] theorem ends_store {Q : Unit → σ → Prop} (f : σ → σ) : (store f).Ends B Q m ↔ Q () (f m) := by
  constructor
  · rintro ⟨r, hr, hQ⟩
    cases hr
    exact hQ
  · exact fun h => ⟨((), f m), rfl, h⟩

@[simp] theorem ends_deref (a : α) : (deref (some a) : Straight σ α).Ends B Q m ↔ Q a m := ends_pure a

theorem ends_ite {p : Prop} [Decidable p] {c' : Straight σ α} :
    (if p then c else c').Ends B Q m ↔ if p then c.Ends B Q m else c'.Ends B Q m := by
  split <;> rfl

theorem Ends.mono {Q' : α → σ → Prop} (h : c.Ends B Q m) (hQ : ∀ a m, Q a m → Q' a m) : c.Ends B Q' m := by
  obtain ⟨r, hr, h⟩ := h
  exact ⟨r, hr, hQ _ _ h⟩

theorem ends_iterate {body : β → Straight σ (β ⊕ γ)} {b : β} {Q : γ → σ → Prop} :
    (iterate body b).Ends B Q m ↔ LoopEnds B B body b Q m := by
  have hrun : run B (iterate body b) m = rounds (fun b => run B (body b)) B b m := Option.bind_fun_some _
  rw [Ends, hrun]
  rfl

/-- A loop is its first round and the loop from where that round left. -/
theorem loopEnds_succ {body : β → Straight σ (β ⊕ γ)} {b : β} {Q : γ → σ → Prop} : LoopEnds B (n + 1) body b Q m ↔
    (body b).Ends B (fun r m => r.elim (fun b => LoopEnds B n body b Q m) fun c => Q c m) m := by
  constructor
  · rintro ⟨r, hr, hQ⟩
    obtain ⟨⟨next, m'⟩, hs, hr⟩ := Option.bind_eq_some_iff.mp hr
    refine ⟨(next, m'), hs, ?_⟩
    cases next with
    | inl b => exact ⟨r, hr, hQ⟩
    | inr c =>
        cases hr
        exact hQ
  · rintro ⟨⟨next, m'⟩, hs, hQ⟩
    cases next with
    | inl b =>
        obtain ⟨r, hr, hQ⟩ := hQ
        exact ⟨r, Option.bind_eq_some_iff.mpr ⟨_, hs, hr⟩, hQ⟩
    | inr c => exact ⟨(c, m'), Option.bind_eq_some_iff.mpr ⟨_, hs, rfl⟩, hQ⟩

section On

variable {get : σ → ρ} {put : ρ → σ → σ}

theorem rounds_on {body : β → Straight ρ (β ⊕ γ)}
    (hget : ∀ r m, get (put r m) = r) (hput : ∀ r r' m, put r' (put r m) = put r' m)
    (hbody : ∀ b m, run B ((body b).on get put) m = (run B (body b) (get m)).map fun r => (r.1, put r.2 m)) (b : β)
    (m : σ) :
    rounds (fun b => run B ((body b).on get put)) n b m =
      (rounds (fun b => run B (body b)) n b (get m)).map fun r => (r.1, put r.2 m) := by
  induction n generalizing b m with
  | zero => rfl
  | succ n ih =>
      rw [rounds, rounds, hbody]
      cases run B (body b) (get m) with
      | none => rfl
      | some r =>
          obtain ⟨next, r⟩ := r
          cases next with
          | inl b => simp only [Option.map_some, Option.bind_some, Sum.elim_inl, ih, hget, hput]
          | inr c => rfl

theorem run_on (hget : ∀ r m, get (put r m) = r) (hput : ∀ r r' m, put r' (put r m) = put r' m)
    (hsame : ∀ m, put (get m) m = m) (c : Straight ρ α) (m : σ) :
    run B (c.on get put) m = (run B c (get m)).map fun r => (r.1, put r.2 m) := by
  induction c generalizing m with
  | ret a => exact congrArg (fun m => some (a, m)) (hsame m).symm
  | act f next ih =>
      rw [on, run, run, ih]
      simp only [hget, hput]
  | loop body b next ihbody ih =>
      rw [on, run, run, rounds_on hget hput ihbody]
      cases rounds (fun b => run B (body b)) B b (get m) with
      | none => rfl
      | some r => simp only [Option.map_some, Option.bind_some, ih, hget, hput]
  | fault => rfl

/-- A program on a part of the memory that can be read and written on its own. -/
theorem ends_on (hget : ∀ r m, get (put r m) = r) (hput : ∀ r r' m, put r' (put r m) = put r' m)
    (hsame : ∀ m, put (get m) m = m) {c : Straight ρ α} :
    (c.on get put).Ends B Q m ↔ c.Ends B (fun a r => Q a (put r m)) (get m) := by
  rw [Ends, Ends, run_on hget hput hsame]
  constructor
  · rintro ⟨r, hr, hQ⟩
    obtain ⟨s, hs, rfl⟩ := Option.map_eq_some_iff.mp hr
    exact ⟨s, hs, hQ⟩
  · rintro ⟨s, hs, hQ⟩
    exact ⟨_, Option.map_eq_some_iff.mpr ⟨s, hs, rfl⟩, hQ⟩

end On

end Interruptible.Straight

namespace Interruptible

/-- A processor that one program has to itself: the memory, the locks the program holds, the thread that the processor is in
or will return to, and whether interrupts are off. -/
structure Solo (σ Λ ι : Type) where
  mem : σ
  held : Finset Λ
  here : ι
  masked : Bool

namespace Code

variable {σ Λ ι α β γ : Type} [DecidableEq Λ] [DecidableEq ι]

/-- A program with the processor to itself. To ask for a lock that it holds faults, and so does to save a context for
another thread than the one that it is in. -/
def alone : ∀ {α : Type}, Code σ Λ ι α → Straight (Solo σ Λ ι) α
  | _, .ret a => .ret a
  | _, .act f next => .act (fun s => ((f s.mem).1, { s with mem := (f s.mem).2 })) fun b => (next b).alone
  | _, .acquire l next =>
      .act (fun s => (decide (l ∉ s.held), { s with held := insert l s.held })) fun free =>
        if free then next.alone else .fault
  | _, .release l next => .act (fun s => ((), { s with held := s.held.erase l })) fun _ => next.alone
  | _, .loop body b next => .loop (fun b => (body b).alone) b fun c => (next c).alone
  | _, .mask on next => .act (fun s => ((), { s with masked := on })) fun _ => next.alone
  | _, .spawn _ next => next.alone
  | _, .switch prev dest next =>
      .act (fun s => (decide (prev = s.here), { s with here := dest })) fun here => if here then next.alone else .fault
  | _, .yield prev dest next =>
      .act (fun s => (decide (prev = s.here), { s with here := dest, masked := false })) fun here =>
        if here then next.alone else .fault
  | _, .fault => .fault

/-- From `s` on the program ends alone, and there `Q` holds. -/
def Ends (B : ℕ) (c : Code σ Λ ι α) (Q : α → Solo σ Λ ι → Prop) (s : Solo σ Λ ι) : Prop := c.alone.Ends B Q s

variable {B : ℕ} {c : Code σ Λ ι α} {g : α → Code σ Λ ι β} {Q : α → Solo σ Λ ι → Prop} {s : Solo σ Λ ι} {l : Λ}

theorem alone_bind (c : Code σ Λ ι α) (g : α → Code σ Λ ι β) : (c >>= g).alone = c.alone >>= fun a => (g a).alone := by
  change (c.bind g).alone = c.alone.bind fun a => (g a).alone
  induction c with
  | ret a => rfl
  | act f next ih => exact congrArg _ (funext fun b => ih b g)
  | acquire l next ih =>
      rw [bind, alone, alone, Straight.bind]
      refine congrArg _ (funext fun free => ?_)
      cases free with
      | true => exact ih g
      | false => rfl
  | release l next ih => exact congrArg _ (funext fun _ => ih g)
  | loop body b next ihbody ih => exact congrArg _ (funext fun c => ih c g)
  | mask on next ih => exact congrArg _ (funext fun _ => ih g)
  | spawn t next ih => exact ih g
  | switch prev dest next ih =>
      rw [bind, alone, alone, Straight.bind]
      refine congrArg _ (funext fun here => ?_)
      cases here with
      | true => exact ih g
      | false => rfl
  | yield prev dest next ih =>
      rw [bind, alone, alone, Straight.bind]
      refine congrArg _ (funext fun here => ?_)
      cases here with
      | true => exact ih g
      | false => rfl
  | fault => rfl

theorem alone_lift (c : Straight σ α) :
    (liftM c : Code σ Λ ι α).alone = c.on (fun s : Solo σ Λ ι => s.mem) fun m s => { s with mem := m } := by
  change (ofStraight c).alone = _
  induction c with
  | ret a => rfl
  | act f next ih => exact congrArg _ (funext fun b => ih b)
  | loop body b next ihbody ih =>
      rw [ofStraight, alone, Straight.on]
      exact congr (congrArg (fun body => Straight.loop body b) (funext ihbody)) (funext ih)
  | fault => rfl

@[simp] theorem ends_pure (a : α) : (pure a : Code σ Λ ι α).Ends B Q s ↔ Q a s := Straight.ends_pure a

@[simp] theorem ends_bind {Q : β → Solo σ Λ ι → Prop} :
    (c >>= g).Ends B Q s ↔ c.Ends B (fun a s => (g a).Ends B Q s) s := by
  rw [Ends, alone_bind, Straight.ends_bind]
  rfl

@[simp] theorem ends_lift {c : Straight σ α} :
    (liftM c : Code σ Λ ι α).Ends B Q s ↔ c.Ends B (fun a m => Q a { s with mem := m }) s.mem := by
  rw [Ends, alone_lift]
  apply Straight.ends_on <;> intros <;> rfl

omit [DecidableEq Λ] [DecidableEq ι] in
/-- A statement that faults unless `p` holds. -/
theorem ends_guard {p : Solo σ Λ ι → Prop} [∀ s, Decidable (p s)] {f : Solo σ Λ ι → Solo σ Λ ι}
    {Q : Unit → Solo σ Λ ι → Prop} :
    (Straight.act (fun s => (decide (p s), f s)) fun here => if here then .ret () else .fault).Ends B Q s ↔
      p s ∧ Q () (f s) := by
  constructor
  · rintro ⟨r, hr, hQ⟩
    by_cases hp : p s
    · simp only [Straight.run, hp, decide_true] at hr
      cases hr
      exact ⟨hp, hQ⟩
    · simp [Straight.run, hp] at hr
  · rintro ⟨hp, hQ⟩
    refine ⟨((), f s), ?_, hQ⟩
    simp [Straight.run, hp]

@[simp] theorem ends_lock {Q : Unit → Solo σ Λ ι → Prop} :
    (lock l : Code σ Λ ι Unit).Ends B Q s ↔ l ∉ s.held ∧ Q () { s with held := insert l s.held } := ends_guard

@[simp] theorem ends_unlock {Q : Unit → Solo σ Λ ι → Prop} :
    (unlock l : Code σ Λ ι Unit).Ends B Q s ↔ Q () { s with held := s.held.erase l } := by
  constructor
  · rintro ⟨r, hr, hQ⟩
    cases hr
    exact hQ
  · exact fun hQ => ⟨_, rfl, hQ⟩

@[simp] theorem ends_disableInterrupt {Q : Unit → Solo σ Λ ι → Prop} :
    (disableInterrupt : Code σ Λ ι Unit).Ends B Q s ↔ Q () { s with masked := true } := by
  constructor
  · rintro ⟨r, hr, hQ⟩
    cases hr
    exact hQ
  · exact fun hQ => ⟨_, rfl, hQ⟩

@[simp] theorem ends_spawnThread {Q : Unit → Solo σ Λ ι → Prop} (t : ι) :
    (spawnThread t : Code σ Λ ι Unit).Ends B Q s ↔ Q () s := Straight.ends_pure ()

@[simp] theorem ends_switchTo {Q : Unit → Solo σ Λ ι → Prop} (prev dest : ι) :
    (switchTo prev dest : Code σ Λ ι Unit).Ends B Q s ↔ prev = s.here ∧ Q () { s with here := dest } := ends_guard

@[simp] theorem ends_yieldTo {Q : Unit → Solo σ Λ ι → Prop} (prev dest : ι) :
    (yieldTo prev dest : Code σ Λ ι Unit).Ends B Q s ↔
    prev = s.here ∧ Q () { s with here := dest, masked := false } := ends_guard

theorem ends_ite {p : Prop} [Decidable p] {c' : Code σ Λ ι α} :
    (if p then c else c').Ends B Q s ↔ if p then c.Ends B Q s else c'.Ends B Q s := by
  split <;> rfl

theorem Ends.mono {Q' : α → Solo σ Λ ι → Prop} (h : c.Ends B Q s) (hQ : ∀ a s, Q a s → Q' a s) : c.Ends B Q' s :=
  Straight.Ends.mono h hQ

end Code

end Interruptible
