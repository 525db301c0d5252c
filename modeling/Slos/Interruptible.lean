import Slos.Machine
import Mathlib.Logic.Function.Basic

/-!
# Interruptible programs

A program runs one statement at a time on a memory it shares with other threads and with interrupt handlers. `Cpu` is one
processor: the thread it runs, the saved contexts of the others, the owners of the locks and, during an interrupt, the
handler with the context it returns to. `wp` is for a program that runs on its own and asks for no lock; `Calm R` is the
shape of a program that asks for no lock and whose statements all stay within `R`.
-/

namespace Interruptible
open Machine

/-- A program that only reads and writes: `loop body b` runs `body` from `b` on until it returns on the right, and a
program that faults stops. -/
inductive Straight (σ : Type) : Type → Type 1
  | ret {α : Type} (a : α) : Straight σ α
  | act {α β : Type} (f : σ → β × σ) (next : β → Straight σ α) : Straight σ α
  | loop {α β γ : Type} (body : β → Straight σ (β ⊕ γ)) (b : β) (next : γ → Straight σ α) : Straight σ α
  | fault {α : Type} : Straight σ α

namespace Straight

variable {σ ρ α β γ : Type}

def bind : Straight σ α → (α → Straight σ β) → Straight σ β
  | .ret a, g => g a
  | .act f next, g => .act f fun b => (next b).bind g
  | .loop body b next, g => .loop body b fun c => (next c).bind g
  | .fault, _ => .fault

instance : Monad (Straight σ) where
  pure := .ret
  bind := bind

def fetch (f : σ → α) : Straight σ α := .act (fun m => (f m, m)) .ret

def store (f : σ → σ) : Straight σ Unit := .act (fun m => ((), f m)) .ret

def iterate (body : β → Straight σ (β ⊕ γ)) (b : β) : Straight σ γ := .loop body b .ret

/-- A pointer that is followed. -/
def deref : Option α → Straight σ α
  | some a => .ret a
  | none => .fault

/-- A program on a part of the memory. -/
def on (get : σ → ρ) (put : ρ → σ → σ) : ∀ {α : Type}, Straight ρ α → Straight σ α
  | _, .ret a => .ret a
  | _, .act f next => .act (fun m => ((f (get m)).1, put (f (get m)).2 m)) fun b => (next b).on get put
  | _, .loop body b next => .loop (fun b => (body b).on get put) b fun c => (next c).on get put
  | _, .fault => .fault

/-- The statements all stay within `R`. -/
def Within (R : σ → σ → Prop) : ∀ {α : Type}, Straight σ α → Prop
  | _, .ret _ => True
  | _, .act f next => (∀ m, R m (f m).2) ∧ ∀ b, (next b).Within R
  | _, .loop body _ next => (∀ b, (body b).Within R) ∧ ∀ c, (next c).Within R
  | _, .fault => True

variable {R : σ → σ → Prop} {c : Straight σ α} {g : α → Straight σ β}

@[simp] theorem within_pure (a : α) : (pure a : Straight σ α).Within R := trivial

@[simp] theorem within_store {f : σ → σ} : (store f).Within R ↔ ∀ m, R m (f m) := and_iff_left fun _ => trivial

theorem within_fetch (hrefl : ∀ m, R m m) (f : σ → α) : (fetch f).Within R := ⟨hrefl, fun _ => trivial⟩

@[simp] theorem within_deref (p : Option α) : (deref p : Straight σ α).Within R := by
  cases p <;> trivial

theorem within_iterate {body : β → Straight σ (β ⊕ γ)} (h : ∀ b, (body b).Within R) (b : β) : (iterate body b).Within R :=
  ⟨h, fun _ => trivial⟩

theorem within_bind (hc : c.Within R) (hg : ∀ a, (g a).Within R) : (c >>= g).Within R := by
  change (c.bind g).Within R
  induction c with
  | ret a => exact hg a
  | act f next ih => exact ⟨hc.1, fun b => ih b (hc.2 b) hg⟩
  | loop body b next ihbody ih => exact ⟨hc.1, fun c => ih c (hc.2 c) hg⟩
  | fault => trivial

theorem within_true : c.Within fun _ _ => True := by
  induction c with
  | ret a => trivial
  | act f next ih => exact ⟨fun _ => trivial, ih⟩
  | loop body b next ihbody ih => exact ⟨ihbody, ih⟩
  | fault => trivial

/-- On a part of the memory a program changes nothing else. -/
theorem within_on {get : σ → ρ} {put : ρ → σ → σ} (hput : ∀ r m, R m (put r m)) (c : Straight ρ α) :
    (c.on get put).Within R := by
  induction c with
  | ret a => trivial
  | act f next ih => exact ⟨fun m => hput _ m, ih⟩
  | loop body b next ihbody ih => exact ⟨ihbody, ih⟩
  | fault => trivial

end Straight

/-- A program that also takes locks and leaves its thread: `spawn` makes a context, `switch` exchanges the context a handler
returns to, and `yield` leaves the thread for another one. -/
inductive Code (σ Λ ι : Type) : Type → Type 1
  | ret {α : Type} (a : α) : Code σ Λ ι α
  | act {α β : Type} (f : σ → β × σ) (next : β → Code σ Λ ι α) : Code σ Λ ι α
  | acquire {α : Type} (l : Λ) (next : Code σ Λ ι α) : Code σ Λ ι α
  | release {α : Type} (l : Λ) (next : Code σ Λ ι α) : Code σ Λ ι α
  | loop {α β γ : Type} (body : β → Code σ Λ ι (β ⊕ γ)) (b : β) (next : γ → Code σ Λ ι α) : Code σ Λ ι α
  | mask {α : Type} (on : Bool) (next : Code σ Λ ι α) : Code σ Λ ι α
  | spawn {α : Type} (t : ι) (next : Code σ Λ ι α) : Code σ Λ ι α
  | switch {α : Type} (prev dest : ι) (next : Code σ Λ ι α) : Code σ Λ ι α
  | yield {α : Type} (prev dest : ι) (next : Code σ Λ ι α) : Code σ Λ ι α
  | fault {α : Type} : Code σ Λ ι α

namespace Code

variable {σ Λ ι α β γ : Type}

def bind : Code σ Λ ι α → (α → Code σ Λ ι β) → Code σ Λ ι β
  | .ret a, g => g a
  | .act f next, g => .act f fun b => (next b).bind g
  | .acquire l next, g => .acquire l (next.bind g)
  | .release l next, g => .release l (next.bind g)
  | .loop body b next, g => .loop body b fun c => (next c).bind g
  | .mask on next, g => .mask on (next.bind g)
  | .spawn t next, g => .spawn t (next.bind g)
  | .switch prev dest next, g => .switch prev dest (next.bind g)
  | .yield prev dest next, g => .yield prev dest (next.bind g)
  | .fault, _ => .fault

instance : Monad (Code σ Λ ι) where
  pure := .ret
  bind := bind

def lock (l : Λ) : Code σ Λ ι Unit := .acquire l (.ret ())

def unlock (l : Λ) : Code σ Λ ι Unit := .release l (.ret ())

def disableInterrupt : Code σ Λ ι Unit := .mask true (.ret ())

def spawnThread (t : ι) : Code σ Λ ι Unit := .spawn t (.ret ())

def switchTo (prev dest : ι) : Code σ Λ ι Unit := .switch prev dest (.ret ())

def yieldTo (prev dest : ι) : Code σ Λ ι Unit := .yield prev dest (.ret ())

/-- The next round of a loop, or what comes after it. -/
def again (body : β → Code σ Λ ι (β ⊕ γ)) (next : γ → Code σ Λ ι α) : β ⊕ γ → Code σ Λ ι α
  | .inl b => .loop body b next
  | .inr c => next c

def ofStraight : ∀ {α : Type}, Straight σ α → Code σ Λ ι α
  | _, .ret a => .ret a
  | _, .act f next => .act f fun b => ofStraight (next b)
  | _, .loop body b next => .loop (fun b => ofStraight (body b)) b fun c => ofStraight (next c)
  | _, .fault => .fault

instance : MonadLift (Straight σ) (Code σ Λ ι) where
  monadLift := ofStraight

def waitsFor : Code σ Λ ι α → Option Λ
  | .acquire l _ => some l
  | _ => none

/-- From `m` on the program asks for no lock, and where it ends `Q` holds. -/
def wp : ∀ {α : Type}, Code σ Λ ι α → (α → σ → Prop) → σ → Prop
  | _, .ret a, Q, m => Q a m
  | _, .act f next, Q, m => wp (next (f m).1) Q (f m).2
  | _, .acquire _ _, _, _ => False
  | _, .release _ next, Q, m => wp next Q m
  | _, .loop body b next, Q, m => ∃ I : _ → σ → Prop, I b m ∧ ∀ b m, I b m → wp (body b) (fun r m => match r with
      | .inl b => I b m
      | .inr c => wp (next c) Q m) m
  | _, .mask _ next, Q, m => wp next Q m
  | _, .spawn _ next, Q, m => wp next Q m
  | _, .switch _ _ next, Q, m => wp next Q m
  | _, .yield _ _ next, Q, m => wp next Q m
  | _, .fault, _, _ => True

/-- The program asks for no lock, and its statements stay within `R`. -/
def Calm (R : σ → σ → Prop) : ∀ {α : Type}, Code σ Λ ι α → Prop
  | _, .ret _ => True
  | _, .act f next => (∀ m, R m (f m).2) ∧ ∀ b, (next b).Calm R
  | _, .acquire _ _ => False
  | _, .release _ next => next.Calm R
  | _, .loop body _ next => (∀ b, (body b).Calm R) ∧ ∀ c, (next c).Calm R
  | _, .mask _ next => next.Calm R
  | _, .spawn _ next => next.Calm R
  | _, .switch _ _ next => next.Calm R
  | _, .yield _ _ next => next.Calm R
  | _, .fault => True

/-- The program asks for no lock. -/
def Lockless (c : Code σ Λ ι α) : Prop := c.Calm fun _ _ => True

section Calm

variable {c : Code σ Λ ι α} {g : α → Code σ Λ ι β} {R : σ → σ → Prop}

@[simp] theorem calm_pure (a : α) : (pure a : Code σ Λ ι α).Calm R := trivial

theorem calm_switchTo (prev dest : ι) : (switchTo prev dest : Code σ Λ ι Unit).Calm R := trivial

theorem calm_lift {c : Straight σ α} (h : c.Within R) : (liftM c : Code σ Λ ι α).Calm R := by
  change (ofStraight c).Calm R
  induction c with
  | ret a => trivial
  | act f next ih => exact ⟨h.1, fun b => ih b (h.2 b)⟩
  | loop body b next ihbody ih => exact ⟨fun b => ihbody b (h.1 b), fun c => ih c (h.2 c)⟩
  | fault => trivial

theorem lockless_lift (c : Straight σ α) : (liftM c : Code σ Λ ι α).Lockless := calm_lift Straight.within_true

theorem calm_bind (hc : c.Calm R) (hg : ∀ a, (g a).Calm R) : (c >>= g).Calm R := by
  change (c.bind g).Calm R
  induction c with
  | ret a => exact hg a
  | act f next ih => exact ⟨hc.1, fun b => ih b (hc.2 b) hg⟩
  | acquire l next ih => exact hc.elim
  | release l next ih => exact ih hc hg
  | loop body b next ihbody ih => exact ⟨hc.1, fun c => ih c (hc.2 c) hg⟩
  | mask on next ih => exact ih hc hg
  | spawn t next ih => exact ih hc hg
  | switch prev dest next ih => exact ih hc hg
  | yield prev dest next ih => exact ih hc hg
  | fault => trivial

end Calm

section Wp

variable {c : Code σ Λ ι α} {g : α → Code σ Λ ι β} {Q Q' : α → σ → Prop} {R : σ → σ → Prop} {m : σ}

theorem wp_mono (h : c.wp Q m) (hQ : ∀ a m, Q a m → Q' a m) : c.wp Q' m := by
  induction c generalizing m with
  | ret a => exact hQ a m h
  | act f next ih => exact ih _ h hQ
  | acquire l next ih => exact h.elim
  | release l next ih => exact ih h hQ
  | loop body b next ihbody ih =>
      obtain ⟨I, hb, hI⟩ := h
      refine ⟨I, hb, fun b m hbm => ihbody b (hI b m hbm) ?_⟩
      rintro (b | c) m h
      · exact h
      · exact ih c h hQ
  | mask on next ih => exact ih h hQ
  | spawn t next ih => exact ih h hQ
  | switch prev dest next ih => exact ih h hQ
  | yield prev dest next ih => exact ih h hQ
  | fault => trivial

theorem wp_bind {Q : β → σ → Prop} (h : c.wp (fun a m => (g a).wp Q m) m) : (c >>= g).wp Q m := by
  change (c.bind g).wp Q m
  induction c generalizing m with
  | ret a => exact h
  | act f next ih => exact ih _ h
  | acquire l next ih => exact h.elim
  | release l next ih => exact ih h
  | loop body b next ihbody ih =>
      obtain ⟨I, hb, hI⟩ := h
      refine ⟨I, hb, fun b m hbm => wp_mono (hI b m hbm) ?_⟩
      rintro (b | c) m h
      · exact h
      · exact ih c h
  | mask on next ih => exact ih h
  | spawn t next ih => exact ih h
  | switch prev dest next ih => exact ih h
  | yield prev dest next ih => exact ih h
  | fault => trivial

theorem wp_fetch {Q : β → σ → Prop} {f : σ → α} (h : (g (f m)).wp Q m) : (liftM (Straight.fetch f) >>= g : Code σ Λ ι β).wp Q m := h

theorem wp_deref {Q : β → σ → Prop} {p : Option α} (h : ∀ a, p = some a → (g a).wp Q m) :
    (liftM (Straight.deref p : Straight σ α) >>= g : Code σ Λ ι β).wp Q m := by
  cases p with
  | none => trivial
  | some a => exact h a rfl

/-- A loop is unfolded once. -/
theorem wp_loop {body : β → Code σ Λ ι (β ⊕ γ)} {b : β} {next : γ → Code σ Λ ι α} (h : (Code.loop body b next).wp Q m) :
    ((body b).bind (again body next)).wp Q m := by
  obtain ⟨I, hb, hI⟩ := h
  apply wp_bind
  apply wp_mono (hI b m hb)
  rintro (b | c) m h
  · exact ⟨I, h, hI⟩
  · exact h

/-- A calm program ends where the relation leads. -/
theorem wp_of_calm (htrans : ∀ m m' m'' : σ, R m m' → R m' m'' → R m m'') (hc : c.Calm R)
    (m₀ : σ) (hm : R m₀ m) : c.wp (fun _ m' => R m₀ m') m := by
  induction c generalizing m with
  | ret a => exact hm
  | act f next ih => exact ih _ (hc.2 _) (htrans _ _ _ hm (hc.1 m))
  | acquire l next ih => exact hc.elim
  | release l next ih => exact ih hc hm
  | loop body b next ihbody ih =>
      refine ⟨fun _ m' => R m₀ m', hm, fun b m' hm' => wp_mono (ihbody b (hc.1 b) hm') ?_⟩
      rintro (b | c) m'' h
      · exact h
      · exact ih c (hc.2 c) h
  | mask on next ih => exact ih hc hm
  | spawn t next ih => exact ih hc hm
  | switch prev dest next ih => exact ih hc hm
  | yield prev dest next ih => exact ih hc hm
  | fault => trivial

theorem Lockless.wp (hc : c.Lockless) (m : σ) : c.wp (fun _ _ => True) m :=
  wp_of_calm (fun _ _ _ _ _ => trivial) hc m trivial

end Wp

end Code

variable {σ Λ ι κ π : Type}

/-- The code of a thread, from where it stands. -/
structure Thread (σ Λ ι : Type) where
  id : ι
  code : Code σ Λ ι Unit

/-- A handler that is running, the thread it interrupted and the context it returns to. -/
structure Irq (σ Λ ι : Type) where
  interrupted : ι
  handler : Code σ Λ ι Unit
  context : Thread σ Λ ι

/-- A lock is owned by a thread or, as `some none`, by the handler. -/
structure Cpu (σ Λ ι : Type) where
  mem : σ
  owner : Λ → Option (Option ι)
  saved : ι → Thread σ Λ ι
  running : Thread σ Λ ι
  masked : Bool
  irq : Option (Irq σ Λ ι)

/-- The next statement, an interrupt, or a call that the running thread makes in code of its own. -/
inductive Event (κ π : Type)
  | run
  | irq (source : κ)
  | call (p : π)

namespace Cpu

def code (s : Cpu σ Λ ι) : Code σ Λ ι Unit :=
  match s.irq with
  | none => s.running.code
  | some f => f.handler

def put (s : Cpu σ Λ ι) (c : Code σ Λ ι Unit) : Cpu σ Λ ι :=
  match s.irq with
  | none => { s with running := { s.running with code := c } }
  | some f => { s with irq := some { f with handler := c } }

/-- Who executes. -/
def who (s : Cpu σ Λ ι) : Option ι :=
  match s.irq with
  | none => some s.running.id
  | some _ => none

/-- A handler that ends returns to its context; a thread whose code ends is in code of its own. -/
def leave (s : Cpu σ Λ ι) : Option (Cpu σ Λ ι) := s.irq.map fun f => { s with running := f.context, irq := none }

/-- No handler waits for a lock of the thread it interrupted. -/
def NoSelfDeadlock (s : Cpu σ Λ ι) : Prop :=
  ∀ f ∈ s.irq, ∀ l ∈ f.handler.waitsFor, s.owner l ≠ some (some f.interrupted)

/-- A thread owns no lock. -/
def OwnsNone (owner : Λ → Option (Option ι)) (t : ι) : Prop := ∀ l, owner l ≠ some (some t)

/-- No handler waits for a lock of a thread. -/
def NoThreadDeadlock (s : Cpu σ Λ ι) : Prop :=
  ∀ f ∈ s.irq, ∀ l ∈ f.handler.waitsFor, ∀ t, s.owner l ≠ some (some t)

/-- A handler runs where `Q` holds of the thread it interrupted and of the locks, or asks for none. -/
def Safe (Q : ι → (Λ → Option (Option ι)) → Prop) (s : Cpu σ Λ ι) : Prop :=
  ∀ f ∈ s.irq, Q f.interrupted s.owner ∨ f.handler.wp (fun _ _ => True) s.mem

variable {Q : ι → (Λ → Option (Option ι)) → Prop}

theorem Safe.of_waits {s : Cpu σ Λ ι} (h : s.Safe Q) {f : Irq σ Λ ι} (hf : f ∈ s.irq) {l : Λ}
    (hl : l ∈ f.handler.waitsFor) : Q f.interrupted s.owner := by
  obtain hown | hwp := h f hf
  · exact hown
  · cases hc : f.handler with
    | acquire l' next => exact (hc ▸ hwp : Code.wp (.acquire l' next) _ _).elim
    | _ => simp [hc, Code.waitsFor] at hl

variable [DecidableEq Λ] [DecidableEq ι]

/-- In a handler the context it returns to is saved for `prev`, and that of `dest` taken. -/
def switch (s : Cpu σ Λ ι) (prev dest : ι) : Cpu σ Λ ι :=
  match s.irq with
  | none => s
  | some f => { s with saved := Function.update s.saved prev f.context, irq := some { f with context := s.saved dest } }

/-- A thread saves its own context for `prev` and takes that of `dest`; interrupts are on again there. -/
def yield (s : Cpu σ Λ ι) (prev dest : ι) : Cpu σ Λ ι :=
  match s.irq with
  | none => { s with saved := Function.update s.saved prev s.running, running := s.saved dest, masked := false }
  | some _ => s

/-- A lock that is taken keeps the program where it is. -/
def run (s : Cpu σ Λ ι) : Option (Cpu σ Λ ι) :=
  match s.code with
  | .ret _ => s.leave
  | .act f next => some ({ s with mem := (f s.mem).2 }.put (next (f s.mem).1))
  | .acquire l next =>
      some (if s.owner l = none then { s with owner := Function.update s.owner l (some s.who) }.put next else s)
  | .release l next => some ({ s with owner := Function.update s.owner l none }.put next)
  | .loop body b next => some (s.put ((body b).bind (Code.again body next)))
  | .mask on next => some ({ s with masked := on }.put next)
  | .spawn t next => some ({ s with saved := Function.update s.saved t ⟨t, .ret ()⟩ }.put next)
  | .switch prev dest next => some ((s.put next).switch prev dest)
  | .yield prev dest next => some ((s.put next).yield prev dest)
  | .fault => none

def interrupt (s : Cpu σ Λ ι) (h : Code σ Λ ι Unit) : Option (Cpu σ Λ ι) :=
  match s.irq, s.masked with
  | none, false => some { s with irq := some { interrupted := s.running.id, handler := h, context := s.running } }
  | _, _ => none

def call (s : Cpu σ Λ ι) (c : Code σ Λ ι Unit) : Option (Cpu σ Λ ι) :=
  match s.irq, s.running.code with
  | none, .ret _ => some (s.put c)
  | _, _ => none

def step (handlers : κ → Code σ Λ ι Unit) (calls : π → Code σ Λ ι Unit) (s : Cpu σ Λ ι) :
    Event κ π → Option (Cpu σ Λ ι)
  | .run => s.run
  | .irq source => s.interrupt (handlers source)
  | .call p => s.call (calls p)

/-- A lock that a handler takes or that is released keeps the property. -/
def KeptByHandlers (Q : ι → (Λ → Option (Option ι)) → Prop) : Prop :=
  ∀ t owner l o, Q t owner → (∀ u, o ≠ some (some u)) → Q t (Function.update owner l o)

omit [DecidableEq ι] in
theorem ownsNone_update {owner : Λ → Option (Option ι)} {t : ι} (h : OwnsNone owner t) {o : Option (Option ι)}
    (ho : o ≠ some (some t)) (l : Λ) : OwnsNone (Function.update owner l o) t := by
  intro l'
  rcases eq_or_ne l' l with rfl | hl
  · simpa only [Function.update_self] using ho
  · simpa only [Function.update_of_ne hl] using h l'

theorem run_safe (hQ : KeptByHandlers Q) {s t : Cpu σ Λ ι} (hs : s.Safe Q) (h : s.run = some t) : t.Safe Q := by
  obtain ⟨mem, owner, saved, running, masked, _ | f⟩ := s
  · -- A thread that runs does not enter a handler.
    suffices hirq : t.irq = none by simp [Safe, hirq]
    obtain ⟨id, code⟩ := running
    cases code <;> simp only [run, Cpu.code, leave, Option.map_none, Option.some.injEq, reduceCtorEq] at h
    case acquire =>
      split at h <;> exact h ▸ rfl
    all_goals exact h ▸ rfl
  · obtain ⟨interrupted, handler, context⟩ := f
    have hf : Q interrupted owner ∨ handler.wp (fun _ _ => True) mem :=
      hs _ rfl
    suffices hirq : ∀ f ∈ t.irq, Q f.interrupted t.owner ∨ f.handler.wp (fun _ _ => True) t.mem from hirq
    cases handler <;> simp only [run, Cpu.code, leave, Option.map_some, Option.some.injEq, reduceCtorEq] at h
    case ret => simp [← h]
    case act g next =>
      subst h
      rintro f ⟨⟩
      exact hf
    case acquire l next =>
      have hown := hf.resolve_right id
      split at h
      · subst h
        rintro f ⟨⟩
        exact .inl (hQ _ _ l _ hown (by simp [who]))
      · exact h ▸ hs
    case release l next =>
      subst h
      rintro f ⟨⟩
      exact hf.imp_left fun hown => hQ _ _ l _ hown (by simp)
    case loop body b next =>
      subst h
      rintro f ⟨⟩
      exact hf.imp_right Code.wp_loop
    all_goals
      subst h
      rintro f ⟨⟩
      exact hf

/-- Where an interrupt is taken `Q` holds, or the handler asks for no lock. -/
def Taken (Q : ι → (Λ → Option (Option ι)) → Prop) (handlers : κ → Code σ Λ ι Unit) (s : Cpu σ Λ ι) : Event κ π → Prop
  | .irq source => Q s.running.id s.owner ∨ (handlers source).wp (fun _ _ => True) s.mem
  | _ => True

theorem step_safe (hQ : KeptByHandlers Q) {handlers : κ → Code σ Λ ι Unit} {calls : π → Code σ Λ ι Unit}
    {s t : Cpu σ Λ ι} {e : Event κ π} (hs : s.Safe Q) (he : s.Taken Q handlers e)
    (h : s.step handlers calls e = some t) : t.Safe Q := by
  cases e with
  | run => exact run_safe hQ hs h
  | irq source =>
      simp only [step, interrupt] at h
      split at h
      · cases h
        rintro f ⟨⟩
        exact he
      · cases h
  | call p =>
      simp only [step, call] at h
      split at h
      · next hirq _ =>
          cases h
          simp [Safe, put, hirq]
      · cases h

variable {handlers : κ → Code σ Λ ι Unit} {calls : π → Code σ Λ ι Unit} {s : Cpu σ Λ ι} {es : List (Event κ π)}

theorem always_safe (hQ : KeptByHandlers Q) (hirq : s.irq = none)
    (h : StepsMeet (step handlers calls) (Taken Q handlers) s es) : Always (step handlers calls) (Safe Q) s es :=
  always_of_stepsMeet (Safe Q) (fun _ hs => hs) (fun _ _ _ hs he ht => step_safe hQ hs he ht) (by simp [Safe, hirq]) h

/-- From a state without a handler no run comes to a handler that waits for a lock of the thread it interrupted. -/
theorem always_noSelfDeadlock (hirq : s.irq = none)
    (h : StepsMeet (step handlers calls) (Taken (fun t owner => OwnsNone owner t) handlers) s es) :
    Always (step handlers calls) NoSelfDeadlock s es := by
  have hQ : KeptByHandlers fun (t : ι) (owner : Λ → Option (Option ι)) => OwnsNone owner t :=
    fun t _ l _ hown ho => ownsNone_update hown (ho t) l
  exact (always_safe hQ hirq h).mono fun u hu f hf l hl => hu.of_waits hf hl l

/-- If no thread owns a lock where an interrupt is taken, no run comes to a handler that waits for one of a thread. -/
theorem always_noThreadDeadlock (hirq : s.irq = none)
    (h : StepsMeet (step handlers calls) (Taken (fun _ owner => ∀ t, OwnsNone owner t) handlers) s es) :
    Always (step handlers calls) NoThreadDeadlock s es := by
  have hQ : KeptByHandlers fun (_ : ι) (owner : Λ → Option (Option ι)) => ∀ t, OwnsNone owner t :=
    fun _ _ l _ hown ho t => ownsNone_update (hown t) (ho t) l
  exact (always_safe hQ hirq h).mono fun u hu f hf l hl t => hu.of_waits hf hl t l

end Cpu

end Interruptible
