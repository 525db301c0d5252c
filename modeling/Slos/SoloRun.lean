import Slos.StraightRun
import Mathlib.Logic.Relation

/-!
# A program alone is a run of the processor

`Ends` is about a program by itself. Where no interrupt comes the processor makes the same statements one after the other,
so what a program alone comes to is what the processor comes to when it runs that program, in a handler or in a thread, with
all other threads in code of their own.
-/

namespace Interruptible
open Machine
open Relation (ReflTransGen)

variable {σ Λ ι α β γ : Type} [DecidableEq Λ] [DecidableEq ι]

/-- A handler never leaves, but may exchange the context it returns to; the program of a thread leaves the thread with its
last statement or not at all. -/
def Code.Stays (handler last : Bool) : ∀ {α : Type}, Code σ Λ ι α → Prop
  | _, .ret _ => True
  | _, .act _ next => ∀ b, (next b).Stays handler last
  | _, .acquire _ next => next.Stays handler last
  | _, .release _ next => next.Stays handler last
  | _, .loop body _ next => (∀ b, (body b).Stays handler false) ∧ ∀ c, (next c).Stays handler last
  | _, .mask _ next => next.Stays handler last
  | _, .spawn _ next => next.Stays handler last
  | _, .switch _ _ next => handler = true ∧ next.Stays handler last
  | _, .yield _ _ next => handler = false ∧ last = true ∧ ∃ a, next = .ret a
  | _, .fault => True

namespace Code

variable {c : Code σ Λ ι α} {g : α → Code σ Λ ι β} {handler last : Bool}

omit [DecidableEq Λ] [DecidableEq ι]

theorem bind_ret (c : Code σ Λ ι α) : (c.bind fun a => .ret a) = c := by
  induction c with
  | ret a => rfl
  | act f next ih => exact congrArg _ (funext ih)
  | acquire l next ih => exact congrArg _ ih
  | release l next ih => exact congrArg _ ih
  | loop body b next ihbody ih => exact congrArg _ (funext ih)
  | mask on next ih => exact congrArg _ ih
  | spawn t next ih => exact congrArg _ ih
  | switch prev dest next ih => exact congrArg _ ih
  | yield prev dest next ih => exact congrArg _ ih
  | fault => rfl

theorem stays_pure (a : α) : (pure a : Code σ Λ ι α).Stays handler last := trivial

theorem stays_bind (hc : c.Stays handler false) (hg : ∀ a, (g a).Stays handler last) : (c >>= g).Stays handler last := by
  change (c.bind g).Stays handler last
  induction c with
  | ret a => exact hg a
  | act f next ih => exact fun b => ih b (hc b) hg
  | acquire l next ih => exact ih hc hg
  | release l next ih => exact ih hc hg
  | loop body b next ihbody ih => exact ⟨hc.1, fun c => ih c (hc.2 c) hg⟩
  | mask on next ih => exact ih hc hg
  | spawn t next ih => exact ih hc hg
  | switch prev dest next ih => exact ⟨hc.1, ih hc.2 hg⟩
  | yield prev dest next ih => exact Bool.noConfusion hc.2.1
  | fault => trivial

theorem stays_lift (c : Straight σ α) : (liftM c : Code σ Λ ι α).Stays handler last := by
  change (ofStraight c).Stays handler last
  induction c generalizing last with
  | ret a => trivial
  | act f next ih => exact fun b => ih b
  | loop body b next ihbody ih => exact ⟨fun b => ihbody b, fun c => ih c⟩
  | fault => trivial

end Code

namespace Cpu

/-- The processor is where `s` says, and all other threads are in code of their own. -/
structure At (u : Cpu σ Λ ι) (s : Solo σ Λ ι) : Prop where
  mem : u.mem = s.mem
  owner : ∀ l, u.owner l = none ↔ l ∉ s.held
  saved : ∀ t, u.saved t = ⟨t, .ret ()⟩
  masked : u.masked = s.masked
  running : u.irq = none → u.running.id = s.here
  context : ∀ f ∈ u.irq, f.context = ⟨s.here, .ret ()⟩

variable {u v : Cpu σ Λ ι} {s s' : Solo σ Λ ι} {c c' : Code σ Λ ι Unit} {B : ℕ}

omit [DecidableEq Λ] [DecidableEq ι] in
@[simp] theorem put_code (u : Cpu σ Λ ι) (c : Code σ Λ ι Unit) : (u.put c).code = c := by
  obtain ⟨mem, owner, saved, running, masked, _ | f⟩ := u <;> rfl

omit [DecidableEq Λ] [DecidableEq ι] in
@[simp] theorem put_isSome (u : Cpu σ Λ ι) (c : Code σ Λ ι Unit) : (u.put c).irq.isSome = u.irq.isSome := by
  obtain ⟨mem, owner, saved, running, masked, _ | f⟩ := u <;> rfl

omit [DecidableEq Λ] [DecidableEq ι] in
theorem At.put (h : u.At s) (c : Code σ Λ ι Unit) : (u.put c).At s := by
  obtain ⟨mem, owner, saved, running, masked, _ | f⟩ := u
  · exact ⟨h.mem, h.owner, h.saved, h.masked, fun _ => h.running rfl, by rintro _ ⟨⟩⟩
  · refine ⟨h.mem, h.owner, h.saved, h.masked, nofun, ?_⟩
    rintro _ ⟨⟩
    exact h.context f rfl

omit [DecidableEq Λ] [DecidableEq ι] in
theorem At.setMem (h : u.At s) (m : σ) : At { u with mem := m } { s with mem := m } :=
  ⟨rfl, h.owner, h.saved, h.masked, h.running, h.context⟩

omit [DecidableEq Λ] [DecidableEq ι] in
theorem At.setMasked (h : u.At s) (on : Bool) : At { u with masked := on } { s with masked := on } :=
  ⟨h.mem, h.owner, h.saved, rfl, h.running, h.context⟩

omit [DecidableEq ι] in
theorem At.acquire (h : u.At s) (l : Λ) (o : Option ι) :
    At { u with owner := Function.update u.owner l (some o) } { s with held := insert l s.held } := by
  refine ⟨h.mem, fun l' => ?_, h.saved, h.masked, h.running, h.context⟩
  rcases eq_or_ne l' l with rfl | hl
  · simp
  · simp [h.owner, hl]

omit [DecidableEq ι] in
theorem At.release (h : u.At s) (l : Λ) :
    At { u with owner := Function.update u.owner l none } { s with held := s.held.erase l } := by
  refine ⟨h.mem, fun l' => ?_, h.saved, h.masked, h.running, h.context⟩
  rcases eq_or_ne l' l with rfl | hl
  · simp
  · simp [h.owner, hl]

omit [DecidableEq Λ] in
theorem At.spawn (h : u.At s) (t : ι) : At { u with saved := Function.update u.saved t ⟨t, .ret ()⟩ } s := by
  refine ⟨h.mem, h.owner, fun t' => ?_, h.masked, h.running, h.context⟩
  rcases eq_or_ne t' t with rfl | ht
  · simp
  · simp [Function.update_of_ne ht, h.saved]

omit [DecidableEq Λ] in
theorem At.switch (h : u.At s) (hirq : u.irq.isSome = true) (dest : ι) :
    (u.switch s.here dest).At { s with here := dest } := by
  obtain ⟨f, hf⟩ := Option.isSome_iff_exists.mp hirq
  rw [Cpu.switch, hf]
  refine ⟨h.mem, h.owner, fun t => ?_, h.masked, nofun, ?_⟩
  · rcases eq_or_ne t s.here with rfl | ht
    · simp [h.context f hf]
    · simp [Function.update_of_ne ht, h.saved]
  · rintro _ ⟨⟩
    exact h.saved dest

omit [DecidableEq Λ] in
/-- A thread in code of its own that leaves for another one. -/
theorem At.yield (h : u.At s) (hirq : u.irq = none) (dest : ι) :
    ((u.put (.ret ())).yield s.here dest).At { s with here := dest, masked := false } ∧
      ((u.put (.ret ())).yield s.here dest).code = .ret () ∧ ((u.put (.ret ())).yield s.here dest).irq.isSome = false := by
  have hid := h.running hirq
  simp only [Cpu.put, Cpu.yield, Cpu.code, hirq]
  refine ⟨⟨h.mem, h.owner, fun t => ?_, rfl, fun _ => ?_, by rintro _ ⟨⟩⟩, ?_, rfl⟩
  · rcases eq_or_ne t s.here with rfl | ht
    · simp [hid]
    · simp [Function.update_of_ne ht, h.saved]
  · simp [h.saved]
  · simp [h.saved]

/-- One processor statement after another comes to where `c` is left to do. -/
def Gets (u : Cpu σ Λ ι) (c : Code σ Λ ι Unit) (s : Solo σ Λ ι) : Prop :=
  ∃ v, ReflTransGen (fun u v : Cpu σ Λ ι => u.run = some v) u v ∧ v.At s ∧ v.code = c ∧ v.irq.isSome = u.irq.isSome

theorem Gets.step (hrun : u.run = some v) (hirq : v.irq.isSome = u.irq.isSome) (h : v.Gets c s) : u.Gets c s := by
  obtain ⟨w, hvw, hw, hcode, hirq'⟩ := h
  exact ⟨w, .head hrun hvw, hw, hcode, hirq'.trans hirq⟩

theorem Gets.trans (h : u.Gets c s) (h' : ∀ v : Cpu σ Λ ι, v.At s → v.code = c → v.irq.isSome = u.irq.isSome →
    v.Gets c' s') :
    u.Gets c' s' := by
  obtain ⟨v, huv, hv, hcode, hirq⟩ := h
  obtain ⟨w, hvw, hw, hcode', hirq'⟩ := h' v hv hcode hirq
  exact ⟨w, huv.trans hvw, hw, hcode', hirq'.trans hirq⟩

/-- A loop whose rounds do on the processor what they do alone. -/
theorem gets_rounds {β γ : Type} {body : β → Code σ Λ ι (β ⊕ γ)} {handler : Bool} (next : γ → Code σ Λ ι Unit)
    (hbody : ∀ (b : β) (u : Cpu σ Λ ι) s r s', u.irq.isSome = handler → u.At s → u.code = (body b).bind
    (Code.again body next) →
      Straight.run B (body b).alone s = some (r, s') → u.Gets (Code.again body next r) s')
    {fuel : ℕ} {b : β} {c : γ} (hirq : u.irq.isSome = handler) (hu : u.At s) (hcode : u.code = .loop body b next)
    (hrun : Straight.rounds (fun b => Straight.run B (body b).alone) fuel b s = some (c, s')) : u.Gets (next c) s' := by
  induction fuel generalizing u s b with
  | zero => cases hrun
  | succ fuel ih =>
      obtain ⟨⟨r, s₁⟩, hfirst, hrest⟩ := Option.bind_eq_some_iff.mp hrun
      have hstep : u.run = some (u.put ((body b).bind (Code.again body next))) := by
        rw [run, hcode]
      have hround := hbody b _ s r s₁ ((put_isSome u _).trans hirq) (hu.put _) (put_code u _) hfirst
      refine Gets.step hstep (put_isSome u _) (hround.trans fun v hv hcode' hirq' => ?_)
      cases r with
      | inl b' => exact ih ((hirq'.trans (put_isSome u _)).trans hirq) hv hcode' hrest
      | inr c' =>
          cases hrest
          exact ⟨v, .refl, hv, hcode', rfl⟩

/-- A program that stays in its thread does on the processor what it does alone. -/
theorem gets_of_stays {c : Code σ Λ ι α} {g : α → Code σ Λ ι Unit} {a : α} {last : Bool} (hc : c.Stays u.irq.isSome last)
    (hlast : last = true → ∀ a, g a = .ret ()) (hu : u.At s) (hcode : u.code = c.bind g)
    (hrun : Straight.run B c.alone s = some (a, s')) : u.Gets (g a) s' := by
  obtain ⟨handler, hirq⟩ : ∃ handler, u.irq.isSome = handler := ⟨_, rfl⟩
  rw [hirq] at hc
  induction c generalizing u s s' last with
  | ret a =>
      cases hrun
      exact ⟨u, .refl, hu, hcode, rfl⟩
  | act f next ih =>
      have hstep : u.run = some ({ u with mem := (f u.mem).2 }.put ((next (f u.mem).1).bind g)) := by
        rw [run, hcode]
        rfl
      rw [hu.mem] at hstep
      exact Gets.step hstep (put_isSome _ _) (ih _ hlast ((hu.setMem _).put _) (put_code _ _) hrun (hc _)
        ((put_isSome _ _).trans hirq))
  | acquire l next ih =>
      by_cases hl : l ∈ s.held
      · simp [Code.alone, Straight.run, hl] at hrun
      · have hstep : u.run = some ({ u with owner := Function.update u.owner l (some u.who) }.put (next.bind g)) := by
          rw [run, hcode]
          exact congrArg some (if_pos ((hu.owner l).mpr hl))
        simp only [Code.alone, Straight.run, hl, not_false_iff, decide_true, if_true] at hrun
        exact Gets.step hstep (put_isSome _ _) (ih hlast ((hu.acquire l u.who).put _) (put_code _ _) hrun hc
          ((put_isSome _ _).trans hirq))
  | release l next ih =>
      have hstep : u.run = some ({ u with owner := Function.update u.owner l none }.put (next.bind g)) := by
        rw [run, hcode]
        rfl
      exact Gets.step hstep (put_isSome _ _) (ih hlast ((hu.release l).put _) (put_code _ _) hrun hc
        ((put_isSome _ _).trans hirq))
  | loop body b next ihbody ih =>
      obtain ⟨⟨c, s₁⟩, hrounds, hrun⟩ := Option.bind_eq_some_iff.mp hrun
      have hloop := gets_rounds (fun c => (next c).bind g)
        (fun b u s r s' hirq hu hcode hrun => ihbody b (fun h => Bool.noConfusion h) hu hcode hrun (hc.1 b) hirq) hirq hu
        hcode hrounds
      exact hloop.trans fun v hv hcode' hirq' => ih c hlast hv hcode' hrun (hc.2 c) (hirq'.trans hirq)
  | mask on next ih =>
      have hstep : u.run = some ({ u with masked := on }.put (next.bind g)) := by
        rw [run, hcode]
        rfl
      exact Gets.step hstep (put_isSome _ _) (ih hlast ((hu.setMasked on).put _) (put_code _ _) hrun hc
        ((put_isSome _ _).trans hirq))
  | spawn t next ih =>
      have hstep : u.run = some ({ u with saved := Function.update u.saved t ⟨t, .ret ()⟩ }.put (next.bind g)) := by
        rw [run, hcode]
        rfl
      exact Gets.step hstep (put_isSome _ _) (ih hlast ((hu.spawn t).put _) (put_code _ _) hrun hc
        ((put_isSome _ _).trans hirq))
  | switch prev dest next ih =>
      obtain ⟨rfl, hc⟩ := hc
      by_cases hhere : prev = s.here
      · subst hhere
        have hstep : u.run = some ((u.put (next.bind g)).switch s.here dest) := by
          rw [run, hcode]
          rfl
        simp only [Code.alone, Straight.run, decide_true, if_true] at hrun
        have hput := put_isSome u (next.bind g)
        have hswitch : ((u.put (next.bind g)).switch s.here dest).irq.isSome = true ∧
            ((u.put (next.bind g)).switch s.here dest).code = next.bind g := by
          obtain ⟨f, hf⟩ := Option.isSome_iff_exists.mp hirq
          simp [Cpu.put, Cpu.switch, Cpu.code, hf]
        exact Gets.step hstep (hswitch.1.trans hirq.symm)
          (ih hlast ((hu.put _).switch (hput.trans hirq) dest) hswitch.2 hrun hc hswitch.1)
      · simp [Code.alone, Straight.run, hhere] at hrun
  | yield prev dest next ih =>
      obtain ⟨rfl, rfl, a', rfl⟩ := hc
      by_cases hhere : prev = s.here
      · subst hhere
        have hstep : u.run = some ((u.put (.ret ())).yield s.here dest) := by
          rw [run, hcode]
          exact congrArg (fun c => some ((u.put c).yield s.here dest)) (hlast rfl a')
        simp only [Code.alone, Straight.run, decide_true, if_true] at hrun
        cases hrun
        rw [hlast rfl]
        obtain ⟨hat, hcode', hirq'⟩ := hu.yield (Option.not_isSome_iff_eq_none.mp (by simp [hirq])) dest
        exact Gets.step hstep (hirq'.trans hirq.symm) ⟨_, .refl, hat, hcode', rfl⟩
      · simp [Code.alone, Straight.run, hhere] at hrun
  | fault => cases hrun

/-- The thread that the memory names is in code of its own, and so are all others: interrupts are on, and no lock is
held. -/
structure Resting (current : σ → ι) (u : Cpu σ Λ ι) : Prop where
  place : u.At ⟨u.mem, ∅, current u.mem, false⟩
  irq : u.irq = none
  code : u.running.code = .ret ()

variable {κ π : Type} {handlers : κ → Code σ Λ ι Unit} {calls : π → Code σ Λ ι Unit} {current : σ → ι} {Q : σ → Prop}

theorem exec_of_runs (handlers : κ → Code σ Λ ι Unit) (calls : π → Code σ Λ ι Unit)
    (h : ReflTransGen (fun u v : Cpu σ Λ ι => u.run = some v) u v) :
    ∃ n, exec (step handlers calls) u (List.replicate n .run) = some v := by
  induction h using ReflTransGen.head_induction_on with
  | refl => exact ⟨0, rfl⟩
  | head hrun _ ih =>
      obtain ⟨n, hn⟩ := ih
      refine ⟨n + 1, ?_⟩
      rw [List.replicate_succ, exec_cons]
      exact Option.bind_eq_some_iff.mpr ⟨_, hrun, hn⟩

omit [DecidableEq Λ] [DecidableEq ι] in
theorem Resting.running (h : u.Resting current) : u.running = ⟨current u.mem, .ret ()⟩ := by
  have hid := h.place.running h.irq
  have hcode := h.code
  obtain ⟨mem, owner, saved, ⟨id, code⟩, masked, irq⟩ := u
  obtain rfl : id = current mem := hid
  obtain rfl : code = .ret () := hcode
  rfl

/-- A handler that ends alone ends on the processor, and it returns to the thread that the memory names. -/
theorem rests_after_irq (handlers : κ → Code σ Λ ι Unit) (calls : π → Code σ Λ ι Unit) {source : κ}
    (hu : u.Resting current) (hstays : (handlers source).Stays true false)
    (hend : (handlers source).Ends B (fun _ s => Q s.mem ∧ s = ⟨s.mem, ∅, current s.mem, false⟩)
    ⟨u.mem, ∅, current u.mem, false⟩) :
    ∃ n v, exec (step handlers calls) u (.irq source :: List.replicate n .run) = some v ∧ v.Resting current ∧ Q v.mem := by
  obtain ⟨⟨⟨⟩, s⟩, hrun, hQ, hs⟩ := hend
  obtain ⟨m, hm⟩ : ∃ m, m = s.mem := ⟨_, rfl⟩
  obtain rfl : s = ⟨m, ∅, current m, false⟩ := hm ▸ hs
  obtain ⟨u₁, hu₁⟩ : ∃ u₁, u₁ = { u with irq := some ⟨u.running.id, handlers source, u.running⟩ } := ⟨_, rfl⟩
  have hstart : step handlers calls u (.irq source) = some u₁ := by
    have hmasked : u.masked = false := hu.place.masked
    simp [step, interrupt, hu.irq, hmasked, hu₁]
  have hat : u₁.At ⟨u.mem, ∅, current u.mem, false⟩ := by
    rw [hu₁]
    refine ⟨rfl, hu.place.owner, hu.place.saved, hu.place.masked, by rintro ⟨⟩, ?_⟩
    rintro _ ⟨⟩
    exact hu.running
  have hcode : u₁.code = (handlers source).bind fun _ => .ret () := by
    rw [hu₁, Code.bind_ret]
    rfl
  have hhandler : u₁.irq.isSome = true := by rw [hu₁]; rfl
  obtain ⟨v, huv, hv, hvcode, hvirq⟩ := gets_of_stays (hhandler ▸ hstays) (fun h => Bool.noConfusion h) hat hcode hrun
  obtain ⟨f, hf⟩ := Option.isSome_iff_exists.mp (hvirq.trans hhandler)
  have hleave : v.run = some { v with running := f.context, irq := none } := by
    rw [run, hvcode]
    simp [leave, hf]
  obtain ⟨n, hn⟩ := exec_of_runs handlers calls (huv.tail hleave)
  have hcontext := hv.context f hf
  obtain rfl : v.mem = m := hv.mem
  refine ⟨n, _, Option.bind_eq_some_iff.mpr ⟨u₁, hstart, hn⟩, ⟨?_, rfl, congrArg Thread.code hcontext⟩, hQ⟩
  exact ⟨rfl, hv.owner, hv.saved, hv.masked, fun _ => congrArg Thread.id hcontext, by rintro _ ⟨⟩⟩

/-- A call that ends alone ends on the processor, in the thread that the memory names. -/
theorem rests_after_call (handlers : κ → Code σ Λ ι Unit) (calls : π → Code σ Λ ι Unit) {p : π} (hu : u.Resting current)
    (hstays : (calls p).Stays false true)
    (hend : (calls p).Ends B (fun _ s => Q s.mem ∧ s = ⟨s.mem, ∅, current s.mem, false⟩) ⟨u.mem, ∅, current u.mem, false⟩) :
    ∃ n v, exec (step handlers calls) u (.call p :: List.replicate n .run) = some v ∧ v.Resting current ∧ Q v.mem := by
  obtain ⟨⟨⟨⟩, s⟩, hrun, hQ, hs⟩ := hend
  obtain ⟨m, hm⟩ : ∃ m, m = s.mem := ⟨_, rfl⟩
  obtain rfl : s = ⟨m, ∅, current m, false⟩ := hm ▸ hs
  have hstart : step handlers calls u (.call p) = some (u.put (calls p)) := by
    rw [step, call, hu.irq, hu.code]
  have hirq : (u.put (calls p)).irq.isSome = false := by rw [put_isSome, hu.irq]; rfl
  have hcode : (u.put (calls p)).code = (calls p).bind fun _ => .ret () := by rw [put_code, Code.bind_ret]
  obtain ⟨v, huv, hv, hvcode, hvirq⟩ := gets_of_stays (hirq ▸ hstays) (fun _ _ => rfl) (hu.place.put _) hcode hrun
  have hnone : v.irq = none := Option.not_isSome_iff_eq_none.mp (by simp [hvirq, hirq])
  obtain ⟨n, hn⟩ := exec_of_runs handlers calls huv
  obtain rfl : v.mem = m := hv.mem
  refine ⟨n, v, Option.bind_eq_some_iff.mpr ⟨_, hstart, hn⟩, ⟨hv, hnone, ?_⟩, hQ⟩
  rw [Cpu.code, hnone] at hvcode
  exact hvcode

end Cpu

/-- What an event brings from outside. -/
def Event.external {κ π : Type} : Event κ π → Option (κ ⊕ π)
  | .run => none
  | .irq source => some (.inl source)
  | .call p => some (.inr p)

def Event.of {κ π : Type} : κ ⊕ π → Event κ π
  | .inl source => .irq source
  | .inr p => .call p

namespace Cpu

structure AtRest (u : Cpu σ Λ ι) : Prop where
  irq : u.irq = none
  code : u.running.code = .ret ()

variable {κ π ρ : Type} {handlers : κ → Code σ Λ ι Unit} {calls : π → Code σ Λ ι Unit} {u v w : Cpu σ Λ ι}

/-- Interrupts and calls come only where the thread is in code of its own. -/
def Serial (handlers : κ → Code σ Λ ι Unit) (calls : π → Code σ Λ ι Unit) (u : Cpu σ Λ ι) (fs : List (Event κ π)) : Prop :=
  StepsMeet (step handlers calls) (fun u e => e.external ≠ none → u.AtRest) u fs

theorem AtRest.run (h : u.AtRest) : u.run = none := by
  rw [Cpu.run, Cpu.code, h.irq]
  simp [h.code, leave, h.irq]

/-- At rest the processor waits for an event from outside. -/
theorem AtRest.exec (h : u.AtRest) {fs : List (Event κ π)} (hexec : exec (step handlers calls) u fs = some v) :
    fs = [] ∧ v = u ∨ ∃ e x gs, fs = e :: gs ∧ e.external = some x := by
  cases fs with
  | nil =>
      cases hexec
      exact .inl ⟨rfl, rfl⟩
  | cons e gs =>
      cases e with
      | run =>
          obtain ⟨w, hw, -⟩ := exec_cons_eq_some hexec
          exact absurd (h.run.symm.trans hw) (Option.some_ne_none w).symm
      | irq source => exact .inr ⟨_, _, gs, rfl, rfl⟩
      | call p => exact .inr ⟨_, _, gs, rfl, rfl⟩

theorem eq_run {e : Event κ π} (h : e.external = none) : e = .run := by cases e <;> first | rfl | cases h

theorem external_eq {e e' : Event κ π} {x : κ ⊕ π} (h : e.external = some x) (h' : e'.external = some x) : e = e' := by
  have hof (e : Event κ π) (he : e.external = some x) : e = .of x := by
    cases e <;> cases he <;> rfl
  rw [hof e h, hof e' h']

/-- What comes from outside decides a serial run between two states of rest. -/
theorem serial_unique {fs gs : List (Event κ π)} (hfs : Serial handlers calls u fs) (hgs : Serial handlers calls u gs)
    (hv : exec (step handlers calls) u fs = some v) (hw : exec (step handlers calls) u gs = some w) (hrestv : v.AtRest)
    (hrestw : w.AtRest) (hsame : fs.filterMap Event.external = gs.filterMap Event.external) : v = w := by
  induction fs generalizing u gs with
  | nil =>
      cases hv
      rcases hrestv.exec hw with ⟨-, rfl⟩ | ⟨e, x, gs, rfl, hx⟩
      · rfl
      · rw [List.filterMap_nil, List.filterMap_cons_some hx] at hsame
        cases hsame
  | cons e fs ih =>
      obtain ⟨u₁, hu₁, hv₁⟩ := exec_cons_eq_some hv
      cases gs with
      | nil =>
          cases hw
          rcases hrestw.exec hv with ⟨hnil, -⟩ | ⟨e', x, fs', hcons, hx⟩
          · cases hnil
          · cases hcons
            rw [List.filterMap_nil, List.filterMap_cons_some hx] at hsame
            cases hsame
      | cons e' gs =>
          obtain ⟨u₂, hu₂, hw₂⟩ := exec_cons_eq_some hw
          obtain ⟨hrest, hfs₁⟩ := hfs u₁ hu₁
          obtain ⟨hrest', hgs₁⟩ := hgs u₂ hu₂
          -- An event from outside comes at rest, where the processor itself has no next statement.
          have hstuck (hr : u.AtRest) {w' : Cpu σ Λ ι} (hw' : step handlers calls u .run = some w') : False :=
            absurd (hr.run.symm.trans hw') (Option.some_ne_none w').symm
          cases hx : e.external with
          | none =>
              obtain rfl := eq_run hx
              cases hx' : e'.external with
              | none =>
                  obtain rfl := eq_run hx'
                  obtain rfl := Option.some.inj (hu₁.symm.trans hu₂)
                  rw [List.filterMap_cons_none hx, List.filterMap_cons_none hx] at hsame
                  exact ih hfs₁ hgs₁ hv₁ hw₂ hsame
              | some x => exact (hstuck (hrest' (by simp [hx'])) hu₁).elim
          | some x =>
              cases hx' : e'.external with
              | none =>
                  obtain rfl := eq_run hx'
                  exact (hstuck (hrest (by simp [hx])) hu₂).elim
              | some x' =>
                  rw [List.filterMap_cons_some hx, List.filterMap_cons_some hx'] at hsame
                  obtain ⟨rfl, htail⟩ := List.cons.inj hsame
                  obtain rfl := external_eq hx hx'
                  obtain rfl := Option.some.inj (hu₁.symm.trans hu₂)
                  exact ih hfs₁ hgs₁ hv₁ hw₂ htail

variable {abs : ρ → κ ⊕ π → Option ρ} {C : ρ → κ ⊕ π → Prop} {R : Cpu σ Λ ι → ρ → Prop} {r r' : ρ}

/-- The processor answers each step of an atomic machine and is at rest again. -/
def Answers (handlers : κ → Code σ Λ ι Unit) (calls : π → Code σ Λ ι Unit) (abs : ρ → κ ⊕ π → Option ρ)
    (C : ρ → κ ⊕ π → Prop) (R : Cpu σ Λ ι → ρ → Prop) : Prop :=
  ∀ u r x r', R u r → C r x → abs r x = some r' →
    ∃ n v, exec (step handlers calls) u (.of x :: List.replicate n .run) = some v ∧ R v r'

theorem serial_replicate (n : ℕ) : Serial handlers calls u (List.replicate n .run) := by
  induction n generalizing u with
  | zero => trivial
  | succ n ih => exact fun v _ => ⟨fun h => absurd rfl h, ih⟩

theorem serial_append {fs gs : List (Event κ π)} (hfs : Serial handlers calls u fs)
    (hgs : ∀ v, exec (step handlers calls) u fs = some v → Serial handlers calls v gs) :
    Serial handlers calls u (fs ++ gs) := by
  induction fs generalizing u with
  | nil => exact hgs u rfl
  | cons e fs ih =>
      refine fun v hv => ⟨(hfs v hv).1, ih (hfs v hv).2 fun w hw => hgs w ?_⟩
      exact Option.bind_eq_some_iff.mpr ⟨v, hv, hw⟩

@[simp] theorem external_of (x : κ ⊕ π) : (Event.of x).external = some x := by cases x <;> rfl

/-- Every run of the atomic machine is one of the processor. -/
theorem exists_serial (hanswers : Answers handlers calls abs C R) (hrest : ∀ u r, R u r → u.AtRest) (hu : R u r)
    {xs : List (κ ⊕ π)} (hC : StepsMeet abs C r xs) (hr : exec abs r xs = some r') :
    ∃ fs v, exec (step handlers calls) u fs = some v ∧ Serial handlers calls u fs ∧ fs.filterMap Event.external = xs ∧
      R v r' := by
  induction xs generalizing u r with
  | nil =>
      cases hr
      exact ⟨[], u, rfl, trivial, rfl, hu⟩
  | cons x xs ih =>
      obtain ⟨r₁, hr₁, hr⟩ := exec_cons_eq_some hr
      obtain ⟨hx, hC⟩ := hC r₁ hr₁
      obtain ⟨n, v, hv, hR⟩ := hanswers u r x r₁ hu hx hr₁
      obtain ⟨fs, w, hw, hserial, hfs, hRw⟩ := ih hR hC hr
      refine ⟨(.of x :: List.replicate n .run) ++ fs, w, ?_, ?_, ?_, hRw⟩
      · rw [exec_append, hv]
        exact hw
      · refine serial_append (fun v _ => ⟨fun _ => hrest u r hu, serial_replicate n⟩) fun v' hv' => ?_
        obtain rfl := Option.some.inj (hv.symm.trans hv')
        exact hserial
      · have hrun : (List.replicate n Event.run).filterMap (Event.external : Event κ π → Option (κ ⊕ π)) = [] :=
          List.filterMap_eq_nil_iff.mpr fun e he => by rw [List.eq_of_mem_replicate he]; rfl
        rw [List.filterMap_append, List.filterMap_cons_some (external_of x), hrun, hfs]
        rfl

/-- Every serial run of the processor that comes to rest is one of the atomic machine. -/
theorem serial_refines (hanswers : Answers handlers calls abs C R) (hrest : ∀ u r, R u r → u.AtRest) (hu : R u r)
    {fs : List (Event κ π)} (hfs : Serial handlers calls u fs) (hv : exec (step handlers calls) u fs = some v)
    (hrestv : v.AtRest)
    (hC : StepsMeet abs C r (fs.filterMap Event.external)) (hr : exec abs r (fs.filterMap Event.external) = some r') :
    R v r' := by
  obtain ⟨gs, w, hw, hgs, hsame, hR⟩ := exists_serial hanswers hrest hu hC hr
  obtain rfl := serial_unique hfs hgs hv hw hrestv (hrest w r' hR) hsame.symm
  exact hR

end Cpu

end Interruptible
