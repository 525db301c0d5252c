import Mathlib.Data.List.Basic

/-!
# Runs of partial step machines

A machine is a partial step function `step : σ → ι → Option σ`; a label carries every choice the
environment makes at that step. `exec` takes a list of labels, `Always P` asks `P` of every state
a run passes through, and `StepsMeet C` asks `C` of every state and label at which a step is taken.
The rules turn facts about one step into facts about runs.
-/

namespace Machine

variable {σ ι : Type*} (step : σ → ι → Option σ)

def exec : σ → List ι → Option σ
  | s, [] => some s
  | s, i :: is => (step s i).bind fun t => exec t is

def Always (P : σ → Prop) : σ → List ι → Prop
  | s, [] => P s
  | s, i :: is => P s ∧ ∀ t, step s i = some t → Always P t is

def StepsMeet (C : σ → ι → Prop) : σ → List ι → Prop
  | _, [] => True
  | s, i :: is => ∀ t, step s i = some t → C s i ∧ StepsMeet C t is

@[simp] theorem exec_nil (s : σ) : exec step s [] = some s := rfl

@[simp] theorem exec_cons (s : σ) (i : ι) (is : List ι) :
    exec step s (i :: is) = (step s i).bind fun t => exec step t is := rfl

theorem exec_append (s : σ) (is js : List ι) :
    exec step s (is ++ js) = (exec step s is).bind fun t => exec step t js := by
  induction is generalizing s with
  | nil => rfl
  | cons i is ih =>
      simp only [List.cons_append, exec_cons, Option.bind_assoc, ih]

/-- `C` of every state and label a run comes to, also where the step has no result. -/
def Attempts (C : σ → ι → Prop) : σ → List ι → Prop
  | _, [] => True
  | s, i :: is => C s i ∧ ∀ t, step s i = some t → Attempts C t is

def decidableStepsMeet {C : σ → ι → Prop} [∀ s i, Decidable (C s i)] :
    ∀ s is, Decidable (StepsMeet step C s is)
  | _, [] => isTrue trivial
  | s, i :: is => match h : step s i with
    | none => isTrue fun t ht => by rw [h] at ht; cases ht
    | some t =>
        have : Decidable (StepsMeet step C t is) := decidableStepsMeet t is
        decidable_of_iff (C s i ∧ StepsMeet step C t is)
          ⟨fun hc u hu => Option.some.inj (h.symm.trans hu) ▸ hc, fun hc => hc t h⟩

instance {C : σ → ι → Prop} [∀ s i, Decidable (C s i)] (s : σ) (is : List ι) :
    Decidable (StepsMeet step C s is) := decidableStepsMeet step s is

variable {step}

theorem exec_cons_eq_some {s t : σ} {i : ι} {is : List ι} (h : exec step s (i :: is) = some t) :
    ∃ u, step s i = some u ∧ exec step u is = some t := by
  simpa only [exec_cons, Option.bind_eq_some_iff] using h

/-- A property kept by every defined step holds in every state a run reaches. -/
theorem exec_invariant {Inv : σ → Prop}
    (hstep : ∀ s i t, Inv s → step s i = some t → Inv t) {s t : σ} {is : List ι}
    (hs : Inv s) (h : exec step s is = some t) : Inv t := by
  induction is generalizing s with
  | nil => cases h; exact hs
  | cons i is ih =>
      obtain ⟨u, hu, ht⟩ := exec_cons_eq_some h
      exact ih (hstep s i u hs hu) ht

theorem Always.start {P : σ → Prop} {s : σ} {is : List ι} (h : Always step P s is) : P s := by
  cases is with
  | nil => exact h
  | cons i is => exact h.1

theorem Always.mono {P Q : σ → Prop} (hPQ : ∀ s, P s → Q s) {s : σ} {is : List ι}
    (h : Always step P s is) : Always step Q s is := by
  induction is generalizing s with
  | nil => exact hPQ s h
  | cons i is ih => exact ⟨hPQ s h.1, fun t ht => ih (h.2 t ht)⟩

theorem StepsMeet.mono {C D : σ → ι → Prop} (hCD : ∀ s i, C s i → D s i) {s : σ} {is : List ι}
    (h : StepsMeet step C s is) : StepsMeet step D s is := by
  induction is generalizing s with
  | nil => trivial
  | cons i is ih => exact fun t ht => ⟨hCD s i (h t ht).1, ih (h t ht).2⟩

/-- The condition holds where a run has come to. -/
theorem StepsMeet.of_exec {C : σ → ι → Prop} {s t u : σ} {i : ι} {is js : List ι}
    (h : StepsMeet step C s (is ++ i :: js)) (hrun : exec step s is = some t) (hstep : step t i = some u) : C t i := by
  induction is generalizing s with
  | nil =>
      cases hrun
      exact (h u hstep).1
  | cons j is ih =>
      obtain ⟨v, hv, ht⟩ := exec_cons_eq_some hrun
      exact ih (h v hv).2 ht

/-- The invariant and what is left of the condition, where a part of a run has come to. -/
theorem StepsMeet.after (Inv : σ → Prop) {C : σ → ι → Prop}
    (hstep : ∀ s i t, Inv s → C s i → step s i = some t → Inv t) {s t : σ} {is js : List ι} (hs : Inv s)
    (h : StepsMeet step C s (is ++ js)) (hrun : exec step s is = some t) : Inv t ∧ StepsMeet step C t js := by
  induction is generalizing s with
  | nil =>
      cases hrun
      exact ⟨hs, h⟩
  | cons i is ih =>
      obtain ⟨u, hu, ht⟩ := exec_cons_eq_some hrun
      obtain ⟨hc, hrest⟩ := h u hu
      exact ih (hstep s i u hs hc hu) hrest ht

/-- `Always P` speaks of exactly the states reached by the prefixes of the run. -/
theorem always_iff_exec {P : σ → Prop} {s : σ} {is : List ι} :
    Always step P s is ↔ ∀ js, js <+: is → ∀ t, exec step s js = some t → P t := by
  induction is generalizing s with
  | nil =>
      constructor
      · intro h js hjs t ht
        obtain rfl := List.prefix_nil.mp hjs
        cases ht
        exact h
      · intro h
        exact h [] List.prefix_rfl s rfl
  | cons i is ih =>
      constructor
      · intro h js hjs t ht
        cases js with
        | nil => cases ht; exact h.1
        | cons j js =>
            obtain ⟨rfl, hjs'⟩ := List.cons_prefix_cons.mp hjs
            obtain ⟨u, hu, hut⟩ := exec_cons_eq_some ht
            exact ih.mp (h.2 u hu) js hjs' t hut
      · intro h
        refine ⟨h [] List.nil_prefix s rfl, fun u hu => ih.mpr ?_⟩
        intro js hjs t ht
        refine h (i :: js) (List.cons_prefix_cons.mpr ⟨rfl, hjs⟩) t ?_
        simpa only [exec_cons, hu, Option.bind_some] using ht

theorem always_append {P : σ → Prop} {s : σ} {is js : List ι} : Always step P s (is ++ js) ↔
    Always step P s is ∧ ∀ t, exec step s is = some t → Always step P t js := by
  induction is generalizing s with
  | nil =>
      constructor
      · intro h
        refine ⟨h.start, fun t ht => ?_⟩
        cases ht
        exact h
      · rintro ⟨-, h⟩
        exact h s rfl
  | cons i is ih =>
      simp only [List.cons_append, Always, exec_cons, Option.bind_eq_some_iff]
      constructor
      · rintro ⟨hs, h⟩
        refine ⟨⟨hs, fun t ht => (ih.mp (h t ht)).1⟩, ?_⟩
        rintro u ⟨t, ht, hu⟩
        exact (ih.mp (h t ht)).2 u hu
      · rintro ⟨⟨hs, h⟩, hrest⟩
        exact ⟨hs, fun t ht => ih.mpr ⟨h t ht, fun u hu => hrest u ⟨t, ht, hu⟩⟩⟩

theorem StepsMeet.and {C D : σ → ι → Prop} {s : σ} {is : List ι} (hC : StepsMeet step C s is)
    (hD : StepsMeet step D s is) : StepsMeet step (fun s i => C s i ∧ D s i) s is := by
  induction is generalizing s with
  | nil => trivial
  | cons i is ih => exact fun t ht => ⟨⟨(hC t ht).1, (hD t ht).1⟩, ih (hC t ht).2 (hD t ht).2⟩

/-- Steps that meet the condition keep the invariant, so the property it implies holds in every
state of a run whose steps all meet the condition. -/
theorem always_of_stepsMeet (Inv : σ → Prop) {P : σ → Prop} {C : σ → ι → Prop} (hP : ∀ s, Inv s → P s)
    (hstep : ∀ s i t, Inv s → C s i → step s i = some t → Inv t) {s : σ} {is : List ι}
    (hs : Inv s) (hC : StepsMeet step C s is) : Always step P s is := by
  induction is generalizing s with
  | nil => exact hP s hs
  | cons i is ih =>
      refine ⟨hP s hs, fun t ht => ?_⟩
      exact ih (hstep s i t hs (hC t ht).1 ht) (hC t ht).2

theorem always_of_step (Inv : σ → Prop) {P : σ → Prop} (hP : ∀ s, Inv s → P s)
    (hstep : ∀ s i t, Inv s → step s i = some t → Inv t) {s : σ} {is : List ι} (hs : Inv s) :
    Always step P s is := by
  induction is generalizing s with
  | nil => exact hP s hs
  | cons i is ih => exact ⟨hP s hs, fun t ht => ih (hstep s i t hs ht)⟩

/-- What a condition gives at a single step from the invariant holds at every step of the run. -/
theorem stepsMeet_of_stepsMeet (Inv : σ → Prop) {C D : σ → ι → Prop}
    (hstep : ∀ s i t, Inv s → C s i → step s i = some t → Inv t)
    (hD : ∀ s i t, Inv s → C s i → step s i = some t → D s i) {s : σ} {is : List ι}
    (hs : Inv s) (hC : StepsMeet step C s is) : StepsMeet step D s is := by
  induction is generalizing s with
  | nil => trivial
  | cons i is ih =>
      intro t ht
      obtain ⟨hc, hC'⟩ := hC t ht
      exact ⟨hD s i t hs hc ht, ih (hstep s i t hs hc ht) hC'⟩

/-- Conditions that an invariant makes the same are the same along runs. -/
theorem attempts_congr (Inv : σ → Prop) {C D : σ → ι → Prop} (hiff : ∀ s i, Inv s → (C s i ↔ D s i))
    (hstep : ∀ s i t, Inv s → step s i = some t → Inv t) {s : σ} {is : List ι} (hs : Inv s) :
    Attempts step C s is ↔ Attempts step D s is := by
  induction is generalizing s with
  | nil => exact Iff.rfl
  | cons i is ih =>
      constructor
      · rintro ⟨hc, hrest⟩
        exact ⟨(hiff s i hs).mp hc, fun t ht => (ih (hstep s i t hs ht)).mp (hrest t ht)⟩
      · rintro ⟨hd, hrest⟩
        exact ⟨(hiff s i hs).mpr hd, fun t ht => (ih (hstep s i t hs ht)).mpr (hrest t ht)⟩

/-- When a step that misses the condition always breaks the property, the condition is exact. -/
theorem always_iff_stepsMeet (Inv : σ → Prop) {P : σ → Prop} {C : σ → ι → Prop} (hP : ∀ s, Inv s → P s)
    (hstep : ∀ s i t, Inv s → C s i → step s i = some t → Inv t)
    (hmiss : ∀ s i t, Inv s → step s i = some t → P t → C s i) {s : σ} {is : List ι}
    (hs : Inv s) : Always step P s is ↔ StepsMeet step C s is := by
  refine ⟨fun h => ?_, always_of_stepsMeet Inv hP hstep hs⟩
  induction is generalizing s with
  | nil => trivial
  | cons i is ih =>
      intro t ht
      have hc : C s i := hmiss s i t hs ht (h.2 t ht).start
      exact ⟨hc, ih (hstep s i t hs hc ht) (h.2 t ht)⟩

end Machine
