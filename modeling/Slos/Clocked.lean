import Mathlib.Data.List.Basic
import Mathlib.Order.Basic

/-!
# Clocked machines

A synchronous machine takes one step at every clock edge. `run` gives the state after a list of inputs, `trace`
what is seen at its edges. A queue that gains at an edge what is fed to it and loses what is taken from it
passes on what it is fed in order, and a bounded one accepts only what it has a place for.
-/

namespace Clocked

variable {σ ι α : Type*} (step : σ → ι → σ)

def run (s : σ) (is : List ι) : σ := is.foldl step s

/-- What `out` sees at the edges. -/
def trace (out : σ → ι → List α) : σ → List ι → List α
  | _, [] => []
  | s, i :: is => out s i ++ trace out (step s i) is

@[simp] theorem run_nil (s : σ) : run step s [] = s := rfl

@[simp] theorem run_cons (s : σ) (i : ι) (is : List ι) : run step s (i :: is) = run step (step s i) is := rfl

@[simp] theorem trace_nil (out : σ → ι → List α) (s : σ) : trace step out s [] = [] := rfl

@[simp] theorem trace_cons (out : σ → ι → List α) (s : σ) (i : ι) (is : List ι) :
    trace step out s (i :: is) = out s i ++ trace step out (step s i) is := rfl

theorem run_append (s : σ) (is js : List ι) : run step s (is ++ js) = run step (run step s is) js := by
  simp [run]

theorem trace_append (out : σ → ι → List α) (s : σ) (is js : List ι) :
    trace step out s (is ++ js) = trace step out s is ++ trace step out (run step s is) js := by
  induction is generalizing s with
  | nil => rfl
  | cons i is ih => simp [ih]

variable {step}

theorem run_invariant {Inv : σ → Prop} (hstep : ∀ s i, Inv s → Inv (step s i)) {s : σ} (hs : Inv s) (is : List ι) :
    Inv (run step s is) := by
  induction is generalizing s with
  | nil => exact hs
  | cons i is ih => exact ih (hstep s i hs)

/-- If at every edge the contents and what is fed make up what is taken and the contents afterwards, the same
holds of a whole run. -/
theorem trace_conserved {Inv : σ → Prop} {fed taken : σ → ι → List α} (contents : σ → List α)
    (hstep : ∀ s i, Inv s → Inv (step s i))
    (hedge : ∀ s i, Inv s → contents s ++ fed s i = taken s i ++ contents (step s i)) {s : σ} (hs : Inv s)
    (is : List ι) :
    contents s ++ trace step fed s is = trace step taken s is ++ contents (run step s is) := by
  induction is generalizing s with
  | nil => simp
  | cons i is ih =>
      calc contents s ++ (fed s i ++ trace step fed (step s i) is)
        _ = taken s i ++ (contents (step s i) ++ trace step fed (step s i) is) := by
          rw [← List.append_assoc, hedge s i hs, List.append_assoc]
        _ = taken s i ++ trace step taken (step s i) is ++ contents (run step (step s i) is) := by
          rw [ih (hstep s i hs), List.append_assoc]

/-- Each item that is fed counts for `n` of those that are taken. -/
theorem trace_length {β : Type*} {fed : σ → ι → List α} {taken : σ → ι → List β} {n : ℕ} (count : σ → ℕ)
    (hedge : ∀ s i, count s + n * (fed s i).length = (taken s i).length + count (step s i)) (s : σ) (is : List ι) :
    count s + n * (trace step fed s is).length = (trace step taken s is).length + count (run step s is) := by
  induction is generalizing s with
  | nil => simp
  | cons i is ih =>
      have hfirst := hedge s i
      have hrest := ih (step s i)
      simp only [trace_cons, run_cons, List.length_append, Nat.mul_add]
      omega

theorem trace_map {β : Type*} (f : α → β) (out : σ → ι → List α) (s : σ) (is : List ι) :
    trace step (fun s i => (out s i).map f) s is = (trace step out s is).map f := by
  induction is generalizing s with
  | nil => rfl
  | cons i is ih => simp [ih]

theorem trace_flatMap {β : Type*} (f : α → List β) (out : σ → ι → List α) (s : σ) (is : List ι) :
    trace step (fun s i => (out s i).flatMap f) s is = (trace step out s is).flatMap f := by
  induction is generalizing s with
  | nil => rfl
  | cons i is ih => simp [ih]

theorem trace_invariant {Inv : σ → List α → Prop} {out : σ → ι → List α}
    (hstep : ∀ s as i, Inv s as → Inv (step s i) (as ++ out s i)) {s : σ} (as : List α) (hs : Inv s as)
    (is : List ι) : Inv (run step s is) (as ++ trace step out s is) := by
  induction is generalizing s as with
  | nil => simpa using hs
  | cons i is ih =>
      rw [run_cons, trace_cons, ← List.append_assoc]
      exact ih _ (hstep s as i hs)

/-- Folding over what is seen at the edges. -/
theorem trace_foldl {β : Type*} {Inv : σ → Prop} {f : β → α → β} {out : σ → ι → List α} (g : σ → β)
    (hstep : ∀ s i, Inv s → Inv (step s i)) (hedge : ∀ s i, Inv s → g (step s i) = (out s i).foldl f (g s)) {s : σ}
    (hs : Inv s) (is : List ι) : g (run step s is) = (trace step out s is).foldl f (g s) := by
  induction is generalizing s with
  | nil => rfl
  | cons i is ih => rw [run_cons, trace_cons, List.foldl_append, ← hedge s i hs, ih (hstep s i hs)]

/-- A machine whose cost never grows and falls at every eager clock is done after more of them than the cost. -/
theorem run_done {Inv Done : σ → Prop} {quiet : ι → Prop} {eager : ι → Bool} (cost : σ → ℕ)
    (hstep : ∀ s i, Inv s → Inv (step s i)) (hdone : ∀ s i, Inv s → quiet i → Done s → Done (step s i))
    (hle : ∀ s i, Inv s → quiet i → cost (step s i) ≤ cost s)
    (hlt : ∀ s i, Inv s → quiet i → eager i = true → ¬ Done s → cost (step s i) < cost s) {s : σ} (hs : Inv s)
    {is : List ι} (hquiet : ∀ i ∈ is, quiet i) (hcost : cost s < is.countP eager) : Done (run step s is) := by
  have hkeep {s : σ} (hs : Inv s) (hd : Done s) {is : List ι} (hquiet : ∀ i ∈ is, quiet i) :
      Done (run step s is) := by
    induction is generalizing s with
    | nil => exact hd
    | cons i is ih =>
        obtain ⟨hi, his⟩ := List.forall_mem_cons.mp hquiet
        exact ih (hstep s i hs) (hdone s i hs hi hd) his
  induction is generalizing s with
  | nil => cases hcost
  | cons i is ih =>
      by_cases hd : Done s
      · exact hkeep hs hd hquiet
      · obtain ⟨hi, his⟩ := List.forall_mem_cons.mp hquiet
        apply ih (hstep s i hs) his
        rw [List.countP_cons] at hcost
        cases heager : eager i with
        | true =>
            have hfall := hlt s i hs hi heager hd
            rw [heager, if_pos rfl] at hcost
            omega
        | false =>
            have hsame := hle s i hs hi
            rw [heager, if_neg (by simp)] at hcost
            omega

section Feed

/-! A machine that feeds another one, whose state it holds. -/

variable {τ κ : Type*} {feeder : τ → κ → τ} {inner : τ → σ} {feed : τ → κ → ι}

theorem run_feed (h : ∀ t k, inner (feeder t k) = step (inner t) (feed t k)) (t : τ) (ks : List κ) :
    inner (run feeder t ks) = run step (inner t) (trace feeder (fun t k => [feed t k]) t ks) := by
  induction ks generalizing t with
  | nil => rfl
  | cons k ks ih => rw [run_cons, ih, h, trace_cons, List.singleton_append, run_cons]

theorem trace_feed (h : ∀ t k, inner (feeder t k) = step (inner t) (feed t k)) (out : σ → ι → List α) (t : τ)
    (ks : List κ) : trace step out (inner t) (trace feeder (fun t k => [feed t k]) t ks) =
      trace feeder (fun t k => out (inner t) (feed t k)) t ks := by
  induction ks generalizing t with
  | nil => rfl
  | cons k ks ih => rw [trace_cons, trace_cons, List.singleton_append, trace_cons, ← h, ih]

end Feed

section Queue

/-- What a bounded queue is offered at an edge and whether its oldest item is asked for. -/
structure Offer (α : Type*) where
  items : List α
  pop : Bool

variable (cap : ℕ) (q : List α) (c : Offer α)

/-- Offers are taken or refused as a whole, on what is held before the edge. -/
def accepted : List α := if q.length < cap then c.items else []

def popped : List α := if c.pop then q.take 1 else []

def next : List α := (if c.pop then q.drop 1 else q) ++ accepted cap q c

theorem popped_append_next : popped q c ++ next cap q c = q ++ accepted cap q c := by
  unfold popped next
  cases c.pop with
  | false => simp
  | true => simp only [if_true, ← List.append_assoc, List.take_append_drop]

end Queue

end Clocked
