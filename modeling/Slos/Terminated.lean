import Mathlib.Data.List.Basic
import Mathlib.Data.Finset.Card
import Mathlib.Data.Finset.Range
import Mathlib.Logic.Function.Iterate

/-!
# Terminated sequences

A sequence of elements in a memory that has no length stored with it: from an address on, `next` leads from element to
element, up to the first one that is `stop`. `collect` is the loop that reads such a sequence. What is held is determined by
the memory, and no address comes up twice before the end.
-/

namespace Terminated

variable {α β : Type*}

/-- From `p` on the memory holds the elements `bs`, none of them `stop`, and `stop` behind them. -/
def Holds (next : α → α) (stop : β) (m : α → β) : α → List β → Prop
  | p, [] => m p = stop
  | p, b :: bs => m p = b ∧ b ≠ stop ∧ Holds next stop m (next p) bs

/-- The elements from `p` on, up to the first `stop`. -/
def collect [DecidableEq β] (next : α → α) (stop : β) (m : α → β) : ℕ → α → Option (List β)
  | 0, _ => none
  | n + 1, p => if m p = stop then some [] else (collect next stop m n (next p)).map (m p :: ·)

variable {next : α → α} {stop : β} {m m' : α → β} {p : α} {bs cs : List β}

theorem Holds.unique (h : Holds next stop m p bs) (h' : Holds next stop m p cs) : bs = cs := by
  induction bs generalizing p cs with
  | nil =>
      cases cs with
      | nil => rfl
      | cons c cs => exact absurd (h'.1.symm.trans h) h'.2.1
  | cons b bs ih =>
      cases cs with
      | nil => exact absurd (h.1.symm.trans h') h.2.1
      | cons c cs =>
          obtain rfl := h.1.symm.trans h'.1
          rw [ih h.2.2 h'.2.2]

theorem Holds.congr (h : Holds next stop m p bs) (heq : ∀ i ≤ bs.length, m' (next^[i] p) = m (next^[i] p)) :
    Holds next stop m' p bs := by
  induction bs generalizing p with
  | nil => exact (heq 0 (Nat.zero_le _)).trans h
  | cons b bs ih =>
      refine ⟨(heq 0 (Nat.zero_le _)).trans h.1, h.2.1, ih h.2.2 fun i hi => ?_⟩
      exact heq (i + 1) (Nat.succ_le_succ hi)

/-- The memory holds exactly the elements given and the end mark. -/
theorem holds_iff : Holds next stop m p bs ↔ stop ∉ bs ∧ ∀ i ≤ bs.length, m (next^[i] p) = (bs ++ [stop]).getD i stop := by
  induction bs generalizing p with
  | nil =>
      constructor
      · intro h
        refine ⟨List.not_mem_nil, fun i hi => ?_⟩
        obtain rfl := Nat.le_zero.mp hi
        exact h
      · intro h
        exact h.2 0 (Nat.zero_le _)
  | cons b bs ih =>
      rw [Holds, ih, List.mem_cons, not_or]
      constructor
      · rintro ⟨hb, hne, hnot, hrest⟩
        refine ⟨⟨hne.symm, hnot⟩, fun i hi => ?_⟩
        cases i with
        | zero => exact hb
        | succ i => exact hrest i (Nat.le_of_succ_le_succ hi)
      · rintro ⟨⟨hne, hnot⟩, hrest⟩
        exact ⟨hrest 0 (Nat.zero_le _), Ne.symm hne, hnot, fun i hi => hrest (i + 1) (Nat.succ_le_succ hi)⟩

theorem Holds.getD (h : Holds next stop m p bs) {i : ℕ} (hi : i ≤ bs.length) :
    m (next^[i] p) = (bs ++ [stop]).getD i stop := (holds_iff.mp h).2 i hi

/-- The end of what is held, seen from one of its elements. -/
theorem Holds.drop (h : Holds next stop m p bs) {i : ℕ} (hi : i ≤ bs.length) :
    Holds next stop m (next^[i] p) (bs.drop i) := by
  induction i generalizing p bs with
  | zero => exact h
  | succ i ih =>
      cases bs with
      | nil => cases hi
      | cons b bs => exact ih h.2.2 (Nat.le_of_succ_le_succ hi)

/-- No address comes up twice. -/
theorem Holds.injective (h : Holds next stop m p bs) {i j : ℕ} (hi : i ≤ bs.length) (hj : j ≤ bs.length)
    (hij : next^[i] p = next^[j] p) : i = j := by
  have hdrop := (h.drop hi).unique (hij ▸ h.drop hj)
  have hlen := congrArg List.length hdrop
  rw [List.length_drop, List.length_drop] at hlen
  omega

/-- Among `N` addresses there is room for fewer than `N` elements. -/
theorem Holds.length_lt {next : ℕ → ℕ} {m : ℕ → β} {p N : ℕ} (h : Holds next stop m p bs) (hp : p < N)
    (hnext : ∀ q, next q < N) : bs.length < N := by
  have hmaps : Set.MapsTo (fun i => next^[i] p) (Finset.range (bs.length + 1)) (Finset.range N) := by
    intro i _
    apply Finset.mem_coe.mpr
    rw [Finset.mem_range]
    cases i with
    | zero => exact hp
    | succ i =>
        dsimp only
        rw [Function.iterate_succ_apply']
        exact hnext _
  have hinj : Set.InjOn (fun i => next^[i] p) (Finset.range (bs.length + 1)) := by
    intro i hi j hj hij
    exact h.injective (Nat.le_of_lt_succ (Finset.mem_range.mp hi)) (Nat.le_of_lt_succ (Finset.mem_range.mp hj)) hij
  have hcard := Finset.card_le_card_of_injOn _ hmaps hinj
  rwa [Finset.card_range, Finset.card_range] at hcard

theorem collect_eq [DecidableEq β] (h : Holds next stop m p bs) {n : ℕ} (hn : bs.length < n) :
    collect next stop m n p = some bs := by
  induction n generalizing p bs with
  | zero => cases hn
  | succ n ih =>
      cases bs with
      | nil => exact if_pos h
      | cons b bs =>
          obtain ⟨hb, hne, hrest⟩ := h
          rw [collect, if_neg (hb ▸ hne), ih hrest (Nat.lt_of_succ_lt_succ hn), hb]
          rfl

end Terminated
