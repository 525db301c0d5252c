import Mathlib.Data.List.Basic
import Mathlib.Data.List.Nodup
import Mathlib.Logic.Function.Basic

/-!
# Linked nodes

Nodes joined by a `next` and a `prev` pointer. `Forward next p ps` says that following `next` from
`p` visits exactly the nodes `ps` and ends; `Backward prev p ps` says that `prev` leads back along
the same nodes. The rules cover appending a node at the end, unlinking a node and the two loops
programs run over such a list, walking to the end and searching.
-/

namespace LinkedNodes

variable {α : Type*}

def Forward (next : α → Option α) : α → List α → Prop
  | p, [] => next p = none
  | p, q :: ps => next p = some q ∧ Forward next q ps

def Backward (prev : α → Option α) : α → List α → Prop
  | _, [] => True
  | p, q :: ps => prev q = some p ∧ Backward prev q ps

def lastOf (next : α → Option α) : ℕ → α → α
  | 0, p => p
  | n + 1, p => match next p with
    | none => p
    | some q => lastOf next n q

def findFrom (next : α → Option α) (found : α → Bool) : ℕ → α → Option α
  | 0, _ => none
  | n + 1, p => if found p then some p else (next p).bind (findFrom next found n)

variable {next next' prev prev' : α → Option α}

theorem Forward.congr {p : α} {ps : List α} (h : Forward next p ps)
    (heq : ∀ q ∈ p :: ps, next' q = next q) : Forward next' p ps := by
  induction ps generalizing p with
  | nil =>
      rw [Forward, heq p List.mem_cons_self]
      exact h
  | cons q ps ih =>
      refine ⟨(heq p List.mem_cons_self).trans h.1, ih h.2 fun r hr => ?_⟩
      exact heq r (List.mem_cons_of_mem _ hr)

/-- The nodes visited are determined by `next`. -/
theorem Forward.unique {p : α} {ps qs : List α} (h : Forward next p ps) (h' : Forward next p qs) :
    ps = qs := by
  induction ps generalizing p qs with
  | nil =>
      cases qs with
      | nil => rfl
      | cons q qs => exact absurd (h.symm.trans h'.1) (Option.some_ne_none q).symm
  | cons a ps ih =>
      cases qs with
      | nil => exact absurd (h.1.symm.trans h') (Option.some_ne_none a)
      | cons q qs =>
          obtain rfl := Option.some.inj (h.1.symm.trans h'.1)
          rw [ih h.2 h'.2]

/-- Following `next` from a visited node visits the nodes behind it. -/
theorem Forward.drop {p q : α} {ps qs : List α} (h : Forward next p (ps ++ q :: qs)) :
    Forward next q qs := by
  induction ps generalizing p with
  | nil => exact h.2
  | cons r ps ih => exact ih h.2

/-- A walk that ends visits no node twice. -/
theorem Forward.nodup {p : α} {ps : List α} (h : Forward next p ps) : (p :: ps).Nodup := by
  induction ps generalizing p with
  | nil => exact List.nodup_singleton p
  | cons q ps ih =>
      refine List.nodup_cons.mpr ⟨fun hp => ?_, ih h.2⟩
      obtain ⟨xs, ys, hsplit⟩ := List.append_of_mem hp
      have hloop : Forward next p (xs ++ p :: ys) := hsplit ▸ h
      have hys : ys = q :: ps := hloop.drop.unique h
      have hlen := congrArg List.length hsplit
      simp only [List.length_append, List.length_cons, hys] at hlen
      omega

theorem Forward.mem_of_closed {S : α → Prop} (hclosed : ∀ q, S q → ∀ r, next q = some r → S r)
    {p : α} {ps : List α} (h : Forward next p ps) (hp : S p) : ∀ q ∈ p :: ps, S q := by
  induction ps generalizing p with
  | nil =>
      intro q hq
      rw [List.mem_singleton.mp hq]
      exact hp
  | cons r ps ih =>
      intro q hq
      rcases List.mem_cons.mp hq with rfl | hq
      · exact hp
      · exact ih h.2 (hclosed p hp r h.1) q hq

/-- Changing what follows `a` does not take `a` off a walk. -/
theorem Forward.mem_of_agree {a p : α} {ps ps' : List α} (h : Forward next p ps) (ha : a ∈ p :: ps)
    (hother : ∀ q, q ≠ a → next' q = next q) (h' : Forward next' p ps') : a ∈ p :: ps' := by
  induction ps generalizing p ps' with
  | nil =>
      rw [List.mem_singleton.mp ha]
      exact List.mem_cons_self
  | cons q ps ih =>
      rcases eq_or_ne p a with rfl | hp
      · exact List.mem_cons_self
      · have haq : a ∈ q :: ps := (List.mem_cons.mp ha).resolve_left hp.symm
        have hnext : next' p = some q := (hother p hp).trans h.1
        cases ps' with
        | nil => exact absurd (hnext.symm.trans h') (Option.some_ne_none q)
        | cons r ps' =>
            obtain rfl := Option.some.inj (hnext.symm.trans h'.1)
            exact List.mem_cons_of_mem _ (ih h.2 haq h'.2)

/-- Following `next` from `p` ends at `r`. -/
def Reaches (next : α → Option α) (p r : α) : Prop := ∃ ps, Forward next p ps ∧ ps.getLastD p = r

theorem Reaches.cons {p q r : α} (hq : next p = some q) (h : Reaches next q r) : Reaches next p r := by
  obtain ⟨ps, hps, hlast⟩ := h
  exact ⟨q :: ps, ⟨hq, hps⟩, by rw [List.getLastD_cons, hlast]⟩

theorem Reaches.congr {p r : α} (h : Reaches next p r) (heq : ∀ q, next' q = next q) :
    Reaches next' p r := by
  obtain ⟨ps, hps, hlast⟩ := h
  exact ⟨ps, hps.congr fun q _ => heq q, hlast⟩

/-- Nodes still reach the end `r` when `a` is pointed at a node from which `r` is reached without `a`. -/
theorem Reaches.redirect {a c r : α} {cs : List α} (hc : Forward next c cs) (hlast : cs.getLastD c = r)
    (ha : a ∉ c :: cs) (hself : next' a = some c) (hother : ∀ q, q ≠ a → next' q = next q) {p : α}
    (h : Reaches next p r) : Reaches next' p r := by
  have hreach : Reaches next' c r :=
    ⟨cs, hc.congr fun q hq => hother q fun he => ha (he ▸ hq), hlast⟩
  obtain ⟨ps, hps, hr⟩ := h
  induction ps generalizing p with
  | nil =>
      rcases eq_or_ne p a with rfl | hp
      · exact hreach.cons hself
      · exact ⟨[], (hother p hp).trans hps, hr⟩
  | cons q ps ih =>
      rcases eq_or_ne p a with rfl | hp
      · exact hreach.cons hself
      · rw [List.getLastD_cons] at hr
        exact (ih hps.2 hr).cons ((hother p hp).trans hps.1)

theorem Backward.congr {p : α} {ps : List α} (h : Backward prev p ps)
    (heq : ∀ q ∈ ps, prev' q = prev q) : Backward prev' p ps := by
  induction ps generalizing p with
  | nil => trivial
  | cons q ps ih =>
      refine ⟨(heq q List.mem_cons_self).trans h.1, ih h.2 fun r hr => ?_⟩
      exact heq r (List.mem_cons_of_mem _ hr)

theorem Forward.snoc {p r : α} {ps : List α} (h : Forward next p ps) (hnd : (p :: ps).Nodup)
    (hlast : next' (ps.getLastD p) = some r) (hend : next' r = none)
    (hother : ∀ q ∈ p :: ps, q ≠ ps.getLastD p → next' q = next q) :
    Forward next' p (ps ++ [r]) := by
  induction ps generalizing p with
  | nil => exact ⟨hlast, hend⟩
  | cons q ps ih =>
      rw [List.getLastD_cons] at hlast hother
      have hp : p ≠ ps.getLastD q := by
        intro he
        exact (List.nodup_cons.mp hnd).1 (he ▸ List.getLastD_mem_cons)
      refine ⟨(hother p List.mem_cons_self hp).trans h.1, ?_⟩
      exact ih h.2 (List.nodup_cons.mp hnd).2 hlast fun s hs => hother s (List.mem_cons_of_mem _ hs)

theorem Backward.snoc {p r : α} {ps : List α} (h : Backward prev p ps)
    (hr : prev' r = some (ps.getLastD p)) (hother : ∀ q ∈ ps, prev' q = prev q) :
    Backward prev' p (ps ++ [r]) := by
  induction ps generalizing p with
  | nil => exact ⟨hr, trivial⟩
  | cons q ps ih =>
      rw [List.getLastD_cons] at hr
      refine ⟨(hother q List.mem_cons_self).trans h.1, ih h.2 hr fun s hs => ?_⟩
      exact hother s (List.mem_cons_of_mem _ hs)

/-- A node put in front of the nodes that followed `p`. -/
theorem Forward.push {p a : α} {ps : List α} (h : Forward next p ps) (hp : next' p = some a) (ha : next' a = next p)
    (hother : ∀ q ∈ ps, next' q = next q) : Forward next' p (a :: ps) := by
  refine ⟨hp, ?_⟩
  cases ps with
  | nil => exact ha.trans h
  | cons q qs => exact ⟨ha.trans h.1, h.2.congr hother⟩

/-- Pointing the node before `a` past it removes exactly `a`. -/
theorem Forward.unlink {p a : α} {xs ys : List α} (h : Forward next p (xs ++ a :: ys))
    (hnd : (p :: (xs ++ a :: ys)).Nodup) (hbefore : next' (xs.getLastD p) = next a)
    (hother : ∀ q ∈ p :: (xs ++ ys), q ≠ xs.getLastD p → next' q = next q) :
    Forward next' p (xs ++ ys) := by
  obtain ⟨hp, hnd'⟩ := List.nodup_cons.mp hnd
  induction xs generalizing p with
  | nil =>
      obtain ⟨-, ha⟩ := h
      cases ys with
      | nil => exact hbefore.trans ha
      | cons y ys =>
          refine ⟨hbefore.trans ha.1, ha.2.congr fun q hq => ?_⟩
          have hqp : q ≠ p := fun he => hp (he ▸ List.mem_cons_of_mem _ hq)
          exact hother q (List.mem_cons_of_mem _ hq) hqp
  | cons x xs ih =>
      obtain ⟨hx, hnd''⟩ := List.nodup_cons.mp hnd'
      rw [List.getLastD_cons] at hbefore hother
      have hlast : xs.getLastD x ∈ x :: xs ++ a :: ys :=
        List.mem_append_left _ List.getLastD_mem_cons
      refine ⟨(hother p List.mem_cons_self fun he => hp (he ▸ hlast)).trans h.1, ?_⟩
      exact ih h.2 hnd' hbefore (fun q hq => hother q (List.mem_cons_of_mem _ hq)) hx hnd''

theorem Forward.next_mid {p a : α} {xs ys : List α} (h : Forward next p (xs ++ a :: ys)) :
    next a = ys.head? := by
  induction xs generalizing p with
  | nil =>
      cases ys with
      | nil => exact h.2
      | cons y ys => exact h.2.1
  | cons x xs ih => exact ih h.2

theorem Backward.prev_mid {p a : α} {xs ys : List α} (h : Backward prev p (xs ++ a :: ys)) :
    prev a = some (xs.getLastD p) := by
  induction xs generalizing p with
  | nil => exact h.1
  | cons x xs ih =>
      rw [List.getLastD_cons]
      exact ih h.2

theorem Backward.unlink {p a : α} {xs ys : List α} (h : Backward prev p (xs ++ a :: ys))
    (hnd : (xs ++ a :: ys).Nodup) (hafter : ∀ y, ys.head? = some y → prev' y = prev a)
    (hother : ∀ q ∈ xs ++ ys, ys.head? ≠ some q → prev' q = prev q) :
    Backward prev' p (xs ++ ys) := by
  induction xs generalizing p with
  | nil =>
      obtain ⟨hap, ha⟩ := h
      cases ys with
      | nil => trivial
      | cons y ys =>
          refine ⟨(hafter y rfl).trans hap, ha.2.congr fun q hq => ?_⟩
          have hy : y ∉ ys := (List.nodup_cons.mp (List.nodup_cons.mp hnd).2).1
          exact hother q (List.mem_cons_of_mem _ hq) fun he => hy (Option.some.inj he ▸ hq)
  | cons x xs ih =>
      obtain ⟨hx, hnd'⟩ := List.nodup_cons.mp hnd
      refine ⟨(hother x List.mem_cons_self fun he => ?_).trans h.1,
        ih h.2 hnd' fun q hq => hother q (List.mem_cons_of_mem _ hq)⟩
      cases ys with
      | nil => cases he
      | cons y ys =>
          cases he
          exact hx (List.mem_append_right _ (List.mem_cons_of_mem _ List.mem_cons_self))

theorem lastOf_eq {p : α} {ps : List α} (h : Forward next p ps) {fuel : ℕ}
    (hf : ps.length ≤ fuel) : lastOf next fuel p = ps.getLastD p := by
  induction fuel generalizing p ps with
  | zero =>
      obtain rfl := List.length_eq_zero_iff.mp (Nat.le_zero.mp hf)
      rfl
  | succ n ih =>
      cases ps with
      | nil =>
          rw [lastOf, show next p = none from h]
          rfl
      | cons q ps =>
          rw [lastOf, h.1, List.getLastD_cons]
          exact ih h.2 (Nat.le_of_succ_le_succ hf)

theorem findFrom_eq {p : α} {ps : List α} (h : Forward next p ps) (found : α → Bool) {fuel : ℕ}
    (hf : ps.length < fuel) : findFrom next found fuel p = (p :: ps).find? found := by
  induction fuel generalizing p ps with
  | zero => exact absurd hf (Nat.not_lt_zero _)
  | succ n ih =>
      rw [findFrom, List.find?_cons]
      cases hp : found p with
      | true => rfl
      | false =>
          cases ps with
          | nil =>
              rw [show next p = none from h]
              rfl
          | cons q ps =>
              rw [h.1]
              exact ih h.2 (Nat.lt_of_succ_lt_succ hf)

theorem findFrom_eq_none {p : α} {ps : List α} (h : Forward next p ps) {found : α → Bool}
    (hnot : ∀ q ∈ p :: ps, found q = false) (fuel : ℕ) : findFrom next found fuel p = none := by
  induction fuel generalizing p ps with
  | zero => rfl
  | succ n ih =>
      rw [findFrom, hnot p List.mem_cons_self]
      cases ps with
      | nil =>
          rw [show next p = none from h]
          rfl
      | cons q ps =>
          rw [h.1]
          exact ih h.2 fun r hr => hnot r (List.mem_cons_of_mem _ hr)

end LinkedNodes
