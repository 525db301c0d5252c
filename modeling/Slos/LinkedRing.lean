import Mathlib.Data.List.Basic
import Mathlib.Data.List.Nodup
import Mathlib.Logic.Function.Basic

/-!
# Rings of linked nodes

Nodes joined both ways by a `next` and a `prev` pointer. `Linked next prev p ps` follows `next` from `p` through `ps`, with
each `prev` leading back; a ring with the first node `p` and the other nodes `ps` is `Linked next prev p (ps ++ [p])`. The rules cover
the insertion of a node before the first one and the loop that follows `next` until it is back.
-/

namespace LinkedRing

variable {α : Type*}

def Linked (next prev : α → Option α) : α → List α → Prop
  | _, [] => True
  | p, q :: ps => next p = some q ∧ prev q = some p ∧ Linked next prev q ps

/-- The nodes from `p` on that are visited until `next` is `first`. -/
def tour [DecidableEq α] (next : α → Option α) (first : α) : ℕ → α → Option (List α)
  | 0, _ => none
  | n + 1, p => (next p).bind fun q => if q = first then some [p] else (tour next first n q).map (p :: ·)

variable {next next' prev prev' : α → Option α} {p r : α} {ps : List α}

theorem linked_snoc : Linked next prev p (ps ++ [r]) ↔
    Linked next prev p ps ∧ next (ps.getLastD p) = some r ∧ prev r = some (ps.getLastD p) := by
  induction ps generalizing p with
  | nil =>
      constructor
      · rintro ⟨hnext, hprev, -⟩
        exact ⟨trivial, hnext, hprev⟩
      · rintro ⟨-, hnext, hprev⟩
        exact ⟨hnext, hprev, trivial⟩
  | cons q ps ih =>
      rw [List.cons_append, Linked, ih, List.getLastD_cons, Linked]
      tauto

theorem Linked.congr (h : Linked next prev p ps) (hnext : ∀ q ∈ p :: ps, q ≠ ps.getLastD p → next' q = next q)
    (hprev : ∀ q ∈ ps, prev' q = prev q) (hnd : (p :: ps).Nodup) : Linked next' prev' p ps := by
  induction ps generalizing p with
  | nil => trivial
  | cons q ps ih =>
      have hne : p ≠ ps.getLastD q := by
        intro he
        exact (List.nodup_cons.mp hnd).1 (he ▸ List.getLastD_mem_cons)
      rw [List.getLastD_cons] at hnext
      constructor
      · rw [hnext p List.mem_cons_self hne]
        exact h.1
      constructor
      · rw [hprev q List.mem_cons_self]
        exact h.2.1
      · exact ih h.2.2 (fun s hs => hnext s (List.mem_cons_of_mem _ hs)) (fun s hs => hprev s (List.mem_cons_of_mem _ hs))
          (List.nodup_cons.mp hnd).2

theorem Linked.out (h : Linked next prev p (ps ++ [r])) {t : α} (ht : t ∈ p :: ps) :
    ∃ u ∈ ps ++ [r], next t = some u ∧ prev u = some t := by
  induction ps generalizing p with
  | nil =>
      cases List.mem_singleton.mp ht
      exact ⟨r, List.mem_singleton_self r, h.1, h.2.1⟩
  | cons q ps ih =>
      rcases List.mem_cons.mp ht with rfl | ht
      · exact ⟨q, List.mem_cons_self, h.1, h.2.1⟩
      · obtain ⟨u, hu, hlinks⟩ := ih h.2.2 ht
        exact ⟨u, List.mem_cons_of_mem _ hu, hlinks⟩

theorem Linked.into (h : Linked next prev p ps) {u : α} (hu : u ∈ ps) : ∃ t, next t = some u ∧ prev u = some t := by
  induction ps generalizing p with
  | nil => cases hu
  | cons q ps ih =>
      rcases List.mem_cons.mp hu with rfl | hu
      · exact ⟨p, h.1, h.2.1⟩
      · exact ih h.2.2 hu

/-- In a ring `prev` is the inverse of `next`. -/
theorem Linked.next_iff_prev (h : Linked next prev p (ps ++ [p])) {t u : α} (ht : t ∈ p :: ps) (hu : u ∈ p :: ps) :
    next t = some u ↔ prev u = some t := by
  constructor
  · intro htu
    obtain ⟨v, -, hnext, hprev⟩ := h.out ht
    cases htu.symm.trans hnext
    exact hprev
  · intro hut
    have hu' : u ∈ ps ++ [p] := (List.perm_append_singleton p ps).mem_iff.mpr hu
    obtain ⟨v, hnext, hprev⟩ := h.into hu'
    cases hut.symm.trans hprev
    exact hnext

/-- A node `x` between the last node and the first one, `p`, which may be the only node so far. -/
theorem Linked.insert (h : Linked next prev p ps) (hnd : (p :: ps).Nodup) {x : α}
    (hlast : next' (ps.getLastD p) = some x) (hx : next' x = some p) (hback : prev' x = some (ps.getLastD p))
    (hp : prev' p = some x) (hnext : ∀ q ∈ p :: ps, q ≠ ps.getLastD p → next' q = next q)
    (hprev : ∀ q ∈ ps, prev' q = prev q) : Linked next' prev' p (ps ++ [x] ++ [p]) := by
  have hkeep : Linked next' prev' p ps := h.congr hnext hprev hnd
  have hsnoc : Linked next' prev' p (ps ++ [x]) := linked_snoc.mpr ⟨hkeep, hlast, hback⟩
  apply linked_snoc.mpr
  rw [List.getLastD_concat]
  exact ⟨hsnoc, hx, hp⟩

theorem tour_eq [DecidableEq α] {first : α} (h : Linked next prev p (ps ++ [first])) (hfirst : first ∉ ps) {fuel : ℕ}
    (hfuel : ps.length < fuel) : tour next first fuel p = some (p :: ps) := by
  induction ps generalizing p fuel with
  | nil =>
      obtain ⟨n, rfl⟩ := Nat.exists_eq_succ_of_ne_zero (Nat.ne_zero_of_lt hfuel)
      rw [tour, h.1, Option.bind_some, if_pos rfl]
  | cons q ps ih =>
      obtain ⟨n, rfl⟩ := Nat.exists_eq_succ_of_ne_zero (Nat.ne_zero_of_lt hfuel)
      have hq : q ≠ first := fun he => hfirst (he ▸ List.mem_cons_self)
      have hrest : tour next first n q = some (q :: ps) :=
        ih h.2.2 (fun hmem => hfirst (List.mem_cons_of_mem _ hmem)) (Nat.lt_of_succ_lt_succ hfuel)
      rw [tour, h.1, Option.bind_some, if_neg hq, hrest, Option.map_some]

end LinkedRing
