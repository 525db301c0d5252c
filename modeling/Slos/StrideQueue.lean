import Mathlib.Algebra.BigOperators.Group.Finset.Basic
import Mathlib.Algebra.Group.Action.Defs
import Mathlib.Algebra.Order.BigOperators.Group.Finset
import Mathlib.Data.List.Chain
import Mathlib.Data.List.Nodup

/-!
# Stride queues that need not be in order

A queue of entities, each with a key and a stride. The entity in front is served: its key grows by its stride and a search
puts it back. The search only looks at the neighbours of the place it comes to, and keys may have been rewritten while the
entities were queued, so the queue is not in order. `Banded` is what still holds: the keys lie around a level, which rises
when every entity is above it. With it, what two entities are served differs by a bounded amount.
-/

namespace StrideQueue

variable {α : Type*} {key key' stride : α → ℕ} {slack V : ℕ} {q : List α} {a c : α}

/-- Keys around the level `V`. A key is less than a stride below the level and less than the slack and a stride above
it. Neighbours above the level are in order, and what stands before an entity that waits at the level or below it is
within the slack. -/
structure Banded (key stride : α → ℕ) (slack V : ℕ) (q : List α) : Prop where
  low : ∀ a ∈ q, V < key a + stride a
  high : ∀ a ∈ q, key a ≤ V + stride a + slack
  chain : q.IsChain fun a b => V < key a → V < key b → key a ≤ key b
  behind : q.Pairwise fun a b => key b ≤ V → key a ≤ V + slack

theorem Banded.spread (h : Banded key stride slack V q) {a b : α} (ha : a ∈ q) (hb : b ∈ q) :
    key a < key b + stride a + stride b + slack := by
  have := h.high a ha
  have := h.low b hb
  omega

/-- Only one entity is above the level. -/
theorem banded_of_one (hslack : ∀ a, stride a ≤ slack) (hnd : q.Nodup) (hlow : ∀ a ∈ q, V < key a + stride a)
    (hhigh : ∀ a ∈ q, a ≠ c → key a ≤ V) (hc : c ∈ q → key c ≤ V + stride c) : Banded key stride slack V q := by
  have hle : ∀ a ∈ q, key a ≤ V + stride a := by
    intro a ha
    by_cases hac : a = c
    · exact hac ▸ hc (hac ▸ ha)
    · exact (hhigh a ha hac).trans (Nat.le_add_right _ _)
  refine ⟨hlow, fun a ha => (hle a ha).trans (Nat.le_add_right _ _), ?_, ?_⟩
  · refine (List.Pairwise.imp_of_mem (fun {a b} ha hb hne hva hvb => ?_) hnd).isChain
    by_cases hac : a = c
    · exact absurd (hhigh b hb fun hbc => hne (hac.trans hbc.symm)) (Nat.not_le.mpr hvb)
    · exact absurd (hhigh a ha hac) (Nat.not_le.mpr hva)
  · refine List.Pairwise.imp_of_mem (fun {a b} ha _ _ _ => ?_) hnd
    have := hle a ha
    have := hslack a
    omega

/-- With every entity above it, the level can rise to the front. -/
theorem Banded.rise {as : List α} (h : Banded key stride slack V (a :: as)) (hpos : ∀ a, 0 < stride a)
    (habove : ∀ b ∈ a :: as, V < key b) : Banded key stride slack (key a) (a :: as) := by
  have hsorted : (a :: as).Pairwise fun b d => key b ≤ key d := by
    have hchain : (a :: as).IsChain fun b d => key b ≤ key d :=
      h.chain.imp_of_mem_imp fun b d hb hd hbd => hbd (habove b hb) (habove d hd)
    exact List.isChain_iff_pairwise.mp hchain
  have hfront : ∀ b ∈ a :: as, key a ≤ key b := by
    intro b hb
    rcases List.mem_cons.mp hb with rfl | hb
    · exact le_rfl
    · exact List.rel_of_pairwise_cons hsorted hb
  refine ⟨fun b hb => ?_, fun b hb => ?_, ?_, ?_⟩
  · have := hfront b hb
    have := hpos b
    omega
  · have := h.high b hb
    have := habove a List.mem_cons_self
    omega
  · exact hsorted.isChain.imp fun b d hbd _ _ => hbd
  · exact hsorted.imp fun {b d} hbd hd => (hbd.trans hd).trans (Nat.le_add_right _ _)

/-- The entity in front is served and put back between a smaller key and one that is not smaller. -/
theorem Banded.place {as xs ys : List α} (h : Banded key stride slack V (a :: as))
    (hfront : key a ≤ V + slack) (has : as = xs ++ ys) (hserved : key' a = key a + stride a)
    (hkey : ∀ b ∈ as, key' b = key b) (hxs : ∀ b ∈ xs.getLast?, key' b < key' a)
    (hys : ∀ b ∈ ys.head?, key' a ≤ key' b) : Banded key' stride slack V (xs ++ a :: ys) := by
  subst has
  have hmem : ∀ b ∈ xs ++ a :: ys, b = a ∨ b ∈ xs ++ ys := by
    intro b hb
    rcases List.mem_append.mp hb with hb | hb
    · exact .inr (List.mem_append_left _ hb)
    · exact (List.mem_cons.mp hb).imp_right (List.mem_append_right _)
  have hlow : V < key' a := hserved ▸ h.low a List.mem_cons_self
  have hchain : (xs ++ ys).IsChain fun b d => V < key' b → V < key' d → key' b ≤ key' d := by
    refine h.chain.tail.imp_of_mem_imp fun b d hb hd hbd => ?_
    rw [hkey b hb, hkey d hd]
    exact hbd
  have hbehind : (xs ++ ys).Pairwise fun b d => key' d ≤ V → key' b ≤ V + slack := by
    refine (List.pairwise_cons.mp h.behind).2.imp_of_mem fun {b d} hb hd hbd => ?_
    rw [hkey b hb, hkey d hd]
    exact hbd
  obtain ⟨hx, hy, -⟩ := List.isChain_append.mp hchain
  obtain ⟨hbx, hby, hbxy⟩ := List.pairwise_append.mp hbehind
  refine ⟨fun b hb => ?_, fun b hb => ?_, ?_, ?_⟩
  · rcases hmem b hb with rfl | hb
    · omega
    · rw [hkey b hb]
      exact h.low b (List.mem_cons_of_mem _ hb)
  · rcases hmem b hb with rfl | hb
    · omega
    · rw [hkey b hb]
      exact h.high b (List.mem_cons_of_mem _ hb)
  · refine List.isChain_append.mpr ⟨hx, List.isChain_cons.mpr ⟨fun d hd _ _ => hys d hd, hy⟩, ?_⟩
    rintro b hb d ⟨⟩ - -
    exact (hxs b hb).le
  · refine List.pairwise_append.mpr ⟨hbx, List.pairwise_cons.mpr ⟨fun d hd hdV => ?_, hby⟩, fun b hb d hd => ?_⟩
    · obtain ⟨s, ys, rfl⟩ := List.exists_cons_of_ne_nil (List.ne_nil_of_mem hd)
      have hs := hys s rfl
      rcases List.mem_cons.mp hd with rfl | hd
      · omega
      · exact hs.trans (List.rel_of_pairwise_cons hby hd hdV)
    · rcases List.mem_cons.mp hd with rfl | hd
      · exact fun hle => absurd hlow (Nat.not_lt.mpr hle)
      · exact hbxy b hb d hd

/-- Serving the entity in front keeps the band, at the same level or at its key. -/
theorem Banded.serve {as xs ys : List α} (h : Banded key stride slack V (a :: as))
    (hpos : ∀ a, 0 < stride a) (has : as = xs ++ ys) (hserved : key' a = key a + stride a)
    (hkey : ∀ b ∈ as, key' b = key b) (hxs : ∀ b ∈ xs.getLast?, key' b < key' a)
    (hys : ∀ b ∈ ys.head?, key' a ≤ key' b) : ∃ W, Banded key' stride slack W (xs ++ a :: ys) := by
  by_cases habove : ∀ b ∈ a :: as, V < key b
  · exact ⟨key a, (h.rise hpos habove).place (Nat.le_add_right _ _) has hserved hkey hxs hys⟩
  · refine ⟨V, h.place ?_ has hserved hkey hxs hys⟩
    push Not at habove
    obtain ⟨b, hb, hbV⟩ := habove
    rcases List.mem_cons.mp hb with rfl | hb
    · exact hbV.trans (Nat.le_add_right _ _)
    · exact List.rel_of_pairwise_cons h.behind hb hbV

/-- What two entities are served in between grows apart by a bounded amount. -/
theorem Banded.share {W : ℕ} {q' : List α} {served : α → ℕ} (h : Banded key stride slack V q)
    (h' : Banded key' stride slack W q') (hserved : ∀ a ∈ q, key' a = key a + served a * stride a) {a b : α}
    (ha : a ∈ q) (ha' : a ∈ q') (hb : b ∈ q) (hb' : b ∈ q') :
    served a * stride a < served b * stride b + 2 * (stride a + stride b + slack) := by
  have hbefore := h.spread hb ha
  have hafter := h'.spread ha' hb'
  rw [hserved a ha, hserved b hb] at hafter
  omega

variable [DecidableEq α]

theorem length_le_of_count {l : List α} {n : ℕ} (hsub : l ⊆ q) (hcount : ∀ a ∈ l, l.count a ≤ n) :
    l.length ≤ n * q.length := by
  calc l.length = ∑ a ∈ l.toFinset, l.count a := l.sum_toFinset_count_eq_length.symm
    _ ≤ l.toFinset.card * n := by
      refine (Finset.sum_le_card_nsmul _ _ n fun a ha => hcount a (List.mem_toFinset.mp ha)).trans_eq ?_
      exact smul_eq_mul _ n
    _ ≤ n * q.length := by
      rw [Nat.mul_comm]
      refine Nat.mul_le_mul_left n ((Finset.card_le_card fun a ha => ?_).trans q.toFinset_card_le)
      exact List.mem_toFinset.mpr (hsub (List.mem_toFinset.mp ha))

end StrideQueue
