import Mathlib.Data.Finset.Card
import Mathlib.Logic.Function.Basic

/-!
# Exclusive ownership of resources

A set of owners each holds at most one resource. Ownership is exact when no resource has two owners
and the resources marked as used are the owned ones. Handing a free resource to an owner without
one and taking a resource back keep ownership exact, and when there are at least as many resources
as owners, an owner without a resource can always be served.
-/

namespace Ownership

variable {α β : Type*}

structure Exact (owners : Finset α) (resources : Finset β) (own : α → Option β)
    (used : β → Prop) : Prop where
  inj : ∀ a ∈ owners, ∀ b ∈ owners, ∀ r, own a = some r → own b = some r → a = b
  mem : ∀ a ∈ owners, ∀ r, own a = some r → r ∈ resources
  used_iff : ∀ r ∈ resources, used r ↔ ∃ a ∈ owners, own a = some r

variable {owners : Finset α} {resources : Finset β} {own : α → Option β} {used : β → Prop}

theorem Exact.used_iff_existsUnique (h : Exact owners resources own used) {r : β}
    (hr : r ∈ resources) : used r ↔ ∃! a, a ∈ owners ∧ own a = some r := by
  rw [h.used_iff r hr]
  constructor
  · rintro ⟨a, ha, har⟩
    exact ⟨a, ⟨ha, har⟩, fun b hb => h.inj b hb.1 a ha r hb.2 har⟩
  · rintro ⟨a, ha, _⟩
    exact ⟨a, ha⟩

/-- Counting: an owner that holds nothing leaves some resource unused. -/
theorem Exact.exists_free [DecidableEq α] (h : Exact owners resources own used)
    (hcard : owners.card ≤ resources.card) {a : α} (ha : a ∈ owners) (hown : own a = none) :
    ∃ r ∈ resources, ¬ used r := by
  by_contra! hall
  have hholder : ∀ r ∈ resources, ∃ b ∈ owners, own b = some r :=
    fun r hr => (h.used_iff r hr).mp (hall r hr)
  have : Nonempty α := ⟨a⟩
  choose! f hf using hholder
  have hmaps : ∀ r ∈ resources, f r ∈ owners.erase a := by
    intro r hr
    refine Finset.mem_erase.mpr ⟨fun he => ?_, (hf r hr).1⟩
    have := (hf r hr).2
    rw [he, hown] at this
    cases this
  have hinj : Set.InjOn f resources := by
    intro r hr r' hr' he
    have h1 := (hf r hr).2
    rw [he, (hf r' hr').2] at h1
    exact (Option.some.inj h1).symm
  have hle := Finset.card_le_card_of_injOn f hmaps hinj
  have hlt := Finset.card_erase_lt_of_mem ha
  omega

theorem Exact.assign [DecidableEq α] (h : Exact owners resources own used) {a : α} {r : β} (ha : a ∈ owners)
    (hown : own a = none) (hr : r ∈ resources) (hfree : ¬ used r) {own' : α → Option β}
    {used' : β → Prop} (hself : own' a = some r) (hother : ∀ b ∈ owners, b ≠ a → own' b = own b)
    (hused : ∀ x ∈ resources, used' x ↔ used x ∨ x = r) :
    Exact owners resources own' used' := by
  have hnobody : ∀ b ∈ owners, own b ≠ some r :=
    fun b hb hbr => hfree ((h.used_iff r hr).mpr ⟨b, hb, hbr⟩)
  have hcase : ∀ b ∈ owners, ∀ x, own' b = some x → (b = a ∧ x = r) ∨ (b ≠ a ∧ own b = some x) := by
    intro b hb x hx
    by_cases hba : b = a
    · subst hba
      rw [hself] at hx
      exact Or.inl ⟨rfl, (Option.some.inj hx).symm⟩
    · rw [hother b hb hba] at hx
      exact Or.inr ⟨hba, hx⟩
  refine ⟨fun b hb c hc x hbx hcx => ?_, fun b hb x hbx => ?_, fun x hx => ?_⟩
  · rcases hcase b hb x hbx with ⟨rfl, rfl⟩ | ⟨_, hb'⟩ <;>
      rcases hcase c hc x hcx with ⟨rfl, hxr⟩ | ⟨_, hc'⟩
    · rfl
    · exact absurd hc' (hnobody c hc)
    · exact absurd (hxr ▸ hb') (hnobody b hb)
    · exact h.inj b hb c hc x hb' hc'
  · rcases hcase b hb x hbx with ⟨_, rfl⟩ | ⟨_, hb'⟩
    · exact hr
    · exact h.mem b hb x hb'
  · rw [hused x hx, h.used_iff x hx]
    constructor
    · rintro (⟨b, hb, hbx⟩ | rfl)
      · have hba : b ≠ a := fun he => by rw [he, hown] at hbx; cases hbx
        exact ⟨b, hb, (hother b hb hba).trans hbx⟩
      · exact ⟨a, ha, hself⟩
    · rintro ⟨b, hb, hbx⟩
      rcases hcase b hb x hbx with ⟨_, rfl⟩ | ⟨_, hb'⟩
      · exact Or.inr rfl
      · exact Or.inl ⟨b, hb, hb'⟩

theorem Exact.release [DecidableEq α] (h : Exact owners resources own used) {a : α} {own' : α → Option β}
    {used' : β → Prop} (ha : a ∈ owners) (hself : own' a = none)
    (hother : ∀ b ∈ owners, b ≠ a → own' b = own b)
    (hused : ∀ x ∈ resources, used' x ↔ used x ∧ own a ≠ some x) :
    Exact owners resources own' used' := by
  have hcase : ∀ b ∈ owners, ∀ x, own' b = some x → b ≠ a ∧ own b = some x := by
    intro b hb x hx
    have hba : b ≠ a := fun he => by rw [he, hself] at hx; cases hx
    exact ⟨hba, (hother b hb hba).symm.trans hx⟩
  refine ⟨fun b hb c hc x hbx hcx => ?_, fun b hb x hbx => ?_, fun x hx => ?_⟩
  · exact h.inj b hb c hc x (hcase b hb x hbx).2 (hcase c hc x hcx).2
  · exact h.mem b hb x (hcase b hb x hbx).2
  · rw [hused x hx, h.used_iff x hx]
    constructor
    · rintro ⟨⟨b, hb, hbx⟩, hax⟩
      have hba : b ≠ a := fun he => hax (he ▸ hbx)
      exact ⟨b, hb, (hother b hb hba).trans hbx⟩
    · rintro ⟨b, hb, hbx⟩
      obtain ⟨hba, hb'⟩ := hcase b hb x hbx
      exact ⟨⟨b, hb, hb'⟩, fun hax => hba (h.inj b hb a ha x hb' hax)⟩

end Ownership
