import Slos.RbInsert

/-!
# Deletion from a red-black tree

`____rb_erase_color` on the memory of nodes computes `eraseUp` on the tree, and `__rb_erase_augmented` takes the node out as
`eraseAt` does; where the removed node was black and had no child the first goes up from its place.
-/

namespace Slos.RbTree
open Interruptible Straight
open SearchTree (BinTree Frame Path treeRounds settle lowered eraseUp eraseAt)

variable {ν : Type} {m : RbRoot ν} {π : Path ν} {f : Frame ν} {t near far : BinTree ν} {a x : ν}
  {c c' : SearchTree.Color} {is : List (Item ν)} {B n : ℕ}

section Color

/-- The nodes that a round under the parent works on. -/
theorem Sep.round (hsib : f.sibling = .sided f.side c near a far) (h : Sep m (f :: π) t.root? is) :
    Sep m π (some f.val) (.cell f.val (linked (Path.up π) f.color f.side t.root? (some a)) ::
      .cell a (linked (some f.val) c f.side near.root? far.root?) :: .tree (some a) near :: .tree (some a) far :: is) := by
  have hitems := Sep.cons_iff.mp h
  rw [hsib, BinTree.root?_sided] at hitems
  exact (Sep.tree_iff.mp hitems.second).fourth

variable [DecidableEq ν]

/-- The last case of a round of the loop of `____rb_erase_color`. -/
def eraseLast (side : Side) (parent sibling : ν) (tmp1 : Option ν) : Straight (RbRoot ν) ((Option ν × ν) ⊕ Unit) := do
  let tmp2 ← child side sibling
  setChild side.other parent tmp2
  setChild side sibling (some parent)
  rbSetParentColor (← deref tmp1) (some sibling) true
  match tmp2 with
  | some t => rbSetParent t (some parent)
  | none => pure ()
  rbRotateSetParents parent sibling true
  return .inr ()

/-- A round from its second case on. -/
def eraseRest (side : Side) (parent sibling : ν) : Straight (RbRoot ν) ((Option ν × ν) ⊕ Unit) := do
  let tmp1 ← child side.other sibling
  if ← not <$> redNode tmp1 then
    let tmp2 ← child side sibling
    if ← not <$> redNode tmp2 then
      rbSetParentColor sibling (some parent) false
      if ← rbIsBlack parent then
        match ← rbParent parent with
        | some up => return .inl (some parent, up)
        | none => return .inr ()
      else
        rbSetBlack parent
        return .inr ()
    let tmp2 ← deref tmp2
    let tmp1 ← child side.other tmp2
    setChild side sibling tmp1
    setChild side.other tmp2 (some sibling)
    setChild side.other parent (some tmp2)
    blacken tmp1 sibling
    eraseLast side parent tmp2 (some sibling)
  else eraseLast side parent sibling tmp1

theorem eraseSide_eq (side : Side) (parent : ν) (sibling : Option ν) : eraseSide side parent sibling = (do
    let sibling ← deref sibling
    if ← not <$> rbIsBlack sibling then
      let tmp1 ← child side sibling
      setChild side.other parent tmp1
      setChild side sibling (some parent)
      rbSetParentColor (← deref tmp1) (some parent) true
      rbRotateSetParents parent sibling false
      eraseRest side parent (← deref tmp1)
    else eraseRest side parent sibling) := rfl

theorem ends_eraseLast {s : SearchTree.Side} {Q : (Option ν × ν) ⊕ Unit → RbRoot ν → Prop} {p b : ν} {up y z w : Option ν}
    (hfar : far.root? = some b) (h : Sep m π (some p) [.cell p (linked (Path.up π) c s t.root? y),
      .cell a (linked up c' s near.root? (some b)), .tree z near, .tree w far, .tree (some p) t])
    (k : ∀ m, Sep m π (some a) [.tree (Path.up π) (.sided s c (.sided s .black t p near) a (far.paint .black))] →
      Q (.inr ()) m) : (eraseLast (sideOf s) p a (some b)).Ends B Q m := by
  obtain ⟨cf, fn, ff, rfl⟩ := BinTree.exists_sided_of_root? hfar s
  simp only [eraseLast, ends_bind, ends_deref]
  refine ends_child h.second ?_
  refine ends_setChild_other h fun m h => ?_
  refine ends_setChild h.second fun m h => ?_
  refine ends_setParentColor_tree .black h.fourth fun m h => ?_
  refine ends_setParent_tree h.fourth fun m h => ends_bind.mpr ?_
  refine ends_rotateSetParents .black h.third.fourth fun m h => (ends_pure _).mpr (k m ?_)
  have hparent := Sep.tree_iff.mpr h.third.fifth.third
  rw [BinTree.paint_sided]
  refine Sep.tree_iff.mpr ?_
  rw [BinTree.root?_sided, BinTree.root?_sided]
  exact hparent.second

theorem ends_eraseRest {Q : (Option ν × ν) ⊕ Unit → RbRoot ν → Prop} (hsib : f.sibling = .sided f.side c near a far)
    (h : Sep m (f :: π) t.root? [.tree (some f.val) t])
    (hdone : ∀ u, settle f t = .inr u → ∀ m, Sep m π u.root? [.tree (Path.up π) u] → Q (.inr ()) m)
    (hgo : ∀ u, settle f t = .inl u → u.root? = some f.val → ∀ m, Sep m π u.root? [.tree (Path.up π) u] →
      Q ((Path.up π).elim (.inr ()) fun up => .inl (some f.val, up)) m) :
    (eraseRest (sideOf f.side) f.val a).Ends B Q m := by
  have h := h.round hsib
  simp only [settle, hsib, BinTree.root?_sided, BinTree.child_sided, BinTree.child_other_sided,
    BinTree.paint_sided] at hdone hgo
  simp only [eraseRest, ends_bind, ends_ite, ends_map, ends_pure]
  refine ends_child_other h.second (ends_redNode h.fourth ?_)
  by_cases hfar : far.color = .red
  · rw [if_neg (by simp [hfar])]
    obtain ⟨cf, fn, b, ff, hb⟩ := BinTree.exists_sided (BinTree.ne_nil_of_red hfar) f.side
    have hroot : far.root? = some b := by rw [hb, BinTree.root?_sided]
    rw [hroot] at h ⊢
    refine ends_eraseLast hroot h fun m h => hdone _ (if_pos hfar) m ?_
    rwa [BinTree.root?_sided]
  rw [if_pos (by simp [hfar])]
  rw [if_neg hfar] at hdone hgo
  refine ends_child h.second (ends_redNode h.third ?_)
  by_cases hnear : near.color = .red
  · obtain ⟨cn, x, b, y, rfl⟩ := BinTree.exists_sided (BinTree.ne_nil_of_red hnear) f.side
    rw [if_neg (by simp [hnear])]
    rw [if_pos hnear] at hdone
    simp only [BinTree.root?_sided, BinTree.child_sided, BinTree.child_other_sided] at hdone h ⊢
    refine (ends_deref b).mpr ?_
    have h := Sep.tree_iff.mp h.third
    refine ends_child_other h ?_
    refine ends_setChild h.fifth fun m h => ?_
    refine ends_setChild_other h.second fun m h => ?_
    refine ends_setChild_other h.fifth fun m h => ?_
    refine ends_blacken h.fifth fun m h => ?_
    rw [← BinTree.root?_paint .black y] at h
    have hsibling := Sep.tree_iff.mpr h.sixth.fifth.third.second
    refine ends_eraseLast (BinTree.root?_sided ..) hsibling.fourth.fourth.fourth fun m h => hdone _ rfl m ?_
    rw [BinTree.paint_sided] at h
    rwa [BinTree.root?_sided]
  · rw [if_pos (by simp [hnear])]
    rw [if_neg hnear] at hdone hgo
    refine ends_setParentColor .red h.second fun m h => ?_
    have h := (Sep.tree_iff.mpr h.fourth.fourth.third).second
    have hparent {c : SearchTree.Color} {m : RbRoot ν} (h : Sep m π (some f.val)
        [.cell f.val (linked (Path.up π) c f.side t.root? (some a)),
          .tree (some f.val) (.sided f.side .red near a far), .tree (some f.val) t]) :
        Sep m π (some f.val) [.tree (Path.up π) (.sided f.side c t f.val (.sided f.side .red near a far))] := by
      refine Sep.tree_iff.mpr ?_
      rw [BinTree.root?_sided]
      exact h.third.second
    refine ends_rbIsBlack h ?_
    by_cases hc : f.color = .red
    · rw [if_neg (by simp [hc])]
      refine ends_setBlack h fun m h => hdone _ (if_pos hc) m ?_
      rw [BinTree.root?_sided]
      exact hparent h
    · have hblack : f.color = .black := SearchTree.Color.eq_black hc
      rw [if_pos (decide_eq_true hblack)]
      refine ends_rbParent h ?_
      rw [hblack] at h
      have hu := hgo _ (if_neg hc) (BinTree.root?_sided ..) m
      rw [BinTree.root?_sided] at hu
      have hu := hu (hparent h)
      cases hup : Path.up π with
      | none =>
          rw [hup] at hu
          exact (ends_pure _).mpr hu
      | some up =>
          rw [hup] at hu
          exact (ends_pure _).mpr hu

/-- A round whose place is one black node short. -/
theorem ends_eraseSide {Q : (Option ν × ν) ⊕ Unit → RbRoot ν → Prop} {k : ℕ} (hfits : Path.Fits (f :: π) .black (k + 1))
    (h : Sep m (f :: π) t.root? [.tree (some f.val) t])
    (hrot : f.sibling.color = .red → ∀ u b, f.sibling.root? = some b → settle (lowered f) t = .inr u → ∀ m,
      Stored m (Path.plug (⟨f.side, f.color, b, f.sibling.child f.side.other⟩ :: π) u) → Q (.inr ()) m)
    (hdone : f.sibling.color ≠ .red → ∀ u, settle f t = .inr u → ∀ m, Stored m (Path.plug π u) → Q (.inr ()) m)
    (hgo : f.sibling.color ≠ .red → ∀ u, settle f t = .inl u → u.root? = some f.val → ∀ m,
      Sep m π u.root? [.tree (Path.up π) u] → Q ((Path.up π).elim (.inr ()) fun up => .inl (some f.val, up)) m) :
    (eraseSide (sideOf f.side) f.val f.sibling.root?).Ends B Q m := by
  rw [eraseSide_eq]
  simp only [ends_bind, ends_ite, ends_map]
  by_cases hred : f.sibling.color = .red
  · obtain ⟨hf, near, a, far, hsib, hcn, -, hbn, -, -⟩ := hfits.exists_of_red_sibling hred
    obtain ⟨x, b, y, rfl, -, -⟩ := BinTree.exists_of_balanced_succ hbn hcn f.side
    have hlow : (lowered f).sibling = .sided f.side .black x b y := by
      rw [lowered, hsib, BinTree.child_sided, BinTree.paint_sided]
    have h := h.round hsib
    rw [hsib, BinTree.root?_sided, BinTree.child_other_sided] at hrot
    rw [hsib, BinTree.root?_sided]
    rw [BinTree.root?_sided] at h
    refine (ends_deref a).mpr (ends_rbIsBlack h.second ?_)
    rw [if_pos (by simp)]
    refine ends_child h.second ?_
    refine ends_setChild_other h fun m h => ?_
    refine ends_setChild h.second fun m h => ?_
    refine (ends_deref b).mpr (ends_setParentColor_tree .black h.third fun m h => ?_)
    refine ends_rotateSetParents .red h.third.second.third.third fun m h => (ends_deref b).mpr ?_
    -- The parent has gone down under its sibling.
    have hlowered : Sep m (lowered f :: ⟨f.side, f.color, a, far⟩ :: π) t.root? [.tree (some f.val) t] := by
      refine Sep.cons_iff.mpr (Sep.cons_iff.mpr ?_)
      rw [hlow, BinTree.root?_sided]
      exact h.fourth.third
    refine ends_eraseRest (f := lowered f) hlow hlowered (fun u hu m h => ?_) fun u hu => ?_
    · exact hrot (BinTree.color_sided ..) u a rfl hu m (stored_plug.mpr h)
    · exact absurd hu (SearchTree.settle_lowered f t u)
  · obtain ⟨near, a, far, hsib, -, -⟩ := hfits.exists_of_black_sibling (SearchTree.Color.eq_black hred)
    rw [hsib, BinTree.root?_sided]
    refine (ends_deref a).mpr (ends_rbIsBlack (h.round hsib).second ?_)
    rw [if_neg (by simp)]
    refine ends_eraseRest hsib h (fun u hu m h => hdone hred u hu m (stored_plug.mpr h)) (hgo hred)

theorem ends_eraseRound {Q : (Option ν × ν) ⊕ Unit → RbRoot ν → Prop} {k : ℕ} (hfits : Path.Fits (f :: π) .black (k + 1))
    (h : Sep m (f :: π) t.root? [.tree (some f.val) t])
    (hside : (eraseSide (sideOf f.side) f.val f.sibling.root?).Ends B Q m) : (eraseRound (t.root?, f.val)).Ends B Q m := by
  have hcons := Sep.cons_iff.mp h
  have hne : f.sibling.root? ≠ t.root? := by
    cases ht : t.root? with
    | some x => exact Sep.ne_of_tree hcons.third.third.second ht
    | none => exact hfits.root?_sibling_ne_none
  simp only [eraseRound, ends_bind, ends_ite]
  cases hs : f.side with
  | left =>
      rw [hs] at hcons hside
      refine ends_child_other (s := .left) hcons ?_
      rw [if_pos hne.symm]
      exact hside
  | right =>
      rw [hs] at hcons hside
      refine ends_child (s := .right) hcons ?_
      rw [if_neg (fun hne => hne rfl)]
      exact ends_child_other (s := .right) hcons hside

/-- The loop goes up from a place that is one black node short, as far as it has to. -/
theorem ends_eraseLoop {k : ℕ} (hn : π.length ≤ n) (hb : t.Balanced k) (hc : t.color = .black)
    (hfits : Path.Fits π .black (k + 1)) (h : Sep m π t.root? [.tree (Path.up π) t]) :
    (Path.up π).elim (Stored m (eraseUp π t)) fun parent =>
      LoopEnds B n eraseRound (t.root?, parent) (fun _ m => Stored m (eraseUp π t)) m := by
  induction π generalizing t m k n with
  | nil => exact stored_iff.mpr h
  | cons f π ih =>
      obtain ⟨n, rfl⟩ := Nat.exists_eq_succ_of_ne_zero (Nat.ne_zero_of_lt hn)
      rw [Path.up_cons, Option.elim_some]
      refine loopEnds_succ.mpr (ends_eraseRound hfits h (ends_eraseSide hfits h ?_ ?_ ?_))
      · intro hred u b hroot hu m h
        rw [eraseUp, if_pos hred, hroot, hu]
        exact h
      · intro hred u hu m h
        rw [eraseUp, if_neg hred, hu]
        exact h
      · intro hred u hu hroot m h
        have hsettle := SearchTree.settle_fits hb (SearchTree.Color.eq_black hred) hfits
        rw [hu] at hsettle
        obtain ⟨-, hcu, hbu, hfits⟩ := hsettle
        have hrest := ih (Nat.le_of_succ_le_succ hn) hbu hcu hfits h
        rw [eraseUp, if_neg hred, hu]
        rw [hroot] at hrest
        cases hup : Path.up π with
        | none =>
            rw [hup] at hrest
            exact hrest
        | some up =>
            rw [hup] at hrest
            exact hrest

end Color

section Erase

variable [DecidableEq ν] {l r : BinTree ν} {ρ : Path ν}

/-- The part of `eraseInner` that finds the successor and takes it out of its place. -/
def takeSuccessor (right : ν) : Straight (RbRoot ν) (ν × ν × Option ν) := do
  match ← child .left right with
  | none => do
    let child2 ← child .right right
    pure (right, right, child2)
  | some tmp => do
    let (parent, successor) ← iterate successorRound (right, tmp)
    let child2 ← child .right successor
    setChild .left parent child2
    setChild .right successor (some right)
    rbSetParent right (some successor)
    pure (parent, successor, child2)

/-- The part of `eraseInner` that puts the successor in the place of the node. -/
def putSuccessor (node parent successor : ν) (child2 : Option ν) : Straight (RbRoot ν) (Option ν) := do
  let tmp ← child .left node
  setChild .left successor tmp
  rbSetParent (← deref tmp) (some successor)
  let pc ← parentColor node
  rbChangeChild node (some successor) pc.1
  match child2 with
  | some c =>
    rbSetParentColor successor pc.1 pc.2
    rbSetParentColor c (some parent) true
    return none
  | none =>
    let pc2 ← parentColor successor
    rbSetParentColor successor pc.1 pc.2
    return if pc2.2 then some parent else none

theorem eraseInner_eq (node right : ν) : eraseInner node right = (do
    let (parent, successor, child2) ← takeSuccessor right
    putSuccessor node parent successor child2) := by
  refine congrArg (Straight.act _) (funext fun tmp => ?_)
  cases tmp <;> rfl

omit [DecidableEq ν] in
/-- The loop reads the way down the left links. -/
theorem ends_successorLoop {p : ν} {ρ' : Path ν} {s : ν} {cs : SearchTree.Color} (hn : l.height < n)
    (h : Holds m (some p) (.node c l a r)) (hup : Path.up ρ = some p)
    (hpath : SearchTree.leftPath ρ c l a r = (ρ', cs, s, t)) :
    LoopEnds B n successorRound (p, a) (fun b m' => Path.up ρ' = some b.1 ∧ b.2 = s ∧ m' = m) m := by
  obtain ⟨n, rfl⟩ := Nat.exists_eq_succ_of_ne_zero (Nat.ne_zero_of_lt hn)
  induction l generalizing p ρ c a r n with
  | nil =>
      cases hpath
      refine loopEnds_succ.mpr ?_
      simp only [successorRound, ends_bind, child, ends_fetch]
      rw [h.1]
      exact (ends_pure _).mpr ⟨hup, rfl, rfl⟩
  | node c' l' a' r' ih _ =>
      rw [BinTree.height] at hn
      obtain ⟨n, rfl⟩ := Nat.exists_eq_succ_of_ne_zero (show n ≠ 0 by omega)
      refine loopEnds_succ.mpr ?_
      simp only [successorRound, ends_bind, child, ends_fetch]
      rw [h.1]
      exact (ends_pure _).mpr (ih h.2.1 rfl hpath n (by omega))

/-- The left link of the node above the place changes. -/
theorem ends_setChild_segment {Q : Unit → RbRoot ν → Prop} {hole y z up : Option ν}
    (h : Sep m π hole (.segment up (f :: ρ) y :: is)) (k : ∀ m, Sep m π hole (.segment up (f :: ρ) z :: is) → Q () m) :
    (setChild (sideOf f.side) f.val z).Ends B Q m := by
  refine ends_setChild (Sep.segment_cons.mp h) fun m h => k m (Sep.segment_cons.mpr h)

/-- The lowest node of a part of a path gets a new parent. -/
theorem ends_setParent_segment {Q : Unit → RbRoot ν → Prop} {hole y z up : Option ν}
    (h : Sep m π hole (.segment up (ρ ++ [f]) y :: is)) (k : ∀ m, Sep m π hole (.segment z (ρ ++ [f]) y :: is) → Q () m) :
    (rbSetParent f.val z).Ends B Q m := by
  induction ρ generalizing y is with
  | nil =>
      have h := Sep.segment_cons.mp h
      refine ends_setParent h fun m h => k m (Sep.segment_cons.mpr ?_)
      exact (Sep.segment_nil.mpr (Sep.segment_nil.mp h.third)).third.third
  | cons g ρ ih =>
      have hup (up : Option ν) : (Path.up (ρ ++ [f])).or up = Path.up (ρ ++ [f]) := by
        rw [Path.up_append]
        cases ρ <;> rfl
      rw [List.cons_append] at h k
      have h := Sep.segment_cons.mp h
      refine ih h.third fun m h => k m (Sep.segment_cons.mpr ?_)
      rw [hup] at h ⊢
      exact h.third.third

theorem ends_takeSuccessor (hB : l.height ≤ B) {Q : ν × ν × Option ν → RbRoot ν → Prop} {s : ν} {cs : SearchTree.Color}
    {hole up : Option ν}
    (h : Sep m π hole (.tree up (.node c l a r) :: is)) (hpath : SearchTree.leftPath [] c l a r = (ρ, cs, s, t))
    (k : ∀ m u, Sep m π hole (.segment (some s) ρ t.root? :: .cell s (linked u cs .right (Path.top ρ t.root?) none) ::
      .tree (some s) t :: is) → Q ((Path.up ρ).getD s, s, t.root?) m) : (takeSuccessor a).Ends B Q m := by
  have hcell := Sep.node_iff.mp h
  cases l with
  | nil =>
      cases hpath
      simp only [takeSuccessor, ends_bind]
      refine ends_child (s := .left) hcell ?_
      refine ends_bind.mpr (ends_child_other (s := .left) hcell ((ends_pure _).mpr ?_))
      refine k m up (Sep.segment_nil.mpr ?_)
      exact (Sep.nil_tree.mp hcell.second).second.second
  | node c' l' a' r' =>
      obtain ⟨ρ₁, cs', s', t', hpath', hplug, hside⟩ := SearchTree.plug_leftPath [⟨.left, c, a, r⟩] c' l' a' r'
      have hpath := hpath'.symm.trans hpath
      cases hpath
      simp only [takeSuccessor, ends_bind]
      refine ends_child (s := .left) hcell ?_
      have hheight : l'.height < B := by
        rw [BinTree.height] at hB
        omega
      have hloop := ends_successorLoop (B := B) hheight h.tree.2.1 rfl hpath'
      refine ends_bind.mpr ((ends_iterate.mpr hloop).mono ?_)
      rintro ⟨parent, successor⟩ m ⟨hup, rfl, rfl⟩
      -- The subtree is the part of the path down to the successor and the successor in its place.
      have hnode : BinTree.node c (.node c' l' a' r') a r =
          Path.plug (ρ₁ ++ [⟨.left, c, a, r⟩]) (.node cs .nil successor t) := by
        rw [Path.plug_append, hplug]
        rfl
      rw [hnode] at h
      obtain ⟨g, ρ₂, hρ, hg⟩ : ∃ g ρ₂, ρ₁ ++ [⟨.left, c, a, r⟩] = g :: ρ₂ ∧ g.side = .left := by
        cases ρ₁ with
        | nil => exact ⟨_, _, rfl, rfl⟩
        | cons g ρ₁ => exact ⟨g, _, rfl, hside g List.mem_cons_self⟩
      have htop : Path.top (ρ₁ ++ [⟨.left, c, a, r⟩]) t.root? = some a := by
        rw [← Path.root?_plug, Path.plug_append]
        rfl
      rw [hup, htop] at k
      have h := Sep.node_iff.mp (Sep.plug_iff.mp h).second
      refine ends_bind.mpr (ends_child_other (s := .left) h ?_)
      have hsep := (Sep.nil_tree.mp h.second).third
      rw [hρ] at hsep hup k
      cases hup
      have hsetLeft := fun Q => ends_setChild_segment (B := B) (Q := Q) (z := t.root?) hsep
      rw [hg] at hsetLeft
      refine ends_bind.mpr (hsetLeft _ fun m h => ?_)
      refine ends_bind.mpr (ends_setChild_other (s := .left) h.second fun m h => ?_)
      have h := h.second
      rw [← hρ] at h k
      refine ends_bind.mpr (ends_setParent_segment h fun m h => (ends_pure _).mpr ?_)
      exact k m _ h

/-- What `rb_erase` does with the node that `__rb_erase_augmented` returns. -/
def rebalance (parent : Option ν) : Straight (RbRoot ν) Unit := parent.elim (pure ()) rbEraseColor

theorem rbErase_eq (node : ν) : rbErase node = (do rebalance (← rbEraseAugmented node)) := by
  refine congrArg (rbEraseAugmented node >>= ·) (funext fun r => ?_)
  cases r <;> rfl

/-- The place of a node that had no child is one black node short if the node was black. -/
theorem ends_rebalance (hB : π.length ≤ B) (hrb : (Path.plug π (.node c .nil x .nil)).RedBlack) (h : Sep m π none []) :
    (rebalance (if c = .black then Path.up π else none)).Ends B
      (fun _ m => Stored m (SearchTree.replaceChild π c .nil)) m := by
  have htree : Sep m π (BinTree.nil : BinTree ν).root? [.tree (Path.up π) .nil] := Sep.nil_tree.mpr h
  rw [SearchTree.replaceChild]
  by_cases hc : c = .black
  · subst hc
    rw [if_pos rfl, if_pos rfl]
    obtain ⟨k, ⟨j, rfl, h0, -⟩, hfits⟩ := SearchTree.Path.redBlack_plug.mp hrb
    have hloop := ends_eraseLoop (B := B) hB h0 rfl (by cases h0; exact hfits) htree
    cases hup : Path.up π with
    | none =>
        rw [hup] at hloop
        exact (ends_pure ()).mpr hloop
    | some parent =>
        rw [hup] at hloop
        exact ends_iterate.mpr hloop
  · rw [if_neg hc, if_neg hc]
    exact (ends_pure ()).mpr (stored_plug.mpr htree)

theorem ends_putSuccessor {s : ν} {cs : SearchTree.Color} {y u w : Option ν} (hl : l ≠ .nil) (hB : ρ.length + π.length < B)
    (hrb : (Path.plug (ρ ++ ⟨.right, c, s, l⟩ :: π) (.node cs .nil s t)).RedBlack)
    (h : Sep m π (some x) [.segment (some s) ρ t.root?, .cell s (linked u cs .right (Path.top ρ t.root?) none),
      .tree w t, .cell x (linked (Path.up π) c .left l.root? y), .tree (some x) l]) :
    (putSuccessor x ((Path.up ρ).getD s) s t.root?).Ends B
      (fun r m => (rebalance r).Ends B
        (fun _ m => Stored m (SearchTree.replaceChild (ρ ++ ⟨.right, c, s, l⟩ :: π) cs t)) m) m := by
  have hup : Path.up (ρ ++ ⟨.right, c, s, l⟩ :: π) = some ((Path.up ρ).getD s) := by
    rw [Path.up_append]
    cases ρ <;> rfl
  cases l with
  | nil => exact absurd rfl hl
  | node cl ll a lr =>
      simp only [putSuccessor, ends_bind]
      refine ends_child (s := .left) h.fourth ?_
      refine ends_setChild_other (s := .right) h.second fun m h => ?_
      refine (ends_deref a).mpr (ends_setParent (Sep.node_iff.mp h.fifth) fun m h => ?_)
      have h := Sep.node_iff.mpr h
      refine ends_parentColor h.fifth ?_
      refine ends_changeChild h.fifth fun m h => ?_
      have h := h.tail
      cases t with
      | node ct tl b tr =>
          simp only [BinTree.root?, ends_bind]
          refine ends_setParentColor c h.second fun m h => ?_
          refine ends_setParentColor_tree (s := .left) .black h.fourth fun m h => (ends_pure _).mpr ((ends_pure ()).mpr ?_)
          refine stored_plug.mpr (Sep.append_iff.mpr ?_)
          rw [hup]
          exact h.fourth.fourth.fourth
      | nil =>
          simp only [BinTree.root?, ends_bind]
          refine ends_parentColor h.second ?_
          refine ends_setParentColor c h.second fun m h => (ends_pure _).mpr ?_
          have hplace : Sep _ (ρ ++ ⟨.right, c, s, .node cl ll a lr⟩ :: π) none [] :=
            Sep.append_iff.mpr (Sep.nil_tree.mp h.fourth)
          have hlen : (ρ ++ ⟨.right, c, s, .node cl ll a lr⟩ :: π).length ≤ B := by
            rw [List.length_append, List.length_cons]
            omega
          have hrest := ends_rebalance hlen hrb hplace
          rw [hup] at hrest
          simpa using hrest

theorem ends_rbErase {l r : BinTree ν} (hB : (Path.plug π (.node c l x r)).height ≤ B)
    (hm : Stored m (Path.plug π (.node c l x r))) (hrb : (Path.plug π (.node c l x r)).RedBlack) :
    (rbErase x).Ends B (fun _ m => Stored m (eraseAt π c l r)) m := by
  have hheight := (Path.length_add_height_le π (.node c l x r)).trans hB
  rw [BinTree.height] at hheight
  rw [rbErase_eq, rbEraseAugmented]
  simp only [ends_bind]
  have h := Sep.node_iff.mp (stored_plug.mp hm)
  refine ends_child_other (s := .left) h ?_
  refine ends_child (s := .left) h ?_
  cases l with
  | nil =>
      cases r with
      | nil =>
          simp only [BinTree.root?, ends_bind]
          refine ends_parentColor h (ends_changeChild h fun m h => (ends_pure _).mpr ?_)
          have hrest := ends_rebalance (B := B) (by omega) hrb (Sep.nil_tree.mp (Sep.nil_tree.mp h.tail))
          simpa [eraseAt] using hrest
      | node c' l' a' r' =>
          simp only [BinTree.root?, ends_bind]
          refine ends_parentColor h (ends_changeChild h fun m h => ?_)
          refine ends_setParentColor_tree (s := .left) c h.third fun m h => (ends_pure _).mpr ((ends_pure ()).mpr ?_)
          exact stored_plug.mpr (Sep.nil_tree.mp h.third.third.tail)
  | node c₁ l₁ a₁ r₁ =>
      cases r with
      | nil =>
          simp only [BinTree.root?, ends_bind]
          refine ends_parentColor h (ends_setParentColor_tree (s := .left) c h.second fun m h => ?_)
          refine ends_changeChild h.second fun m h => (ends_pure _).mpr ((ends_pure ()).mpr ?_)
          exact stored_plug.mpr (Sep.nil_tree.mp h.tail.second)
      | node c' l' a' r' =>
          obtain ⟨ρ, cs, s, t, hpath, hplug, -⟩ := SearchTree.plug_leftPath [] c' l' a' r'
          rw [List.append_nil] at hpath
          have hright : (Path.plug (ρ ++ ⟨.right, c, s, .node c₁ l₁ a₁ r₁⟩ :: π) (.node cs .nil s t)).RedBlack := by
            rw [Path.plug_append, hplug]
            exact SearchTree.redBlack_plug_cons_val hrb
          have herase : eraseAt π c (.node c₁ l₁ a₁ r₁) (.node c' l' a' r') =
              SearchTree.replaceChild (ρ ++ ⟨.right, c, s, .node c₁ l₁ a₁ r₁⟩ :: π) cs t := by
            simp only [eraseAt, hpath]
          simp only [BinTree.root?, eraseInner_eq, ends_bind]
          have hρ := Path.length_add_height_le ρ (.node cs .nil s t)
          rw [hplug] at hρ
          simp only [BinTree.height] at hρ hheight
          refine ends_takeSuccessor (by omega) h.third hpath fun m u h => ?_
          rw [herase]
          exact ends_putSuccessor (by simp) (by omega) hright h

/-- The removal of any node of a red-black tree of `n` nodes ends without a fault, every loop within `treeRounds n` rounds,
and leaves a red-black tree of the other nodes in their order. -/
theorem rbErase_balances {t : BinTree ν} (hB : treeRounds t.inorder.length ≤ B) (hm : Stored m t) (hrb : t.RedBlack)
    (hx : x ∈ t.inorder) :
    (rbErase x).Ends B (fun _ m => ∃ t', Stored m t' ∧ t'.RedBlack ∧ t'.inorder = t.inorder.erase x) m := by
  have hheight := hrb.height_lt hB
  obtain ⟨π, c, l, r, rfl⟩ := SearchTree.exists_plug hx
  have herased := SearchTree.inorder_erased x _ hm.nodup hx
  rw [SearchTree.erased_plug hm.nodup] at herased
  exact (ends_rbErase hheight.le hm hrb).mono fun _ m hm => ⟨_, hm, SearchTree.redBlack_eraseAt hrb, herased⟩

/-- The root, whose place the right leaf takes. -/
theorem rbErase_balances_leaves : (rbErase 2).Ends 5
    (fun _ m => ∃ t, Stored m t ∧ t.RedBlack ∧ t.inorder = [1, 3]) leavesRoot :=
  rbErase_balances (by decide +kernel) stored_leaves ⟨rfl, 1, 0, rfl, ⟨rfl, rfl, rfl, rfl⟩, ⟨rfl, rfl, rfl, rfl⟩⟩
    (by decide)

end Erase

end Slos.RbTree
