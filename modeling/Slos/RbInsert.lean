import Slos.RbLayout

/-!
# Insertion into a red-black tree

`rb_link_node` and `rb_insert_color` on the memory of nodes compute what `insertUp` computes on the tree: a round of the
loop of `__rb_insert` turns the colours and goes on two nodes higher, or rotates and ends.
-/

namespace Slos.RbTree
open Interruptible Straight
open SearchTree (BinTree Frame Path treeRounds rotateOuter rotateInner insertUp)

variable {ν : Type} [DecidableEq ν] {m : RbRoot ν} {π : Path ν} {f g : Frame ν} {t : BinTree ν} {x : ν}
  {B n : ℕ}

/-- The subtree of the grandparent after the colours have turned. -/
def flipped (f g : Frame ν) (t : BinTree ν) : BinTree ν :=
  .sided g.side .red (.sided f.side .black t f.val f.sibling) g.val (g.sibling.paint .black)

theorem ends_insertSide {Q : (ν × Option ν) ⊕ Unit → RbRoot ν → Prop} (hx : t.root? = some x)
    (h : Sep m (f :: g :: π) (some x) [.tree (some f.val) t])
    (hflip : g.sibling.color = .red → ∀ m, Sep m π (some g.val) [.tree (Path.up π) (flipped f g t)] →
      Q (.inl (g.val, Path.up π)) m)
    (houter : g.sibling.color ≠ .red → f.side = g.side →
      ∀ m, Sep m π (rotateOuter f g t).root? [.tree (Path.up π) (rotateOuter f g t)] → Q (.inr ()) m)
    (hinner : g.sibling.color ≠ .red → f.side ≠ g.side →
      ∀ m, Sep m π (rotateInner f g t).root? [.tree (Path.up π) (rotateInner f g t)] → Q (.inr ()) m) :
    (insertSide (sideOf g.side) x f.val g.val g.sibling.root?).Ends B Q m := by
  rw [← hx] at h
  have hitems := Sep.cons_iff.mp (Sep.cons_iff.mp h)
  simp only [insertSide, ends_bind, ends_ite, ends_pure]
  -- The items are the grandparent, its other subtree, the parent, its other subtree and the node's subtree.
  refine ends_redNode hitems.second ?_
  by_cases hred : g.sibling.color = .red
  · rw [if_pos (decide_eq_true hred)]
    refine ends_blacken hitems.second fun m h => ?_
    refine ends_setParentColor .black h.third fun m h => ?_
    refine ends_rbParent h.third ?_
    refine ends_setParentColor .red h.third fun m h => ?_
    apply hflip hred
    have hparent := Sep.tree_iff.mpr h.fourth.fifth.fourth
    refine Sep.tree_iff.mpr ?_
    rw [BinTree.root?_sided, BinTree.root?_paint]
    exact hparent.third.second.third
  · rw [if_neg (by simpa using hred)]
    have hne : f.sibling.root? ≠ some x := Sep.ne_of_tree hitems.fourth.fifth hx
    by_cases hside : f.side = g.side
    · rw [hside] at hitems
      refine ends_child_other hitems.third ?_
      rw [if_neg hne]
      refine ends_setChild hitems fun m h => ?_
      refine ends_setChild_other h.third fun m h => ?_
      refine ends_blacken h.fourth fun m h => ?_
      refine ends_rotateSetParents .red h.second.third fun m h => ?_
      apply houter hred hside
      rw [← BinTree.root?_paint .black f.sibling] at h
      have hgparent := Sep.tree_iff.mpr h.fourth.fourth.third
      rw [rotateOuter, BinTree.root?_sided]
      refine Sep.tree_iff.mpr ?_
      rw [BinTree.root?_sided]
      exact hgparent.third.third
    · obtain ⟨ct, near, far, rfl⟩ := BinTree.exists_sided_of_root? hx g.side
      rw [SearchTree.Side.eq_other_of_ne hside, linked_other] at hitems
      refine ends_child_other hitems.third ?_
      rw [if_pos hx]
      have h := Sep.tree_iff.mp hitems.fifth
      refine ends_child h ?_
      refine ends_setChild_other h.sixth fun m h => ?_
      refine ends_setChild h.second fun m h => ?_
      refine ends_blacken h.third fun m h => ?_
      refine ends_setParentColor .red h.third fun m h => ?_
      refine ends_child_other h.third ?_
      refine ends_setChild h.fifth fun m h => ?_
      refine ends_setChild_other h.fourth fun m h => ?_
      refine ends_blacken h.fifth fun m h => ?_
      refine ends_rotateSetParents .red h.second.third fun m h => ?_
      apply hinner hred hside
      rw [← BinTree.root?_paint .black near, ← BinTree.root?_paint .black far] at h
      have hgparent := Sep.tree_iff.mpr h.third.sixth.second.third
      have hparent := Sep.tree_iff.mpr hgparent.fourth.fifth.fifth
      rw [rotateInner, BinTree.root?_sided, BinTree.child_sided, BinTree.child_other_sided]
      dsimp only
      rw [BinTree.root?_sided]
      refine Sep.tree_iff.mpr ?_
      rw [BinTree.root?_sided, BinTree.root?_sided]
      exact hparent.third

/-- A round at a place with a red parent and a grandparent. -/
theorem ends_insertRound {Q : (ν × Option ν) ⊕ Unit → RbRoot ν → Prop} (hf : f.color = .red)
    (h : Sep m (f :: g :: π) (some x) [.tree (some f.val) t])
    (k : (insertSide (sideOf g.side) x f.val g.val g.sibling.root?).Ends B Q m) :
    (insertRound (x, some f.val)).Ends B Q m := by
  have hparent := Sep.cons_iff.mp h
  have hgparent := Sep.cons_iff.mp hparent
  have hne : g.sibling.root? ≠ some f.val := Sep.ne_of_cell hgparent.second.third
  simp only [insertRound, rbRedParent, ends_bind, ends_ite, ends_pure]
  refine ends_rbIsBlack hparent ?_
  rw [hf, if_neg (by decide)]
  refine ends_rbIsBlack hparent ?_
  rw [hf, if_neg (by decide)]
  refine ends_rbParent hparent ((ends_deref g.val).mpr ?_)
  cases hside : g.side with
  | left =>
      rw [hside] at hgparent k
      refine ends_child_other (s := .left) hgparent ?_
      rw [if_pos hne]
      exact k
  | right =>
      rw [hside] at hgparent k
      refine ends_child (s := .right) hgparent ?_
      rw [if_neg (fun h => h rfl)]
      exact ends_child_other (s := .right) hgparent k

/-- The loop goes up two nodes a round. -/
theorem ends_insertLoop (hn : π.length < n) (hx : t.root? = some x) (hroot : ∀ f ∈ π.getLast?, f.color = .black)
    (h : Sep m π (some x) [.tree (Path.up π) t]) :
    LoopEnds B n insertRound (x, Path.up π) (fun _ m => Stored m (insertUp π t)) m := by
  obtain ⟨n, rfl⟩ := Nat.exists_eq_succ_of_ne_zero (Nat.ne_zero_of_lt hn)
  induction π, t using SearchTree.insertUp.induct generalizing m x n with
  | case1 t =>
      cases t with
      | nil => cases hx
      | node c l a r =>
          cases hx
          refine loopEnds_succ.mpr (ends_bind.mpr ?_)
          refine ends_setParentColor_tree (s := .left) .black h fun m h => (ends_pure _).mpr ?_
          exact stored_iff.mpr h
  | case2 f t =>
      have hf : f.color = .black := hroot f rfl
      refine loopEnds_succ.mpr ?_
      simp only [insertRound, Path.up_cons, ends_bind, ends_ite, ends_pure]
      refine ends_rbIsBlack (Sep.cons_iff.mp h) ?_
      rw [hf, if_pos (by decide)]
      rw [← hx] at h
      exact stored_plug.mpr h
  | case3 f g π t hf =>
      refine loopEnds_succ.mpr ?_
      simp only [insertRound, Path.up_cons, ends_bind, ends_ite, ends_pure]
      refine ends_rbIsBlack (Sep.cons_iff.mp h) ?_
      rw [if_pos (decide_eq_true hf), insertUp, if_pos hf]
      rw [← hx] at h
      exact stored_plug.mpr h
  | case4 f g π t hf hg ih =>
      refine loopEnds_succ.mpr (ends_insertRound (SearchTree.Color.eq_red hf) h ?_)
      rw [insertUp, if_neg hf, if_pos hg]
      refine ends_insertSide hx h (fun _ m h => ?_) (fun hne => absurd hg hne) (fun hne => absurd hg hne)
      have hlen : π.length + 2 < n + 1 := hn
      obtain ⟨n, rfl⟩ := Nat.exists_eq_succ_of_ne_zero (show n ≠ 0 by omega)
      have hroot' (f' : Frame ν) (hf' : f' ∈ π.getLast?) : f'.color = .black :=
        hroot f' (List.mem_getLast?_cons (List.mem_getLast?_cons hf'))
      exact ih (BinTree.root?_sided ..) hroot' h n (by omega)
  | case5 f g π t hf hg hs =>
      refine loopEnds_succ.mpr (ends_insertRound (SearchTree.Color.eq_red hf) h ?_)
      rw [insertUp, if_neg hf, if_neg hg, if_pos hs]
      exact ends_insertSide hx h (fun hne => absurd hne hg) (fun _ _ m h => stored_plug.mpr h) (fun _ hne => absurd hs hne)
  | case6 f g π t hf hg hs =>
      refine loopEnds_succ.mpr (ends_insertRound (SearchTree.Color.eq_red hf) h ?_)
      rw [insertUp, if_neg hf, if_neg hg, if_neg hs]
      exact ends_insertSide hx h (fun hne => absurd hne hg) (fun _ heq => absurd heq hs) (fun _ _ m h => stored_plug.mpr h)

/-- Where `rb_link` points at the place of a path. -/
def linkOf : Path ν → Link ν
  | [] => none
  | f :: _ => some (f.val, sideOf f.side)

theorem Sep.setLink {is : List (Item ν)} {y z : Option ν} (h : Sep m π y is) :
    Sep (m.setLink z (linkOf π)) π z is := by
  cases π with
  | nil => exact ⟨rfl, fun i hi => (h.holds i hi).congr fun _ _ => rfl, h.nodup⟩
  | cons f π =>
      have hcons := Sep.cons_iff.mp h
      have hstore := hcons.store ((m.node f.val).setChild z (sideOf f.side))
      rw [hcons.cell, linked_setChild] at hstore
      refine Sep.cons_iff.mpr ?_
      rw [linkOf, RbRoot.setLink, hcons.cell, linked_setChild]
      exact hstore

/-- `rb_link_node` hangs a new red leaf into the place that `rb_link` points at. -/
theorem ends_linkNode {Q : Unit → RbRoot ν → Prop} (hm : Stored m (Path.plug π .nil)) (hx : x ∉ π.nodes)
    (k : ∀ m, Sep m π (some x) [.tree (Path.up π) (.node .red .nil x .nil)] → Q () m) :
    (rbLinkNode x (Path.up π) (linkOf π)).Ends B Q m := by
  have h : Sep m π none [.cell x (m.node x)] := (Sep.nil_tree.mp (stored_plug.mp hm)).fresh (by simpa using hx)
  simp only [rbLinkNode, rbSetParentColor, setChild, ends_bind, ends_store]
  -- The three stores write the whole node.
  have hstored := h.store (linked (Path.up π) .red .left none none)
  have hmem : ((m.setNode x { m.node x with rbParent := Path.up π, black := false }).setLink none
      (some (x, .right))).setLink none (some (x, .left)) = m.setNode x (linked (Path.up π) .red .left none none) := by
    simp [RbRoot.setLink, RbRoot.setNode, RbNode.setChild, linked]
  rw [hmem]
  refine k _ (Sep.node_iff.mpr ?_)
  exact (Sep.nil_tree.mpr (Sep.nil_tree.mpr (Sep.setLink hstored)).second).second

/-- `rb_link_node` and `rb_insert_color`. -/
theorem ends_linkInsert (hB : π.length < B) (hm : Stored m (Path.plug π .nil)) (hroot : ∀ f ∈ π.getLast?, f.color = .black)
    (hx : x ∉ π.nodes) :
    (do rbLinkNode x (Path.up π) (linkOf π); rbInsertColor x).Ends B
      (fun _ m => Stored m (insertUp π (.node .red .nil x .nil))) m := by
  refine ends_bind.mpr (ends_linkNode hm hx fun m h => ?_)
  have hcell := Sep.node_iff.mp h
  simp only [rbInsertColor, rbRedParent, ends_bind, ends_ite]
  refine ends_rbIsBlack hcell ?_
  rw [if_neg (by decide)]
  refine ends_rbParent hcell ?_
  exact ends_iterate.mpr (ends_insertLoop hB rfl hroot h)

/-- A new node in any empty place of a red-black tree of `n` nodes: the functions end without a fault, every loop within
`treeRounds n` rounds, and leave a red-black tree in which the node stands at that place. -/
theorem rbInsertColor_balances (hB : treeRounds (Path.plug π .nil).inorder.length ≤ B) (hm : Stored m (Path.plug π .nil))
    (hrb : (Path.plug π .nil).RedBlack) (hx : x ∉ (Path.plug π .nil).inorder) :
    (do rbLinkNode x (Path.up π) (linkOf π); rbInsertColor x).Ends B
      (fun _ m => ∃ t, Stored m t ∧ t.RedBlack ∧ t.inorder = Path.before π ++ x :: Path.after π) m := by
  have hlen : π.length < B := by
    have hheight := Path.length_add_height_le π .nil
    have hlt := hrb.height_lt hB
    omega
  have hnodes : x ∉ π.nodes := by
    rw [(Path.perm_inorder_plug π _).mem_iff] at hx
    simpa using hx
  refine (ends_linkInsert hlen hm (Path.color_getLast? hrb.1) hnodes).mono fun _ m hm => ⟨_, hm, ?_, ?_⟩
  · exact SearchTree.redBlack_insertLeaf hrb x
  · rw [SearchTree.inorder_insertUp, Path.inorder_plug]
    simp

/-- The place right of the right leaf. -/
def belowLeaf : Path ℕ := [⟨.right, .red, 3, .nil⟩, ⟨.right, .black, 2, .node .red .nil 1 .nil⟩]

/-- There both leaves have to be recoloured. -/
theorem rbInsertColor_balances_leaves : (do rbLinkNode 4 (Path.up belowLeaf) (linkOf belowLeaf); rbInsertColor 4).Ends 5
    (fun _ m => ∃ t, Stored m t ∧ t.RedBlack ∧ t.inorder = [1, 2, 3, 4]) leavesRoot := by
  have hm : Stored leavesRoot (Path.plug belowLeaf .nil) := stored_leaves
  exact rbInsertColor_balances (by decide +kernel) hm ⟨rfl, 1, 0, rfl, ⟨rfl, rfl, rfl, rfl⟩, ⟨rfl, rfl, rfl, rfl⟩⟩
    (by decide)

end Slos.RbTree
