import Slos.RbTree
import Slos.RedBlack
import Slos.StraightRun

/-!
# Trees in the memory of nodes

`Stored m t` says that the nodes reachable from the root are laid out as the tree `t`. `Sep` takes such a memory apart: the
path to a place, what the link to the place holds, and a list of single nodes and of subtrees that stand apart from the path
and from one another. A statement that writes one node changes its item of the list and nothing else, so the rules below
give for each function of `rbtree.h` the items it leaves.
-/

namespace Slos.RbTree
open Interruptible Straight
open SearchTree (BinTree Frame Path)

variable {ν : Type}

/-- The link on a side of a node. -/
def sideOf : SearchTree.Side → Side
  | .left => .left
  | .right => .right

/-- A node whose child on side `s` is `near`. -/
def linked (up : Option ν) (c : SearchTree.Color) (s : SearchTree.Side) (near far : Option ν) : RbNode ν :=
  match s with
  | .left => ⟨up, decide (c = .black), far, near⟩
  | .right => ⟨up, decide (c = .black), near, far⟩

section Linked

variable (up p : Option ν) (c : SearchTree.Color) (s : SearchTree.Side) (near far x : Option ν)

theorem sideOf_other : (sideOf s).other = sideOf s.other := by cases s <;> rfl

@[simp] theorem linked_rbParent : (linked up c s near far).rbParent = up := by cases s <;> rfl

@[simp] theorem linked_black : (linked up c s near far).black = decide (c = .black) := by cases s <;> rfl

@[simp] theorem linked_child : (linked up c s near far).child (sideOf s) = near := by cases s <;> rfl

@[simp] theorem linked_child_other : (linked up c s near far).child (sideOf s).other = far := by cases s <;> rfl

@[simp] theorem linked_setChild : (linked up c s near far).setChild x (sideOf s) = linked up c s x far := by cases s <;> rfl

@[simp] theorem linked_setChild_other : (linked up c s near far).setChild x (sideOf s).other = linked up c s near x := by
  cases s <;> rfl

theorem linked_other : linked up c s.other near far = linked up c s far near := by cases s <;> rfl

theorem linked_setParent : { linked up c s near far with rbParent := p } = linked p c s near far := by cases s <;> rfl

theorem linked_setParentColor (c' : SearchTree.Color) :
    { linked up c s near far with rbParent := p, black := decide (c' = .black) } = linked p c' s near far := by
  cases s <;> rfl

end Linked

/-- The nodes of a tree are laid out under the node `up`. -/
def Holds (m : RbRoot ν) : Option ν → BinTree ν → Prop
  | _, .nil => True
  | up, .node c l a r =>
      m.node a = linked up c .left l.root? r.root? ∧ Holds m (some a) l ∧ Holds m (some a) r

/-- The nodes of a path are laid out, and the link to its place holds `hole`. -/
def Around (m : RbRoot ν) : Path ν → Option ν → Prop
  | [], hole => m.rbNode = hole
  | f :: π, hole => m.node f.val = linked (Path.up π) f.color f.side hole f.sibling.root? ∧
      Holds m (some f.val) f.sibling ∧ Around m π (some f.val)

structure Stored (m : RbRoot ν) (t : BinTree ν) : Prop where
  rbNode : m.rbNode = t.root?
  holds : Holds m none t
  nodup : t.inorder.Nodup

/-- A black root between two red leaves. -/
def leaves : BinTree ℕ := .node .black (.node .red .nil 1 .nil) 2 (.node .red .nil 3 .nil)

def leavesRoot : RbRoot ℕ where
  node a := if a = 2 then ⟨none, true, some 3, some 1⟩ else ⟨some 2, false, none, none⟩
  rbNode := some 2

theorem stored_leaves : Stored leavesRoot leaves :=
  ⟨rfl, ⟨rfl, ⟨rfl, trivial, trivial⟩, ⟨rfl, trivial, trivial⟩⟩, by decide⟩

/-- A part of a path is laid out under the node `up`. -/
def Along (m : RbRoot ν) (up : Option ν) : Path ν → Option ν → Prop
  | [], _ => True
  | f :: ρ, hole => m.node f.val = linked ((Path.up ρ).or up) f.color f.side hole f.sibling.root? ∧
      Holds m (some f.val) f.sibling ∧ Along m up ρ (some f.val)

/-- A node with its contents, or a subtree or a part of a path with the node it hangs under. -/
inductive Item (ν : Type)
  | cell (a : ν) (n : RbNode ν)
  | tree (up : Option ν) (t : BinTree ν)
  | segment (up : Option ν) (ρ : Path ν) (hole : Option ν)

def Item.nodes : Item ν → List ν
  | .cell a _ => [a]
  | .tree _ t => t.inorder
  | .segment _ ρ _ => Path.nodes ρ

def Item.Holds (m : RbRoot ν) : Item ν → Prop
  | .cell a n => m.node a = n
  | .tree up t => RbTree.Holds m up t
  | .segment up ρ hole => Along m up ρ hole

structure Sep (m : RbRoot ν) (π : Path ν) (hole : Option ν) (is : List (Item ν)) : Prop where
  around : Around m π hole
  holds : ∀ i ∈ is, i.Holds m
  nodup : (is.flatMap Item.nodes ++ Path.nodes π).Nodup

variable {m m' : RbRoot ν} {up hole x y z : Option ν} {t near far : BinTree ν} {π : Path ν} {is js xs ys : List (Item ν)}
  {i j k l o q : Item ν} {c : SearchTree.Color} {s : SearchTree.Side} {a old new : ν} {n : RbNode ν} {f : Frame ν} {B : ℕ}

theorem Holds.congr (h : Holds m up t) (heq : ∀ a ∈ t.inorder, m'.node a = m.node a) : Holds m' up t := by
  induction t generalizing up with
  | nil => trivial
  | node c l a r ihl ihr =>
      rw [BinTree.inorder_node] at heq
      obtain ⟨ha, hl, hr⟩ := h
      refine ⟨(heq a (by simp)).trans ha, ihl hl fun b hb => ?_, ihr hr fun b hb => ?_⟩
      · exact heq b (List.mem_append_left _ hb)
      · exact heq b (List.mem_append_right _ (List.mem_cons_of_mem a hb))

theorem Around.congr (h : Around m π hole) (hroot : m'.rbNode = m.rbNode) (heq : ∀ a ∈ π.nodes, m'.node a = m.node a) :
    Around m' π hole := by
  induction π generalizing hole with
  | nil => exact hroot.trans h
  | cons f π ih =>
      obtain ⟨hf, hs, hπ⟩ := h
      have hmem (b : ν) (hb : b ∈ f.val :: (f.sibling.inorder ++ Path.nodes π)) : m'.node b = m.node b :=
        heq b ((Path.nodes_cons_perm f π).mem_iff.mpr hb)
      refine ⟨(hmem f.val List.mem_cons_self).trans hf, hs.congr fun b hb => hmem b ?_, ih hπ fun b hb => hmem b ?_⟩
      · exact List.mem_cons_of_mem _ (List.mem_append_left _ hb)
      · exact List.mem_cons_of_mem _ (List.mem_append_right _ hb)

theorem Along.congr {ρ : Path ν} (h : Along m up ρ hole) (heq : ∀ a ∈ ρ.nodes, m'.node a = m.node a) :
    Along m' up ρ hole := by
  induction ρ generalizing hole with
  | nil => trivial
  | cons f ρ ih =>
      obtain ⟨hf, hs, hρ⟩ := h
      have hmem (b : ν) (hb : b ∈ f.val :: (f.sibling.inorder ++ Path.nodes ρ)) : m'.node b = m.node b :=
        heq b ((Path.nodes_cons_perm f ρ).mem_iff.mpr hb)
      refine ⟨(hmem f.val List.mem_cons_self).trans hf, hs.congr fun b hb => hmem b ?_, ih hρ fun b hb => hmem b ?_⟩
      · exact List.mem_cons_of_mem _ (List.mem_append_left _ hb)
      · exact List.mem_cons_of_mem _ (List.mem_append_right _ hb)

theorem Item.Holds.congr (h : i.Holds m) (heq : ∀ a ∈ i.nodes, m'.node a = m.node a) : i.Holds m' := by
  cases i with
  | cell a n => exact (heq a (List.mem_singleton_self a)).trans h
  | tree up t => exact RbTree.Holds.congr h heq
  | segment up ρ hole => exact Along.congr h heq

theorem holds_sided : Holds m up (BinTree.sided s c near a far) ↔
    m.node a = linked up c s near.root? far.root? ∧ Holds m (some a) near ∧ Holds m (some a) far := by
  cases s with
  | left => exact Iff.rfl
  | right =>
      constructor
      · exact fun ⟨ha, hf, hn⟩ => ⟨ha, hn, hf⟩
      · exact fun ⟨ha, hn, hf⟩ => ⟨ha, hf, hn⟩

namespace Sep

theorem perm (h : Sep m π hole is) (hp : is.Perm js) : Sep m π hole js :=
  ⟨h.around, fun i hi => h.holds i (hp.mem_iff.mpr hi), ((hp.flatMap_right Item.nodes).append_right _).nodup_iff.mp h.nodup⟩

/-- The item at a place of the list comes first. -/
theorem pick (xs : List (Item ν)) (h : Sep m π hole (xs ++ i :: ys)) : Sep m π hole (i :: (xs ++ ys)) :=
  h.perm List.perm_middle

/-- Nodes of two items are different. -/
theorem ne_of_tree (h : Sep m π hole (.tree up t :: .tree z far :: is)) (ha : t.root? = some a) : far.root? ≠ some a := by
  intro hf
  have hnd := h.nodup
  rw [List.flatMap_cons, List.flatMap_cons, List.append_assoc] at hnd
  refine List.disjoint_of_nodup_append hnd (BinTree.mem_of_root? ha) ?_
  exact List.mem_append_left _ (List.mem_append_left _ (BinTree.mem_of_root? hf))

theorem ne_of_cell (h : Sep m π hole (.cell a n :: .tree up t :: is)) : t.root? ≠ some a := by
  intro ht
  have hnd := h.nodup
  rw [List.flatMap_cons, List.flatMap_cons, List.append_assoc] at hnd
  refine List.disjoint_of_nodup_append hnd (List.mem_singleton_self a) ?_
  exact List.mem_append_left _ (List.mem_append_left _ (BinTree.mem_of_root? ht))

theorem second (h : Sep m π hole (i :: j :: is)) : Sep m π hole (j :: i :: is) := h.pick [i]

theorem third (h : Sep m π hole (i :: j :: k :: is)) : Sep m π hole (k :: i :: j :: is) := h.pick [i, j]

theorem fourth (h : Sep m π hole (i :: j :: k :: l :: is)) : Sep m π hole (l :: i :: j :: k :: is) := h.pick [i, j, k]

theorem fifth (h : Sep m π hole (i :: j :: k :: l :: o :: is)) : Sep m π hole (o :: i :: j :: k :: l :: is) :=
  h.pick [i, j, k, l]

theorem sixth (h : Sep m π hole (i :: j :: k :: l :: o :: q :: is)) : Sep m π hole (q :: i :: j :: k :: l :: o :: is) :=
  h.pick [i, j, k, l, o]

theorem cell (h : Sep m π hole (.cell a n :: is)) : m.node a = n := h.holds _ List.mem_cons_self

theorem tree (h : Sep m π hole (.tree up t :: is)) : Holds m up t := h.holds _ List.mem_cons_self

/-- A node that is nowhere in the tree. -/
theorem fresh (h : Sep m π hole is) (ha : a ∉ is.flatMap Item.nodes ++ Path.nodes π) :
    Sep m π hole (.cell a (m.node a) :: is) := by
  refine ⟨h.around, ?_, List.nodup_cons.mpr ⟨ha, h.nodup⟩⟩
  simp only [List.mem_cons, forall_eq_or_imp]
  exact ⟨rfl, h.holds⟩

theorem tail (h : Sep m π hole (i :: is)) : Sep m π hole is := by
  refine ⟨h.around, fun j hj => h.holds j (List.mem_cons_of_mem i hj), ?_⟩
  have hnd := h.nodup
  rw [List.flatMap_cons, List.append_assoc] at hnd
  exact hnd.of_append_right

/-- What is written to the first item changes no other. -/
theorem update (h : Sep m π hole (i :: is)) (hroot : m'.rbNode = m.rbNode) (heq : ∀ a, a ∉ i.nodes → m'.node a = m.node a)
    (hnodes : j.nodes = i.nodes) (hj : j.Holds m') : Sep m' π hole (j :: is) := by
  have hnd := h.nodup
  rw [List.flatMap_cons, List.append_assoc] at hnd
  have hdisj (a : ν) (ha : a ∈ is.flatMap Item.nodes ++ Path.nodes π) : m'.node a = m.node a :=
    heq a fun hmem => List.disjoint_of_nodup_append hnd hmem ha
  constructor
  · exact h.around.congr hroot fun a ha => hdisj a (List.mem_append_right _ ha)
  · rintro k hk
    rcases List.mem_cons.mp hk with rfl | hk
    · exact hj
    · refine (h.holds k (List.mem_cons_of_mem i hk)).congr fun a ha => hdisj a (List.mem_append_left _ ?_)
      exact List.mem_flatMap.mpr ⟨k, hk, ha⟩
  · rw [List.flatMap_cons, List.append_assoc, hnodes]
    exact hnd

theorem tree_iff : Sep m π hole (.tree up (BinTree.sided s c near a far) :: is) ↔
    Sep m π hole (.cell a (linked up c s near.root? far.root?) :: .tree (some a) near :: .tree (some a) far :: is) := by
  have hperm : (BinTree.sided s c near a far).inorder.Perm (a :: (near.inorder ++ far.inorder)) := by
    cases s with
    | left => exact List.perm_middle
    | right => exact List.perm_middle.trans (List.Perm.cons a List.perm_append_comm)
  have hnodes : ((BinTree.sided s c near a far).inorder ++ is.flatMap Item.nodes ++ Path.nodes π).Perm
      (a :: (near.inorder ++ (far.inorder ++ is.flatMap Item.nodes)) ++ Path.nodes π) := by
    rw [← List.append_assoc near.inorder]
    exact (hperm.append_right _).append_right _
  constructor
  · intro h
    obtain ⟨ha, hn, hf⟩ := holds_sided.mp h.tree
    refine ⟨h.around, ?_, hnodes.nodup_iff.mp h.nodup⟩
    simp only [List.mem_cons, forall_eq_or_imp]
    exact ⟨ha, hn, hf, h.tail.holds⟩
  · intro h
    refine ⟨h.around, ?_, hnodes.nodup_iff.mpr h.nodup⟩
    simp only [List.mem_cons, forall_eq_or_imp]
    exact ⟨holds_sided.mpr ⟨h.cell, h.tail.tree, h.tail.tail.tree⟩, h.tail.tail.tail.holds⟩

theorem node_iff {l r : BinTree ν} : Sep m π hole (.tree up (.node c l a r) :: is) ↔
    Sep m π hole (.cell a (linked up c .left l.root? r.root?) :: .tree (some a) l :: .tree (some a) r :: is) :=
  tree_iff (s := .left)

theorem nil_tree : Sep m π hole (.tree up .nil :: is) ↔ Sep m π hole is := by
  constructor
  · exact fun h => h.tail
  · intro h
    refine ⟨h.around, ?_, h.nodup⟩
    simp only [List.mem_cons, forall_eq_or_imp]
    exact ⟨trivial, h.holds⟩

theorem cons_iff : Sep m (f :: π) hole is ↔ Sep m π (some f.val)
    (.cell f.val (linked (Path.up π) f.color f.side hole f.sibling.root?) :: .tree (some f.val) f.sibling :: is) := by
  have hperm : (is.flatMap Item.nodes ++ Path.nodes (f :: π)).Perm
      (f.val :: (f.sibling.inorder ++ is.flatMap Item.nodes) ++ Path.nodes π) := by
    refine (List.Perm.append_left _ (Path.nodes_cons_perm f π)).trans (List.perm_middle.trans (List.Perm.cons _ ?_))
    rw [← List.append_assoc]
    exact List.perm_append_comm.append_right _
  constructor
  · intro h
    obtain ⟨hf, hs, hπ⟩ := h.around
    refine ⟨hπ, ?_, hperm.nodup_iff.mp h.nodup⟩
    simp only [List.mem_cons, forall_eq_or_imp]
    exact ⟨hf, hs, h.holds⟩
  · intro h
    exact ⟨⟨h.cell, h.tail.tree, h.around⟩, h.tail.tail.holds, hperm.nodup_iff.mpr h.nodup⟩

theorem segment_nil : Sep m π hole (.segment up [] x :: is) ↔ Sep m π hole is := by
  constructor
  · exact fun h => h.tail
  · intro h
    refine ⟨h.around, ?_, h.nodup⟩
    simp only [List.mem_cons, forall_eq_or_imp]
    exact ⟨trivial, h.holds⟩

theorem segment_cons {ρ : Path ν} : Sep m π hole (.segment up (f :: ρ) x :: is) ↔ Sep m π hole
    (.cell f.val (linked ((Path.up ρ).or up) f.color f.side x f.sibling.root?) :: .tree (some f.val) f.sibling ::
      .segment up ρ (some f.val) :: is) := by
  have hnodes : (Path.nodes (f :: ρ) ++ is.flatMap Item.nodes ++ Path.nodes π).Perm
      (f.val :: (f.sibling.inorder ++ (Path.nodes ρ ++ is.flatMap Item.nodes)) ++ Path.nodes π) := by
    refine List.Perm.append_right _ ?_
    rw [← List.append_assoc, ← List.cons_append]
    exact List.Perm.append_right _ (Path.nodes_cons_perm f ρ)
  constructor
  · intro h
    obtain ⟨hf, hs, hρ⟩ := h.holds _ List.mem_cons_self
    refine ⟨h.around, ?_, hnodes.nodup_iff.mp h.nodup⟩
    simp only [List.mem_cons, forall_eq_or_imp]
    exact ⟨hf, hs, hρ, h.tail.holds⟩
  · intro h
    refine ⟨h.around, ?_, hnodes.nodup_iff.mpr h.nodup⟩
    simp only [List.mem_cons, forall_eq_or_imp]
    exact ⟨⟨h.cell, h.tail.tree, h.tail.tail.holds _ List.mem_cons_self⟩, h.tail.tail.tail.holds⟩

/-- A subtree is taken apart at a place inside it. -/
theorem plug_iff {ρ : Path ν} : Sep m π hole (.tree up (Path.plug ρ t) :: is) ↔
    Sep m π hole (.segment up ρ t.root? :: .tree ((Path.up ρ).or up) t :: is) := by
  induction ρ generalizing t with
  | nil => exact segment_nil.symm
  | cons f ρ ih =>
      rw [Path.plug_cons, ih, Frame.fill, BinTree.root?_sided, segment_cons]
      refine ⟨fun h => ?_, fun h => ?_⟩
      · exact (tree_iff.mp h.second).fourth.fourth.third
      · exact (tree_iff.mpr h.fourth.second).second

/-- A path is taken apart at one of its frames. -/
theorem append_iff {ρ : Path ν} : Sep m (ρ ++ f :: π) hole is ↔ Sep m π (some f.val)
    (.cell f.val (linked (Path.up π) f.color f.side (Path.top ρ hole) f.sibling.root?) ::
      .tree (some f.val) f.sibling :: .segment (some f.val) ρ hole :: is) := by
  induction ρ generalizing hole is with
  | nil =>
      refine cons_iff.trans ⟨fun h => ?_, fun h => ?_⟩
      · exact (segment_nil.mpr h).third.third
      · exact segment_nil.mp h.third
  | cons g ρ ih =>
      have hup : Path.up (ρ ++ f :: π) = (Path.up ρ).or (some f.val) := Path.up_append ..
      rw [List.cons_append, cons_iff, ih, hup]
      refine ⟨fun h => ?_, fun h => ?_⟩
      · exact (segment_cons.mpr h.third.fifth.fifth).third.third
      · exact (segment_cons.mp h.third).third.fifth.fifth

end Sep

/-- A memory is taken apart at a place of its tree. -/
theorem stored_plug : Stored m (Path.plug π t) ↔ Sep m π t.root? [.tree (Path.up π) t] := by
  induction π generalizing t with
  | nil =>
      constructor
      · intro h
        refine ⟨h.rbNode, ?_, ?_⟩
        · simp only [List.mem_singleton, forall_eq]
          exact h.holds
        · simpa [Item.nodes, Path.nodes, Path.before, Path.after] using h.nodup
      · intro h
        refine ⟨h.around, h.tree, ?_⟩
        simpa [Item.nodes, Path.nodes, Path.before, Path.after] using h.nodup
  | cons f π ih =>
      rw [Path.plug_cons, ih, Frame.fill, BinTree.root?_sided, Sep.tree_iff, Sep.cons_iff]
      constructor
      · exact fun h => h.perm (List.Perm.cons _ (List.Perm.swap ..))
      · exact fun h => h.perm (List.Perm.cons _ (List.Perm.swap ..))

theorem stored_iff : Stored m t ↔ Sep m [] t.root? [.tree none t] := by
  have hplug : Stored m (Path.plug [] t) ↔ Sep m [] t.root? [.tree (Path.up []) t] := stored_plug
  exact hplug

section Reads

theorem ends_child {Q : Option ν → RbRoot ν → Prop} (h : Sep m π hole (.cell a (linked up c s x y) :: is)) (k : Q x m) :
    (child (sideOf s) a).Ends B Q m := by
  rw [child, ends_fetch, h.cell, linked_child]
  exact k

theorem ends_child_other {Q : Option ν → RbRoot ν → Prop} (h : Sep m π hole (.cell a (linked up c s x y) :: is))
    (k : Q y m) : (child (sideOf s).other a).Ends B Q m := by
  rw [child, ends_fetch, h.cell, linked_child_other]
  exact k

theorem ends_rbParent {Q : Option ν → RbRoot ν → Prop} (h : Sep m π hole (.cell a (linked up c s x y) :: is)) (k : Q up m) :
    (rbParent a).Ends B Q m := by
  rw [rbParent, ends_fetch, h.cell, linked_rbParent]
  exact k

theorem ends_rbIsBlack {Q : Bool → RbRoot ν → Prop} (h : Sep m π hole (.cell a (linked up c s x y) :: is))
    (k : Q (decide (c = .black)) m) : (rbIsBlack a).Ends B Q m := by
  rw [rbIsBlack, ends_fetch, h.cell, linked_black]
  exact k

theorem ends_parentColor {Q : Option ν × Bool → RbRoot ν → Prop} (h : Sep m π hole (.cell a (linked up c s x y) :: is))
    (k : Q (up, decide (c = .black)) m) : (parentColor a).Ends B Q m := by
  rw [parentColor, ends_fetch, h.cell, linked_rbParent, linked_black]
  exact k

theorem ends_redNode {Q : Bool → RbRoot ν → Prop} (h : Sep m π hole (.tree up t :: is))
    (k : Q (decide (t.color = .red)) m) :
    (redNode t.root?).Ends B Q m := by
  cases t with
  | nil => exact (ends_pure false).mpr k
  | node c l a r =>
      refine (ends_map _).mpr (ends_rbIsBlack (Sep.node_iff.mp h) ?_)
      cases c <;> exact k

end Reads

variable [DecidableEq ν]

section Memory

variable {b : ν}

@[simp] theorem setNode_rbNode : (m.setNode a n).rbNode = m.rbNode := rfl

@[simp] theorem setNode_self : (m.setNode a n).node a = n := Function.update_self ..

theorem setNode_of_ne (h : b ≠ a) : (m.setNode a n).node b = m.node b := Function.update_of_ne h ..

end Memory

theorem Sep.store (h : Sep m π hole (.cell a n :: is)) (n' : RbNode ν) :
    Sep (m.setNode a n') π hole (.cell a n' :: is) :=
  h.update rfl (fun b hb => setNode_of_ne (by simpa [Item.nodes] using hb)) rfl setNode_self

section Writes

variable {Q : Unit → RbRoot ν → Prop}

theorem ends_setChild (h : Sep m π hole (.cell a (linked up c s x y) :: is))
    (k : ∀ m, Sep m π hole (.cell a (linked up c s z y) :: is) → Q () m) : (setChild (sideOf s) a z).Ends B Q m := by
  rw [setChild, ends_store, RbRoot.setLink, h.cell, linked_setChild]
  exact k _ (h.store _)

theorem ends_setChild_other (h : Sep m π hole (.cell a (linked up c s x y) :: is))
    (k : ∀ m, Sep m π hole (.cell a (linked up c s x z) :: is) → Q () m) : (setChild (sideOf s).other a z).Ends B Q m := by
  rw [setChild, ends_store, RbRoot.setLink, h.cell, linked_setChild_other]
  exact k _ (h.store _)

theorem ends_setParentColor (c' : SearchTree.Color) (h : Sep m π hole (.cell a (linked up c s x y) :: is))
    (k : ∀ m, Sep m π hole (.cell a (linked z c' s x y) :: is) → Q () m) :
    (rbSetParentColor a z (decide (c' = .black))).Ends B Q m := by
  rw [rbSetParentColor, ends_store, h.cell, linked_setParentColor]
  exact k _ (h.store _)

theorem ends_setParent (h : Sep m π hole (.cell a (linked up c s x y) :: is))
    (k : ∀ m, Sep m π hole (.cell a (linked z c s x y) :: is) → Q () m) : (rbSetParent a z).Ends B Q m := by
  rw [rbSetParent, ends_store, h.cell, linked_setParent]
  exact k _ (h.store _)

theorem ends_setBlack (h : Sep m π hole (.cell a (linked up c s x y) :: is))
    (k : ∀ m, Sep m π hole (.cell a (linked up .black s x y) :: is) → Q () m) : (rbSetBlack a).Ends B Q m := by
  have hblack : { linked up c s x y with black := true } = linked up .black s x y := by cases s <;> rfl
  rw [rbSetBlack, ends_store, h.cell, hblack]
  exact k _ (h.store _)

theorem ends_setParentColor_tree (c' : SearchTree.Color) (h : Sep m π hole (.tree up (BinTree.sided s c near a far) :: is))
    (k : ∀ m, Sep m π hole (.tree z (BinTree.sided s c' near a far) :: is) → Q () m) :
    (rbSetParentColor a z (decide (c' = .black))).Ends B Q m := by
  refine ends_setParentColor c' (Sep.tree_iff.mp h) fun m h => ?_
  exact k m (Sep.tree_iff.mpr h)

theorem ends_blacken (h : Sep m π hole (.tree up t :: is))
    (k : ∀ m, Sep m π hole (.tree (some a) (t.paint .black) :: is) → Q () m) : (blacken t.root? a).Ends B Q m := by
  cases t with
  | nil => exact (ends_pure ()).mpr (k m (Sep.nil_tree.mpr h.tail))
  | node c l b r => exact ends_setParentColor_tree (s := .left) .black h k

/-- `if (tmp2) rb_set_parent(tmp2, parent)`, and what comes behind it. -/
theorem ends_setParent_tree {β : Type} {Q : β → RbRoot ν → Prop} {next : Straight (RbRoot ν) β}
    (h : Sep m π hole (.tree up t :: is)) (k : ∀ m, Sep m π hole (.tree z t :: is) → next.Ends B Q m) :
    (match t.root? with
      | some r => do
        rbSetParent r z
        next
      | none => next).Ends B Q m := by
  cases t with
  | nil => exact k m (Sep.nil_tree.mpr h.tail)
  | node c l b r =>
      refine ends_bind.mpr (ends_setParent (Sep.node_iff.mp h) fun m h => ?_)
      exact k m (Sep.node_iff.mpr h)

/-- The link to the place of a path is changed. -/
theorem ends_changeChild (h : Sep m π (some old) (.cell old n :: is))
    (k : ∀ m, Sep m π x (.cell old n :: is) → Q () m) : (rbChangeChild old x (Path.up π)).Ends B Q m := by
  cases π with
  | nil =>
      refine (ends_store _).mpr (k _ ⟨rfl, fun i hi => ?_, h.nodup⟩)
      exact (h.holds i hi).congr fun _ _ => rfl
  | cons f π =>
      have hcons := Sep.cons_iff.mp h
      have hne : f.sibling.root? ≠ some old := Sep.ne_of_cell hcons.tail.second
      obtain ⟨side, c', v, sib⟩ := f
      change (do if (← child .left v) = some old then setChild .left v x else setChild .right v x).Ends B Q m
      cases side with
      | left =>
          refine ends_bind.mpr (ends_child (s := .left) hcons ?_)
          rw [if_pos rfl]
          exact ends_setChild (s := .left) hcons fun m h => k m (Sep.cons_iff.mpr h)
      | right =>
          refine ends_bind.mpr (ends_child_other (s := .right) hcons ?_)
          rw [if_neg hne]
          exact ends_setChild (s := .right) hcons fun m h => k m (Sep.cons_iff.mpr h)

/-- `__rb_rotate_set_parents`: the new node takes the place of the old one. -/
theorem ends_rotateSetParents {c' : SearchTree.Color} {s' : SearchTree.Side} {up' x' y' : Option ν} (c'' : SearchTree.Color)
    (h : Sep m π (some old) (.cell old (linked (Path.up π) c s x y) :: .cell new (linked up' c' s' x' y') :: is))
    (k : ∀ m, Sep m π (some new) (.cell old (linked (some new) c'' s x y) ::
      .cell new (linked (Path.up π) c s' x' y') :: is) → Q () m) :
    (rbRotateSetParents old new (decide (c'' = .black))).Ends B Q m := by
  refine ends_bind.mpr (ends_rbParent h ?_)
  refine ends_bind.mpr ((ends_store _).mpr ?_)
  have hstore := h.second.store (linked (Path.up π) c s' x' y')
  rw [h.cell, linked_rbParent, linked_black, h.second.cell, linked_setParentColor]
  refine ends_bind.mpr (ends_setParentColor c'' hstore.second fun m h => ?_)
  exact ends_changeChild h k

end Writes

end Slos.RbTree
