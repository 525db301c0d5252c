import Slos.RbErase

/-!
# Walks over a red-black tree

The functions of `rbtree.c` that read the links without changing them: the first and the last node, the neighbours of a
node on either side, and the walk in postorder; and `rb_replace_node`, which puts a new node in the place of another. The
two directions are one definition with the side as a parameter.
-/

namespace Slos.RbTree
open Interruptible Straight
open SearchTree (BinTree Frame Path)

variable {ν : Type}

/-- `while (n->rb_left) n = n->rb_left`, and the same on the right. -/
def deepRound (side : Side) (n : ν) : Straight (RbRoot ν) (ν ⊕ Option ν) := do
  match ← child side n with
  | some c => return .inl c
  | none => return .inr (some n)

def outermost (side : Side) : Straight (RbRoot ν) (Option ν) := do
  match ← readLink none with
  | none => return none
  | some n => iterate (deepRound side) n

def rbFirst : Straight (RbRoot ν) (Option ν) := outermost .left

def rbLast : Straight (RbRoot ν) (Option ν) := outermost .right

section Neighbour

variable [DecidableEq ν]

/-- `while ((parent = rb_parent(node)) && node == parent->rb_right) node = parent`, and the same on the left. -/
def climbRound (side : Side) (node : ν) : Straight (RbRoot ν) (ν ⊕ Option ν) := do
  match ← rbParent node with
  | none => return .inr none
  | some parent =>
    if (← child side parent) = some node then return .inl parent
    else return .inr (some parent)

def neighbour (side : Side) (node : ν) : Straight (RbRoot ν) (Option ν) := do
  if (← parentColor node) = (some node, false) then return none
  match ← child side node with
  | some c => iterate (deepRound side.other) c
  | none => iterate (climbRound side) node

def rbPrev (node : ν) : Straight (RbRoot ν) (Option ν) := neighbour .left node

end Neighbour

/-- A round of `rb_left_deepest_node`. -/
def leftDeepestRound (node : ν) : Straight (RbRoot ν) (ν ⊕ Option ν) := do
  match ← child .left node with
  | some l => return .inl l
  | none =>
    match ← child .right node with
    | some r => return .inl r
    | none => return .inr (some node)

def rbLeftDeepestNode (node : ν) : Straight (RbRoot ν) (Option ν) := iterate leftDeepestRound node

def rbFirstPostorder : Straight (RbRoot ν) (Option ν) := do
  match ← readLink none with
  | none => return none
  | some n => rbLeftDeepestNode n

def rbNextPostorder [DecidableEq ν] (node : ν) : Straight (RbRoot ν) (Option ν) := do
  match ← rbParent node with
  | none => return none
  | some parent =>
    if (← child .left parent) = some node then
      match ← child .right parent with
      | some r => rbLeftDeepestNode r
      | none => return some parent
    else return some parent

def rbReplaceNode [DecidableEq ν] (victim new : ν) : Straight (RbRoot ν) Unit := do
  let parent ← rbParent victim
  rbChangeChild victim (some new) parent
  match ← child .left victim with
  | some l => rbSetParent l (some new)
  | none => pure ()
  match ← child .right victim with
  | some r => rbSetParent r (some new)
  | none => pure ()
  store fun m => m.setNode new (m.node victim)

variable {m : RbRoot ν} {π : Path ν} {f : Frame ν} {t l r : BinTree ν} {a x : ν} {c : SearchTree.Color} {up : Option ν}
  {s : SearchTree.Side} {is : List (Item ν)} {B n : ℕ}

/-- What a read returns, with the memory as it was. -/
def Reads (B : ℕ) (r : Straight (RbRoot ν) (Option ν)) (v : Option ν) (m : RbRoot ν) : Prop :=
  r.Ends B (fun b m' => b = v ∧ m' = m) m

/-- What a loop of reads returns within `n` rounds. -/
def LoopReads (B n : ℕ) (body : ν → Straight (RbRoot ν) (ν ⊕ Option ν)) (b : ν) (v : Option ν) (m : RbRoot ν) : Prop :=
  LoopEnds B n body b (fun b m' => b = v ∧ m' = m) m

theorem toward_ne_nil {s : SearchTree.Side} (ht : t ≠ .nil) : Path.toward s t ≠ [] := by
  cases t with
  | nil => exact absurd rfl ht
  | node c l a r => cases s <;> simp [Path.toward]

theorem reads_deep (hn : t.height ≤ n) (h : Holds m up t) (ht : t.root? = some a) :
    LoopReads B n (deepRound (sideOf s)) a (Path.toward s.other t).head? m := by
  induction t generalizing up a n with
  | nil => cases ht
  | node c l v r ihl ihr =>
      obtain rfl : v = a := Option.some.inj ht
      obtain ⟨n, rfl⟩ := Nat.exists_eq_succ_of_ne_zero (Nat.ne_zero_of_lt hn)
      rw [BinTree.height] at hn
      have hchild : (m.node v).child (sideOf s) = ((BinTree.node c l v r).child s).root? := by
        rw [h.1]
        cases s <;> rfl
      have ih (b : ν) (hb : ((BinTree.node c l v r).child s).root? = some b) :
          LoopReads B n (deepRound (sideOf s)) b (Path.toward s.other ((BinTree.node c l v r).child s)).head? m := by
        cases s with
        | left => exact ihl (by omega) h.2.1 hb
        | right => exact ihr (by omega) h.2.2 hb
      refine loopEnds_succ.mpr ?_
      simp only [deepRound, ends_bind, child, ends_fetch, hchild]
      rw [Path.toward_node_other]
      cases hu : (BinTree.node c l v r).child s with
      | nil => exact (ends_pure _).mpr ⟨by cases s <;> rfl, rfl⟩
      | node c' l' b r' =>
          rw [hu] at ih
          rw [List.head?_append_of_ne_nil _ (toward_ne_nil (by simp))]
          exact (ends_pure _).mpr (ih b rfl)

theorem reads_outermost (hB : t.height ≤ B) (hm : Stored m t) :
    Reads B (outermost (sideOf s)) (Path.toward s.other t).head? m := by
  simp only [Reads, outermost, readLink, ends_bind, ends_fetch, RbRoot.link]
  rw [hm.rbNode]
  cases t with
  | nil => exact (ends_pure _).mpr ⟨by cases s <;> rfl, rfl⟩
  | node c l a r => exact ends_iterate.mpr (reads_deep hB hm.holds rfl)

theorem ends_rbParent_tree {Q : Option ν → RbRoot ν → Prop} {hole : Option ν} (hx : t.root? = some x)
    (h : Sep m π hole (.tree up t :: is)) (k : Q up m) : (rbParent x).Ends B Q m := by
  cases t with
  | nil => cases hx
  | node c l v r =>
      obtain rfl : v = x := Option.some.inj hx
      exact ends_rbParent (Sep.node_iff.mp h) k

/-- A node that is in a tree is not its own parent. -/
theorem up_ne {hole : Option ν} {n : RbNode ν} (h : Sep m π hole (.cell x n :: is)) : Path.up π ≠ some x := by
  cases π with
  | nil => exact nofun
  | cons f π =>
      intro hup
      have hnd := (Sep.cons_iff.mp h).nodup
      rw [← Option.some.inj hup] at hnd
      simp [Item.nodes] at hnd

section Neighbour

variable [DecidableEq ν]

theorem reads_climb (hn : π.length < n) (hx : t.root? = some x) (h : Sep m π (some x) [.tree (Path.up π) t]) :
    LoopReads B n (climbRound (sideOf s)) x (Path.beyond s π).head? m := by
  obtain ⟨n, rfl⟩ := Nat.exists_eq_succ_of_ne_zero (Nat.ne_zero_of_lt hn)
  induction π generalizing t x n with
  | nil =>
      refine loopEnds_succ.mpr (ends_bind.mpr (ends_rbParent_tree hx h ?_))
      exact (ends_pure _).mpr ⟨by cases s <;> rfl, rfl⟩
  | cons f π ih =>
      have hcons := Sep.cons_iff.mp h
      have hne : f.sibling.root? ≠ some x := Sep.ne_of_tree hcons.third.third.second hx
      refine loopEnds_succ.mpr (ends_bind.mpr (ends_rbParent_tree hx h ?_))
      rw [Path.beyond_cons]
      by_cases hs : f.side = s
      · subst hs
        rw [if_pos rfl]
        refine ends_bind.mpr (ends_child hcons ?_)
        rw [if_pos rfl]
        have hlen : π.length + 1 < n + 1 := hn
        obtain ⟨n, rfl⟩ := Nat.exists_eq_succ_of_ne_zero (show n ≠ 0 by omega)
        have hfill : (f.fill t).root? = some f.val := BinTree.root?_sided ..
        refine (ends_pure _).mpr (ih hfill (Sep.tree_iff.mpr ?_) n (by omega))
        rw [hx]
        exact hcons.third.second
      · rw [if_neg hs]
        rw [SearchTree.Side.eq_other_of_ne hs, ← linked_other, SearchTree.Side.other_other] at hcons
        refine ends_bind.mpr (ends_child hcons ?_)
        rw [if_neg hne]
        exact (ends_pure _).mpr ⟨rfl, rfl⟩

theorem reads_neighbour (hB : (Path.plug π (.node c l x r)).height ≤ B) (hm : Stored m (Path.plug π (.node c l x r))) :
    Reads B (neighbour (sideOf s) x) (Path.toward s ((BinTree.node c l x r).child s) ++ Path.beyond s π).head? m := by
  have hheight := (Path.length_add_height_le π (.node c l x r)).trans hB
  rw [BinTree.height] at hheight
  have htree := stored_plug.mp hm
  have h := Sep.node_iff.mp htree
  have hchild : (m.node x).child (sideOf s) = ((BinTree.node c l x r).child s).root? := by
    rw [h.cell]
    cases s <;> rfl
  have hholds : Holds m (some x) ((BinTree.node c l x r).child s) ∧ ((BinTree.node c l x r).child s).height ≤ B := by
    cases s with
    | left => exact ⟨htree.tree.2.1, by rw [BinTree.child]; omega⟩
    | right => exact ⟨htree.tree.2.2, by rw [BinTree.child]; omega⟩
  simp only [Reads, neighbour, ends_bind, ends_ite]
  refine ends_parentColor h ?_
  rw [if_neg fun heq => up_ne h (congrArg Prod.fst heq)]
  rw [child, ends_fetch, hchild]
  cases hu : (BinTree.node c l x r).child s with
  | nil =>
      have hnil : Path.toward s (BinTree.nil : BinTree ν) = [] := by cases s <;> rfl
      rw [hnil]
      exact ends_iterate.mpr (reads_climb (by omega) rfl htree)
  | node c' l' a r' =>
      rw [hu] at hholds
      rw [List.head?_append_of_ne_nil _ (toward_ne_nil (by simp))]
      have hdeep := reads_deep (B := B) (s := s.other) hholds.2 hholds.1 rfl
      rw [SearchTree.Side.other_other, ← sideOf_other] at hdeep
      exact ends_iterate.mpr hdeep

omit [DecidableEq ν] in
theorem split_unique {xs ys xs' ys' : List ν} (hnd : (xs ++ x :: ys).Nodup) (h : xs ++ x :: ys = xs' ++ x :: ys') :
    xs = xs' ∧ ys = ys' := by
  have hxs : x ∉ xs := fun hx => List.disjoint_of_nodup_append hnd hx List.mem_cons_self
  have hys : x ∉ ys := (List.nodup_cons.mp hnd.of_append_right).1
  obtain ⟨hl, -, hr⟩ := (List.append_cons_inj_of_notMem hxs hys).mp h
  exact ⟨hl, hr⟩

/-- A node of a stored tree, with the nodes before and behind it. -/
theorem reads_neighbours {xs ys : List ν} (hB : t.height ≤ B) (hm : Stored m t) (ht : t.inorder = xs ++ x :: ys) :
    Reads B (rbNext x) ys.head? m ∧ Reads B (rbPrev x) xs.reverse.head? m := by
  have hx : x ∈ t.inorder := by
    rw [ht]
    simp
  obtain ⟨π, c, l, r, rfl⟩ := SearchTree.exists_plug hx
  have hsplit : (Path.plug π (.node c l x r)).inorder =
      (Path.before π ++ l.inorder) ++ x :: (r.inorder ++ Path.after π) := by
    rw [Path.inorder_plug]
    simp
  obtain ⟨rfl, rfl⟩ := split_unique (hsplit ▸ hm.nodup) (hsplit.symm.trans ht)
  constructor
  · exact reads_neighbour (s := .right) hB hm
  · have hprev := reads_neighbour (s := .left) hB hm
    rw [List.reverse_append]
    exact hprev

theorem reads_rbNext (hB : t.height ≤ B) (hm : Stored m t) (hx : x ∈ t.inorder) : Reads B (rbNext x) (t.next x) m := by
  obtain ⟨xs, ys, ht⟩ := List.append_of_mem hx
  have hnd := hm.nodup
  rw [ht] at hnd
  have hxs : x ∉ xs := fun h => List.disjoint_of_nodup_append hnd h List.mem_cons_self
  rw [BinTree.next, ht, BinTree.after_append_cons hxs]
  exact (reads_neighbours hB hm ht).1

end Neighbour

section Postorder

theorem reads_leftDeepest (hn : t.height ≤ n) (h : Holds m up t) (ht : t.root? = some a) :
    LoopReads B n leftDeepestRound a t.postorder.head? m := by
  induction t generalizing up a n with
  | nil => cases ht
  | node c l v r ihl ihr =>
      obtain rfl : v = a := Option.some.inj ht
      obtain ⟨n, rfl⟩ := Nat.exists_eq_succ_of_ne_zero (Nat.ne_zero_of_lt hn)
      rw [BinTree.height] at hn
      obtain ⟨hv, hl, hr⟩ := h
      refine loopEnds_succ.mpr ?_
      simp only [leftDeepestRound, ends_bind, child, ends_fetch, hv, RbNode.child, linked]
      cases l with
      | node cl ll b lr =>
          have hne : (BinTree.node cl ll b lr).postorder ≠ [] := by simp [BinTree.postorder]
          rw [BinTree.postorder, List.append_assoc, List.head?_append_of_ne_nil _ hne]
          exact (ends_pure _).mpr (ihl (by omega) hl rfl)
      | nil =>
          refine ends_bind.mpr ((ends_fetch _).mpr ?_)
          rw [hv]
          cases r with
          | node cr rl b rr =>
              have hne : (BinTree.node cr rl b rr).postorder ≠ [] := by simp [BinTree.postorder]
              rw [BinTree.postorder, BinTree.postorder, List.nil_append, List.head?_append_of_ne_nil _ hne]
              exact (ends_pure _).mpr (ihr (by omega) hr rfl)
          | nil => exact (ends_pure _).mpr ⟨rfl, rfl⟩

theorem reads_firstPostorder (hB : t.height ≤ B) (hm : Stored m t) : Reads B rbFirstPostorder t.postorder.head? m := by
  simp only [Reads, rbFirstPostorder, readLink, ends_bind, ends_fetch, RbRoot.link]
  rw [hm.rbNode]
  cases t with
  | nil => exact (ends_pure _).mpr ⟨rfl, rfl⟩
  | node c l a r => exact ends_iterate.mpr (reads_leftDeepest hB hm.holds rfl)

variable [DecidableEq ν]

theorem reads_nextPostorder (hB : (Path.plug π t).height ≤ B) (hx : t.root? = some x)
    (h : Sep m π (some x) [.tree (Path.up π) t]) : Reads B (rbNextPostorder x) (Path.later π).head? m := by
  refine ends_bind.mpr (ends_rbParent_tree hx h ?_)
  cases π with
  | nil => exact (ends_pure _).mpr ⟨rfl, rfl⟩
  | cons f π =>
      have hcons := Sep.cons_iff.mp h
      have hne : f.sibling.root? ≠ some x := Sep.ne_of_tree hcons.third.third.second hx
      obtain ⟨side, c, v, sib⟩ := f
      simp only [Path.up_cons, ends_bind, ends_ite]
      cases side with
      | left =>
          refine ends_child (s := .left) hcons ?_
          rw [if_pos rfl]
          refine ends_child_other (s := .left) hcons ?_
          cases sib with
          | nil => exact (ends_pure _).mpr ⟨rfl, rfl⟩
          | node cs l b r =>
              have hne : (BinTree.node cs l b r).postorder ≠ [] := by simp [BinTree.postorder]
              rw [Path.later, List.head?_append_of_ne_nil _ hne]
              have hheight := (Path.length_add_height_le π (.node c t v (.node cs l b r))).trans hB
              rw [BinTree.height] at hheight
              exact ends_iterate.mpr (reads_leftDeepest (by omega) hcons.second.tree rfl)
      | right =>
          refine ends_child_other (s := .right) hcons ?_
          rw [if_neg hne]
          exact (ends_pure _).mpr ⟨rfl, rfl⟩

theorem reads_postorder {xs ys : List ν} (hB : t.height ≤ B) (hm : Stored m t) (ht : t.postorder = xs ++ x :: ys) :
    Reads B (rbNextPostorder x) ys.head? m := by
  have hx : x ∈ t.inorder := by
    rw [← t.perm_postorder.mem_iff, ht]
    simp
  obtain ⟨π, c, l, r, rfl⟩ := SearchTree.exists_plug hx
  have hsplit : (Path.plug π (.node c l x r)).postorder =
      (Path.earlier π ++ (l.postorder ++ r.postorder)) ++ x :: Path.later π := by
    rw [Path.postorder_plug, BinTree.postorder]
    simp
  have hnd := (BinTree.perm_postorder _).nodup_iff.mpr hm.nodup
  obtain ⟨-, rfl⟩ := split_unique (hsplit ▸ hnd) (hsplit.symm.trans ht)
  exact reads_nextPostorder hB rfl (stored_plug.mp hm)

end Postorder

section Loop

/-- A round of `for (pos = first(root); pos; pos = next(pos))`, with the nodes seen so far. -/
def visitRound (next : ν → Straight (RbRoot ν) (Option ν)) :
    Option ν × List ν → Straight (RbRoot ν) ((Option ν × List ν) ⊕ List ν)
  | (none, seen) => return .inr seen
  | (some pos, seen) => do
    let n ← next pos
    return .inl (n, seen ++ [pos])

/-- The nodes that a loop over a tree visits. -/
def visited (first : Straight (RbRoot ν) (Option ν)) (next : ν → Straight (RbRoot ν) (Option ν)) :
    Straight (RbRoot ν) (List ν) := do
  let pos ← first
  iterate (visitRound next) (pos, [])

/-- Where each node leads to the next one of a list, the loop visits the list. -/
theorem ends_visited {first : Straight (RbRoot ν) (Option ν)} {next : ν → Straight (RbRoot ν) (Option ν)} {as : List ν}
    (hB : as.length < B) (hfirst : Reads B first as.head? m)
    (hnext : ∀ xs x ys, as = xs ++ x :: ys → Reads B (next x) ys.head? m) :
    (visited first next).Ends B (fun l m' => l = as ∧ m' = m) m := by
  have hloop (n : ℕ) (xs ys : List ν) (hn : ys.length < n) (has : as = xs ++ ys) :
      LoopEnds B n (visitRound next) (ys.head?, xs) (fun l m' => l = as ∧ m' = m) m := by
    obtain ⟨n, rfl⟩ := Nat.exists_eq_succ_of_ne_zero (Nat.ne_zero_of_lt hn)
    induction ys generalizing xs n with
    | nil => exact loopEnds_succ.mpr ((ends_pure _).mpr ⟨by rw [has, List.append_nil], rfl⟩)
    | cons x ys ih =>
        rw [List.length_cons] at hn
        obtain ⟨n, rfl⟩ := Nat.exists_eq_succ_of_ne_zero (show n ≠ 0 by omega)
        refine loopEnds_succ.mpr (ends_bind.mpr ((hnext xs x ys has).mono ?_))
        rintro b m' ⟨rfl, rfl⟩
        exact (ends_pure _).mpr (ih (xs ++ [x]) (by rw [has, List.append_assoc, List.singleton_append]) n (by omega))
  refine ends_bind.mpr (hfirst.mono ?_)
  rintro pos m' ⟨rfl, rfl⟩
  exact ends_iterate.mpr (hloop B [] as hB rfl)

variable [DecidableEq ν]

/-- The loops over a tree, forward, backward and in postorder, visit each node once and change nothing. -/
theorem visited_all (hB : t.inorder.length < B) (hm : Stored m t) :
    (visited rbFirst rbNext).Ends B (fun l m' => l = t.inorder ∧ m' = m) m ∧
      (visited rbLast rbPrev).Ends B (fun l m' => l = t.inorder.reverse ∧ m' = m) m ∧
      (visited rbFirstPostorder rbNextPostorder).Ends B (fun l m' => l = t.postorder ∧ m' = m) m := by
  have hheight : t.height ≤ B := t.height_le_length.trans hB.le
  refine ⟨ends_visited hB (reads_outermost (s := .left) hheight hm) ?_,
    ends_visited (by simpa using hB) (reads_outermost (s := .right) hheight hm) ?_,
    ends_visited ?_ (reads_firstPostorder hheight hm) fun xs x ys h => reads_postorder hheight hm h⟩
  · exact fun xs x ys h => (reads_neighbours hheight hm h).1
  · intro xs x ys h
    have hrev : t.inorder = ys.reverse ++ x :: xs.reverse := by
      rw [← List.reverse_reverse t.inorder, h]
      simp
    have hprev := (reads_neighbours hheight hm hrev).2
    rwa [List.reverse_reverse] at hprev
  · rwa [t.perm_postorder.length_eq]

theorem visited_all_leaves :
    (visited rbFirst rbNext).Ends 4 (fun l m => l = [1, 2, 3] ∧ m = leavesRoot) leavesRoot ∧
      (visited rbLast rbPrev).Ends 4 (fun l m => l = [3, 2, 1] ∧ m = leavesRoot) leavesRoot ∧
      (visited rbFirstPostorder rbNextPostorder).Ends 4 (fun l m => l = [1, 3, 2] ∧ m = leavesRoot) leavesRoot :=
  visited_all (by decide) stored_leaves

end Loop

section Replace

variable [DecidableEq ν]

/-- `rb_replace_node` puts a new node in the place of the victim, and the tree keeps its form and its colours. -/
theorem rbReplaceNode_replaces {y : ν} (hm : Stored m (Path.plug π (.node c l x r)))
    (hy : y ∉ (Path.plug π (.node c l x r)).inorder) :
    (rbReplaceNode x y).Ends B (fun _ m' => Stored m' (Path.plug π (.node c l y r))) m := by
  have hfresh : y ∉ [Item.tree (Path.up π) (.node c l x r)].flatMap Item.nodes ++ Path.nodes π := by
    rw [(Path.perm_inorder_plug π _).mem_iff] at hy
    rw [List.flatMap_singleton, List.perm_append_comm.mem_iff]
    exact hy
  have h := (stored_plug.mp hm).fresh hfresh
  have h := (Sep.node_iff.mp h.second).fourth.second
  simp only [rbReplaceNode, ends_bind]
  refine ends_rbParent h (ends_changeChild h fun m h => ?_)
  refine ends_child (s := .left) h ?_
  refine ends_setParent_tree h.third fun m h => ?_
  refine ends_bind.mpr (ends_child_other (s := .left) h.second ?_)
  refine ends_setParent_tree h.fourth fun m h => (ends_store _).mpr ?_
  have hstore := h.fourth.store (m.node x)
  rw [h.third.cell] at hstore ⊢
  exact stored_plug.mpr (Sep.node_iff.mpr hstore.fourth.tail.third.second)

theorem rbReplaceNode_replaces_root : (rbReplaceNode 2 4).Ends 1
    (fun _ m => Stored m (.node .black (.node .red .nil 1 .nil) 4 (.node .red .nil 3 .nil))) leavesRoot := by
  have hroot : Stored leavesRoot (Path.plug [] (.node .black (.node .red .nil 1 .nil) 2 (.node .red .nil 3 .nil))) :=
    stored_leaves
  exact rbReplaceNode_replaces hroot (by decide)

end Replace

end Slos.RbTree
