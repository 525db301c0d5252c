import Slos.SearchTree
import Mathlib.Data.List.Induction

/-!
# Paths in a tree

A path leads from a place in a tree up to its root: the frames of the nodes above the place, the nearest first, each with
its side and its other subtree. `plug` puts a subtree into the place. The two mirrored forms of a node are one, with the
side on which the `near` subtree stands.
-/

namespace SearchTree

inductive Side
  | left
  | right
  deriving DecidableEq

def Side.other : Side → Side
  | .left => .right
  | .right => .left

@[simp] theorem Side.other_other (s : Side) : s.other.other = s := by cases s <;> rfl

@[simp] theorem Side.other_ne (s : Side) : s.other ≠ s := by cases s <;> decide

theorem Side.eq_other_of_ne {s s' : Side} (h : s ≠ s') : s = s'.other := by
  cases s <;> cases s' <;> first | rfl | exact absurd rfl h

namespace BinTree

variable {α : Type*}

def root? : BinTree α → Option α
  | nil => none
  | node _ _ a _ => some a

/-- The leaves are black. -/
def color : BinTree α → Color
  | nil => .black
  | node c _ _ _ => c

def child : Side → BinTree α → BinTree α
  | _, nil => nil
  | .left, node _ l _ _ => l
  | .right, node _ _ _ r => r

def sided : Side → Color → BinTree α → α → BinTree α → BinTree α
  | .left, c, near, a, far => node c near a far
  | .right, c, near, a, far => node c far a near

def postorder : BinTree α → List α
  | nil => []
  | node _ l a r => l.postorder ++ r.postorder ++ [a]

theorem perm_postorder (t : BinTree α) : t.postorder.Perm t.inorder := by
  induction t with
  | nil => rfl
  | node c l a r ihl ihr =>
      rw [postorder, inorder_node, List.append_assoc]
      exact ihl.append ((ihr.append_right [a]).trans (List.perm_append_singleton a _))

variable (s : Side) (c : Color) (near far t : BinTree α) (a : α)

@[simp] theorem root?_sided : (sided s c near a far).root? = some a := by cases s <;> rfl

@[simp] theorem color_sided : (sided s c near a far).color = c := by cases s <;> rfl

@[simp] theorem child_sided : (sided s c near a far).child s = near := by cases s <;> rfl

@[simp] theorem child_other_sided : (sided s c near a far).child s.other = far := by cases s <;> rfl

@[simp] theorem paint_sided (c' : Color) : (sided s c near a far).paint c' = sided s c' near a far := by cases s <;> rfl

@[simp] theorem root?_paint : (t.paint c).root? = t.root? := by cases t <;> rfl

@[simp] theorem color_paint_black : (t.paint .black).color = .black := by cases t <;> rfl

@[simp] theorem child_paint : (t.paint c).child s = t.child s := by cases t <;> cases s <;> rfl

theorem sided_child (l r : BinTree α) :
    sided s c ((node c l a r).child s) a ((node c l a r).child s.other) = node c l a r := by
  cases s <;> rfl

theorem paint_of_color {t : BinTree α} {c : Color} (h : t.color = c) : t.paint c = t := by
  cases t with
  | nil => rfl
  | node c' l a r => exact congrArg (fun c => node c l a r) h.symm

theorem mem_of_root? {t : BinTree α} {a : α} (h : t.root? = some a) : a ∈ t.inorder := by
  cases t with
  | nil => cases h
  | node c l b r =>
      cases h
      simp

/-- A tree that is not empty, seen from a side. -/
theorem exists_sided {t : BinTree α} (h : t ≠ nil) (s : Side) : ∃ c near a far, t = sided s c near a far := by
  cases t with
  | nil => exact absurd rfl h
  | node c l a r => exact ⟨c, _, a, _, (sided_child s c a l r).symm⟩

theorem exists_sided_of_root? {t : BinTree α} {a : α} (h : t.root? = some a) (s : Side) :
    ∃ c near far, t = sided s c near a far := by
  cases t with
  | nil => cases h
  | node c l b r =>
      cases h
      exact ⟨c, _, _, (sided_child s c a l r).symm⟩

theorem ne_nil_of_red {t : BinTree α} (h : t.color = .red) : t ≠ nil := by
  rintro rfl
  cases h

end BinTree

open BinTree

variable {α : Type*}

/-- A node above the place: the place is on `side` of it, and `sibling` is its other subtree. -/
structure Frame (α : Type*) where
  side : Side
  color : Color
  val : α
  sibling : BinTree α

abbrev Path (α : Type*) := List (Frame α)

def Frame.fill (f : Frame α) (t : BinTree α) : BinTree α := sided f.side f.color t f.val f.sibling

namespace Path

def plug : Path α → BinTree α → BinTree α
  | [], t => t
  | f :: π, t => plug π (f.fill t)

/-- The node right above the place. -/
def up (π : Path α) : Option α := π.head?.map Frame.val

/-- The root of what a path leads down from, when `hole` is the root of the subtree in the place. -/
def top : Path α → Option α → Option α
  | [], hole => hole
  | f :: π, _ => top π (some f.val)

/-- The nodes in order before the place. -/
def before : Path α → List α
  | [] => []
  | f :: π => match f.side with
    | .left => before π
    | .right => before π ++ f.sibling.inorder ++ [f.val]

/-- The nodes in order behind the place. -/
def after : Path α → List α
  | [] => []
  | f :: π => match f.side with
    | .left => f.val :: f.sibling.inorder ++ after π
    | .right => after π

@[simp] theorem plug_nil (t : BinTree α) : plug [] t = t := rfl

@[simp] theorem plug_cons (f : Frame α) (π : Path α) (t : BinTree α) : plug (f :: π) t = plug π (f.fill t) := rfl

@[simp] theorem up_cons (f : Frame α) (π : Path α) : up (f :: π) = some f.val := rfl

theorem up_append (ρ π : Path α) : up (ρ ++ π) = (up ρ).or (up π) := by cases ρ <;> rfl

theorem root?_plug (π : Path α) (t : BinTree α) : (plug π t).root? = top π t.root? := by
  induction π generalizing t with
  | nil => rfl
  | cons f π ih =>
      rw [plug_cons, ih, Frame.fill, root?_sided]
      rfl

theorem plug_append (ρ π : Path α) (t : BinTree α) : plug (ρ ++ π) t = plug π (plug ρ t) := by
  induction ρ generalizing t with
  | nil => rfl
  | cons f ρ ih => exact ih (f.fill t)

theorem inorder_plug (π : Path α) (t : BinTree α) : (plug π t).inorder = before π ++ t.inorder ++ after π := by
  induction π generalizing t with
  | nil => exact (List.append_nil _).symm
  | cons f π ih =>
      obtain ⟨side, c, a, sib⟩ := f
      cases side <;> simp [ih, Frame.fill, sided, before, after]

theorem inorder_plug_congr (π : Path α) {t t' : BinTree α} (h : t.inorder = t'.inorder) :
    (plug π t).inorder = (plug π t').inorder := by
  rw [inorder_plug, inorder_plug, h]

/-- The outermost frame has the colour of the root. -/
theorem color_getLast? {π : Path α} {t : BinTree α} {c : Color} (h : (plug π t).color = c) :
    ∀ f ∈ π.getLast?, f.color = c := by
  induction π generalizing t with
  | nil => exact nofun
  | cons f π ih =>
      cases π with
      | nil =>
          rintro g ⟨⟩
          rw [plug_cons, plug_nil, Frame.fill, color_sided] at h
          exact h
      | cons g π => exact ih h

/-- The nodes of the frames and of their subtrees. -/
def nodes (π : Path α) : List α := before π ++ after π

theorem perm_inorder_plug (π : Path α) (t : BinTree α) : (plug π t).inorder.Perm (nodes π ++ t.inorder) := by
  rw [inorder_plug, nodes, List.append_assoc, List.append_assoc]
  exact List.Perm.append_left _ List.perm_append_comm

theorem nodes_cons_perm (f : Frame α) (π : Path α) :
    (nodes (f :: π)).Perm (f.val :: (f.sibling.inorder ++ nodes π)) := by
  obtain ⟨side, c, a, sib⟩ := f
  cases side with
  | left =>
      have hnodes : nodes (⟨.left, c, a, sib⟩ :: π) = before π ++ a :: (sib.inorder ++ after π) := rfl
      rw [hnodes, nodes]
      refine List.perm_middle.trans (List.Perm.cons a ?_)
      rw [← List.append_assoc, ← List.append_assoc]
      exact List.Perm.append_right _ List.perm_append_comm
  | right =>
      have hnodes : nodes (⟨.right, c, a, sib⟩ :: π) = (before π ++ sib.inorder) ++ a :: after π := by
        simp [nodes, before, after]
      rw [hnodes, nodes]
      refine List.perm_middle.trans (List.Perm.cons a ?_)
      rw [← List.append_assoc]
      exact List.Perm.append_right _ List.perm_append_comm

section Walks

/-- The nodes in the order of a walk to a side. -/
def toward : Side → BinTree α → List α
  | .right, t => t.inorder
  | .left, t => t.inorder.reverse

/-- The nodes that a walk to a side meets behind the place. -/
def beyond : Side → Path α → List α
  | .right, π => after π
  | .left, π => (before π).reverse

theorem beyond_cons (s : Side) (f : Frame α) (π : Path α) : beyond s (f :: π) =
    if f.side = s then beyond s π else f.val :: (toward s f.sibling ++ beyond s π) := by
  obtain ⟨side, c, a, sib⟩ := f
  cases s <;> cases side <;> simp [toward, beyond, before, after]

theorem toward_node_other (s : Side) (c : Color) (l r : BinTree α) (a : α) :
    toward s.other (node c l a r) = toward s.other ((node c l a r).child s) ++ a :: toward s.other
      ((node c l a r).child s.other) := by
  cases s <;> simp [toward, child, Side.other]

/-- The nodes in postorder before the place. -/
def earlier : Path α → List α
  | [] => []
  | f :: π => match f.side with
    | .left => earlier π
    | .right => earlier π ++ f.sibling.postorder

/-- The nodes in postorder behind the place. -/
def later : Path α → List α
  | [] => []
  | f :: π => match f.side with
    | .left => f.sibling.postorder ++ f.val :: later π
    | .right => f.val :: later π

theorem postorder_plug (π : Path α) (t : BinTree α) : (plug π t).postorder = earlier π ++ t.postorder ++ later π := by
  induction π generalizing t with
  | nil => exact (List.append_nil _).symm
  | cons f π ih =>
      obtain ⟨side, c, a, sib⟩ := f
      cases side <;> simp [ih, Frame.fill, sided, earlier, later, postorder]

end Walks

variable [DecidableEq α]

/-- The subtree that a node is the root of, with the path to it. -/
def locate (x : α) : Path α → BinTree α → Path α × BinTree α
  | π, .nil => (π, .nil)
  | π, .node c l a r =>
      if a = x then (π, .node c l a r)
      else if x ∈ l.inorder then locate x (⟨.left, c, a, r⟩ :: π) l
      else locate x (⟨.right, c, a, l⟩ :: π) r

/-- A node of a tree is found. -/
theorem locate_spec {x : α} {t : BinTree α} (π : Path α) (hx : x ∈ t.inorder) :
    ∃ ρ c l r, locate x π t = (ρ, .node c l x r) ∧ plug ρ (.node c l x r) = plug π t := by
  induction t generalizing π with
  | nil => cases hx
  | node c l a r ihl ihr =>
      rw [locate]
      by_cases ha : a = x
      · subst ha
        exact ⟨π, c, l, r, if_pos rfl, rfl⟩
      · rw [if_neg ha]
        by_cases hl : x ∈ l.inorder
        · rw [if_pos hl]
          exact ihl (⟨.left, c, a, r⟩ :: π) hl
        · rw [if_neg hl]
          have hr : x ∈ r.inorder := by
            rw [inorder_node, List.mem_append, List.mem_cons] at hx
            exact (hx.resolve_left hl).resolve_left (Ne.symm ha)
          exact ihr (⟨.right, c, a, l⟩ :: π) hr

/-- In a tree without repetitions a node is found where it stands. -/
theorem locate_plug {x : α} {c : Color} {l r : BinTree α} {π : Path α} (hnd : (plug π (.node c l x r)).inorder.Nodup)
    (ρ : Path α) :
    locate x ρ (plug π (.node c l x r)) = (π ++ ρ, .node c l x r) := by
  have hself (π : Path α) : locate x π (.node c l x r) = (π, .node c l x r) := if_pos rfl
  -- The outermost frame is the last of the list.
  induction π using List.reverseRecOn generalizing ρ with
  | nil => exact hself ρ
  | append_singleton π f ih =>
      rw [plug_append, plug_cons, plug_nil] at hnd ⊢
      have hmem : x ∈ (plug π (.node c l x r)).inorder := by
        rw [inorder_plug]
        simp
      obtain ⟨side, c', a, sib⟩ := f
      rw [List.append_assoc, List.singleton_append]
      cases side with
      | left =>
          have hnd' : ((plug π (.node c l x r)).inorder ++ a :: sib.inorder).Nodup := hnd
          have hne : a ≠ x := fun h => List.disjoint_of_nodup_append hnd' hmem (h ▸ List.mem_cons_self)
          have hin := ih hnd'.of_append_left (⟨.left, c', a, sib⟩ :: ρ)
          rw [Frame.fill, sided, locate, if_neg hne, if_pos hmem, hin]
      | right =>
          have hnd' : (sib.inorder ++ a :: (plug π (.node c l x r)).inorder).Nodup := hnd
          have hne : a ≠ x := fun h => (List.nodup_cons.mp hnd'.of_append_right).1 (h ▸ hmem)
          have hsib : x ∉ sib.inorder := fun h => List.disjoint_of_nodup_append hnd' h (List.mem_cons_of_mem _ hmem)
          have hin := ih (List.nodup_cons.mp hnd'.of_append_right).2 (⟨.right, c', a, sib⟩ :: ρ)
          rw [Frame.fill, sided, locate, if_neg hne, if_neg hsib, hin]

end Path

end SearchTree
