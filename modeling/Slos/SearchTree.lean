import Mathlib.Data.List.Basic
import Mathlib.Data.List.Nodup

/-!
# Search trees keyed from outside

A binary tree of node identities. The keys live elsewhere and may change while a node is linked, so
an insertion descends by a predicate `goLeft` on the nodes it passes. A `Balancer` is what a
self-balancing implementation adds: it recolours and rotates after an insertion and removes a node,
and its laws say what that does to the in-order sequence.
-/

namespace SearchTree

inductive Color
  | red
  | black
  deriving DecidableEq

inductive BinTree (α : Type*)
  | nil
  | node (color : Color) (left : BinTree α) (val : α) (right : BinTree α)
  deriving DecidableEq

namespace BinTree

variable {α : Type*}

def inorder : BinTree α → List α
  | nil => []
  | node _ l a r => l.inorder ++ a :: r.inorder

/-- The descent to an empty link, and the node put there. -/
def link (goLeft : α → Bool) (x : α) : BinTree α → BinTree α
  | nil => node .red nil x nil
  | node c l a r => if goLeft a then node c (link goLeft x l) a r else node c l a (link goLeft x r)

/-- The descent never turns right. -/
def allLeft (goLeft : α → Bool) : BinTree α → Bool
  | nil => true
  | node _ l a _ => goLeft a && allLeft goLeft l

def paint (color : Color) : BinTree α → BinTree α
  | nil => nil
  | node _ l a r => node color l a r

def popMin : BinTree α → Option (α × BinTree α)
  | nil => none
  | node c l a r => match popMin l with
    | none => some (a, r)
    | some (m, l') => some (m, node c l' a r)

/-- The two subtrees of a removed node, under its colour. -/
def join (c : Color) (l r : BinTree α) : BinTree α := match l, popMin r with
  | nil, _ => r.paint c
  | l, none => l.paint c
  | l, some (m, r') => node c l m r'

@[simp] theorem inorder_nil : (nil : BinTree α).inorder = [] := rfl

@[simp] theorem inorder_node (c : Color) (l : BinTree α) (a : α) (r : BinTree α) :
    (node c l a r).inorder = l.inorder ++ a :: r.inorder := rfl

@[simp] theorem inorder_paint (c : Color) (t : BinTree α) : (t.paint c).inorder = t.inorder := by
  cases t <;> rfl

theorem popMin_eq_none {t : BinTree α} (h : t.popMin = none) : t.inorder = [] := by
  cases t with
  | nil => rfl
  | node c l a r =>
      rw [popMin] at h
      split at h <;> cases h

theorem popMin_eq_some {t t' : BinTree α} {m : α} (h : t.popMin = some (m, t')) :
    t.inorder = m :: t'.inorder := by
  induction t generalizing t' with
  | nil => cases h
  | node c l a r ihl _ =>
      rw [popMin] at h
      split at h
      · rename_i hl
        cases h
        rw [inorder_node, popMin_eq_none hl, List.nil_append]
      · rename_i hl
        cases h
        rw [inorder_node, ihl hl, inorder_node, List.cons_append]

@[simp] theorem inorder_join (c : Color) (l r : BinTree α) :
    (join c l r).inorder = l.inorder ++ r.inorder := by
  unfold join
  split
  · simp
  · rename_i hr
    rw [inorder_paint, popMin_eq_none hr, List.append_nil]
  · rename_i hr
    rw [inorder_node, popMin_eq_some hr]

theorem inorder_link (goLeft : α → Bool) (x : α) (t : BinTree α) :
    ∃ xs ys, t.inorder = xs ++ ys ∧ (t.link goLeft x).inorder = xs ++ x :: ys ∧
      (t.allLeft goLeft = true → xs = []) ∧ (t.allLeft goLeft = false → xs ≠ []) := by
  induction t with
  | nil => exact ⟨[], [], rfl, rfl, fun _ => rfl, nofun⟩
  | node c l a r ihl ihr =>
      obtain ⟨xs, ys, hl, hlink, htrue, hfalse⟩ := ihl
      by_cases ha : goLeft a = true
      · refine ⟨xs, ys ++ a :: r.inorder, ?_, ?_, ?_, ?_⟩
        · rw [inorder_node, hl, List.append_assoc]
        · rw [link, if_pos ha, inorder_node, hlink, List.append_assoc, List.cons_append]
        · rw [allLeft, ha, Bool.true_and]
          exact htrue
        · rw [allLeft, ha, Bool.true_and]
          exact hfalse
      · obtain ⟨xs', ys', hr, hlink', -, -⟩ := ihr
        refine ⟨l.inorder ++ a :: xs', ys', ?_, ?_, ?_, fun _ => by simp⟩
        · rw [inorder_node, hr, List.append_assoc, List.cons_append]
        · rw [link, if_neg ha, inorder_node, hlink', List.append_assoc, List.cons_append]
        · rw [allLeft, eq_false_of_ne_true ha, Bool.false_and]
          nofun

/-- Where going left is final along the sequence, the new node lands between the nodes passed on the
right and those passed on the left. -/
theorem inorder_link_of_mono {goLeft : α → Bool} (x : α) {t : BinTree α}
    (hmono : t.inorder.Pairwise fun a b => goLeft a = true → goLeft b = true) :
    ∃ xs ys, t.inorder = xs ++ ys ∧ (t.link goLeft x).inorder = xs ++ x :: ys ∧
      (∀ a ∈ xs, goLeft a = false) ∧ ∀ a ∈ ys, goLeft a = true := by
  induction t with
  | nil => exact ⟨[], [], rfl, rfl, nofun, nofun⟩
  | node c l a r ihl ihr =>
      rw [inorder_node] at hmono
      obtain ⟨hml, hmr, hcross⟩ := List.pairwise_append.mp hmono
      obtain ⟨har, hmr'⟩ := List.pairwise_cons.mp hmr
      by_cases ha : goLeft a = true
      · obtain ⟨xs, ys, hl, hlink, hxs, hys⟩ := ihl hml
        refine ⟨xs, ys ++ a :: r.inorder, ?_, ?_, hxs, fun b hb => ?_⟩
        · rw [inorder_node, hl, List.append_assoc]
        · rw [link, if_pos ha, inorder_node, hlink, List.append_assoc, List.cons_append]
        · rcases List.mem_append.mp hb with hb | hb
          · exact hys b hb
          · rcases List.mem_cons.mp hb with rfl | hb
            · exact ha
            · exact har b hb ha
      · obtain ⟨xs, ys, hr, hlink, hxs, hys⟩ := ihr hmr'
        refine ⟨l.inorder ++ a :: xs, ys, ?_, ?_, fun b hb => ?_, hys⟩
        · rw [inorder_node, hr, List.append_assoc, List.cons_append]
        · rw [link, if_neg ha, inorder_node, hlink, List.append_assoc, List.cons_append]
        · rcases List.mem_append.mp hb with hb | hb
          · by_contra hne
            exact ha (hcross b hb a List.mem_cons_self (by simpa using hne))
          · rcases List.mem_cons.mp hb with rfl | hb
            · simpa using ha
            · exact hxs b hb

/-- Whatever the order, the new node lands behind a node the descent passed on the right and in front of one it passed on
the left. -/
theorem inorder_link_between (goLeft : α → Bool) (x : α) (t : BinTree α) :
    ∃ xs ys, t.inorder = xs ++ ys ∧ (t.link goLeft x).inorder = xs ++ x :: ys ∧
      (∀ a ∈ xs.getLast?, goLeft a = false) ∧ ∀ a ∈ ys.head?, goLeft a = true := by
  induction t with
  | nil => exact ⟨[], [], rfl, rfl, nofun, nofun⟩
  | node c l a r ihl ihr =>
      by_cases ha : goLeft a = true
      · obtain ⟨xs, ys, hl, hlink, hxs, hys⟩ := ihl
        refine ⟨xs, ys ++ a :: r.inorder, ?_, ?_, hxs, fun b hb => ?_⟩
        · rw [inorder_node, hl, List.append_assoc]
        · rw [link, if_pos ha, inorder_node, hlink, List.append_assoc, List.cons_append]
        · cases ys with
          | nil =>
              cases hb
              exact ha
          | cons y ys => exact hys b hb
      · obtain ⟨xs, ys, hr, hlink, hxs, hys⟩ := ihr
        refine ⟨l.inorder ++ a :: xs, ys, ?_, ?_, fun b hb => ?_, hys⟩
        · rw [inorder_node, hr, List.append_assoc, List.cons_append]
        · rw [link, if_neg ha, inorder_node, hlink, List.append_assoc, List.cons_append]
        · rw [List.getLast?_append_cons] at hb
          cases xs with
          | nil =>
              cases hb
              exact eq_false_of_ne_true ha
          | cons y ys => exact hxs b (by simpa using hb)

theorem perm_link (goLeft : α → Bool) (x : α) (t : BinTree α) :
    (t.link goLeft x).inorder.Perm (x :: t.inorder) := by
  obtain ⟨xs, ys, ht, hlink, -⟩ := t.inorder_link goLeft x
  rw [ht, hlink]
  exact List.perm_middle

theorem head_link_of_allLeft {goLeft : α → Bool} (x : α) {t : BinTree α}
    (h : t.allLeft goLeft = true) : (t.link goLeft x).inorder.head? = some x := by
  obtain ⟨xs, ys, -, hlink, htrue, -⟩ := t.inorder_link goLeft x
  rw [hlink, htrue h]
  rfl

theorem head_link_of_turn {goLeft : α → Bool} (x : α) {t : BinTree α}
    (h : t.allLeft goLeft = false) : (t.link goLeft x).inorder.head? = t.inorder.head? := by
  obtain ⟨xs, ys, ht, hlink, -, hfalse⟩ := t.inorder_link goLeft x
  obtain ⟨a, xs, rfl⟩ := List.exists_cons_of_ne_nil (hfalse h)
  rw [hlink, ht]
  rfl

theorem allLeft_of_forall {goLeft : α → Bool} {t : BinTree α} (h : ∀ a ∈ t.inorder, goLeft a = true) :
    t.allLeft goLeft = true := by
  induction t with
  | nil => rfl
  | node c l a r ihl _ =>
      rw [inorder_node] at h
      rw [allLeft, h a (by simp), Bool.true_and]
      exact ihl fun b hb => h b (List.mem_append_left _ hb)

theorem goLeft_head {goLeft : α → Bool} {t : BinTree α} (h : t.allLeft goLeft = true) {a : α}
    (ha : t.inorder.head? = some a) : goLeft a = true := by
  induction t with
  | nil => cases ha
  | node c l b r ihl _ =>
      rw [allLeft, Bool.and_eq_true] at h
      rw [inorder_node] at ha
      cases hl : l.inorder with
      | nil =>
          rw [hl] at ha
          cases ha
          exact h.1
      | cons d ds =>
          rw [hl] at ha ihl
          exact ihl h.2 ha

/-- A node whose descent follows its key is in order with the others exactly when those are. -/
theorem pairwise_link (key : α → ℕ) {goLeft : α → Bool} {x : α} {t : BinTree α}
    (hleft : ∀ a, goLeft a = true → key x ≤ key a) (hright : ∀ a, goLeft a = false → key a ≤ key x)
    (hmono : ∀ a b, key a ≤ key b → goLeft a = true → goLeft b = true) :
    (t.link goLeft x).inorder.Pairwise (fun a b => key a ≤ key b) ↔
      t.inorder.Pairwise fun a b => key a ≤ key b := by
  constructor
  · intro h
    obtain ⟨xs, ys, ht, hlink, -⟩ := t.inorder_link goLeft x
    rw [hlink] at h
    rw [ht]
    exact h.sublist (List.Sublist.append_left (List.sublist_cons_self x ys) xs)
  · intro h
    obtain ⟨xs, ys, ht, hlink, hxs, hys⟩ := inorder_link_of_mono x (h.imp fun {a b} hab =>
      hmono a b hab)
    rw [ht] at h
    obtain ⟨h1, h2, h12⟩ := List.pairwise_append.mp h
    rw [hlink]
    refine List.pairwise_append.mpr ⟨h1, ?_, fun a ha c hc => ?_⟩
    · exact List.pairwise_cons.mpr ⟨fun c hc => hleft c (hys c hc), h2⟩
    · rcases List.mem_cons.mp hc with rfl | hc
      · exact hright a (hxs a ha)
      · exact h12 a ha c hc

variable [DecidableEq α]

/-- What follows `x` in a sequence. -/
def after (x : α) : List α → List α
  | [] => []
  | a :: as => if a = x then as else after x as

/-- The in-order successor. -/
def next (t : BinTree α) (x : α) : Option α := (after x t.inorder).head?

/-- The nodes a loop visits that starts at `x` and goes on to the in-order successor. -/
def walk (t : BinTree α) (x : α) : List α := x :: after x t.inorder

@[simp] theorem after_cons_self (x : α) (as : List α) : after x (x :: as) = as := if_pos rfl

theorem after_of_notMem {x : α} {as : List α} (h : x ∉ as) : after x as = [] := by
  induction as with
  | nil => rfl
  | cons a as ih =>
      rw [List.mem_cons, not_or] at h
      rw [after, if_neg (Ne.symm h.1), ih h.2]

theorem after_append_cons {x : α} {as bs : List α} (h : x ∉ as) :
    after x (as ++ x :: bs) = bs := by
  induction as with
  | nil => exact after_cons_self x bs
  | cons a as ih =>
      rw [List.mem_cons, not_or] at h
      rw [List.cons_append, after, if_neg (Ne.symm h.1), ih h.2]

/-- The walk is the loop over `next`. -/
theorem walk_eq {t : BinTree α} (hnd : t.inorder.Nodup) (x : α) :
    t.walk x = x :: ((t.next x).map t.walk).getD [] := by
  unfold walk next
  by_cases hx : x ∈ t.inorder
  · obtain ⟨as, bs, ht⟩ := List.append_of_mem hx
    rw [ht] at hnd
    have has : x ∉ as := fun h => List.disjoint_of_nodup_append hnd h List.mem_cons_self
    rw [ht, after_append_cons has]
    cases bs with
    | nil => rfl
    | cons y bs =>
        have hy : y ∉ as ++ [x] := by
          rw [← List.singleton_append, ← List.append_assoc] at hnd
          exact fun h => List.disjoint_of_nodup_append hnd h List.mem_cons_self
        have hsplit : as ++ x :: y :: bs = (as ++ [x]) ++ y :: bs := by simp
        simp only [List.head?_cons, Option.map_some, Option.getD_some]
        rw [hsplit, after_append_cons hy]
  · rw [after_of_notMem hx]
    rfl

theorem walk_head {t : BinTree α} {x : α} (h : t.inorder.head? = some x) : t.walk x = t.inorder := by
  obtain ⟨as, has⟩ := List.head?_eq_some_iff.mp h
  rw [walk, has, after_cons_self]

theorem next_head {t : BinTree α} {x : α} {as : List α} (h : t.inorder = x :: as) :
    t.next x = as.head? := by
  rw [next, h, after_cons_self]

/-- The cached head of a sequence after `x` goes. -/
theorem head_erase {t : BinTree α} {x : α} (hx : x ∈ t.inorder) :
    (if t.inorder.head? = some x then t.next x else t.inorder.head?) =
      (t.inorder.erase x).head? := by
  obtain ⟨a, as, ht⟩ := List.exists_cons_of_ne_nil (List.ne_nil_of_mem hx)
  rw [ht, List.head?_cons]
  by_cases ha : a = x
  · subst ha
    rw [if_pos rfl, List.erase_cons_head]
    exact next_head ht
  · rw [if_neg fun h => ha (Option.some.inj h), List.erase_cons_tail (by simpa using ha)]
    rfl

def remove (x : α) : BinTree α → BinTree α
  | nil => nil
  | node c l a r =>
      if x ∈ l.inorder then node c (remove x l) a r
      else if a = x then join c l r
      else node c l a (remove x r)

theorem inorder_remove (x : α) (t : BinTree α) : (t.remove x).inorder = t.inorder.erase x := by
  induction t with
  | nil => rfl
  | node c l a r ihl ihr =>
      rw [remove, inorder_node]
      by_cases hl : x ∈ l.inorder
      · rw [if_pos hl, inorder_node, ihl, List.erase_append_left _ hl]
      · rw [if_neg hl, List.erase_append_right _ hl]
        by_cases ha : a = x
        · rw [if_pos ha, inorder_join, ha, List.erase_cons_head]
        · rw [if_neg ha, inorder_node, ihr, List.erase_cons_tail (by simpa using ha)]

end BinTree

/-- The rebalancing half of a self-balancing tree, on trees whose nodes are distinct. -/
structure Balancer (α : Type*) [DecidableEq α] where
  insertColor : α → BinTree α → BinTree α
  erase : α → BinTree α → BinTree α
  inorder_insertColor : ∀ x t, t.inorder.Nodup → x ∈ t.inorder →
    (insertColor x t).inorder = t.inorder
  inorder_erase : ∀ x t, t.inorder.Nodup → x ∈ t.inorder →
    (erase x t).inorder = t.inorder.erase x

namespace Balancer

variable {α : Type*} [DecidableEq α] (b : Balancer α)

/-- Insertion without rotations. -/
def plain (α : Type*) [DecidableEq α] : Balancer α where
  insertColor _ t := t.paint .black
  erase x t := (t.remove x).paint .black
  inorder_insertColor _ t _ _ := t.inorder_paint .black
  inorder_erase x t _ _ := by rw [BinTree.inorder_paint, BinTree.inorder_remove]

def insert (goLeft : α → Bool) (x : α) (t : BinTree α) : BinTree α := b.insertColor x (t.link goLeft x)

variable {b} {goLeft : α → Bool} {x : α} {t : BinTree α}

theorem inorder_insert (hnd : t.inorder.Nodup) (hx : x ∉ t.inorder) :
    (b.insert goLeft x t).inorder = (t.link goLeft x).inorder := by
  have hp := t.perm_link goLeft x
  exact b.inorder_insertColor x _ (hp.nodup_iff.mpr (List.nodup_cons.mpr ⟨hx, hnd⟩))
    (hp.mem_iff.mpr List.mem_cons_self)

theorem head_insert_of_allLeft (hnd : t.inorder.Nodup) (hx : x ∉ t.inorder)
    (h : t.allLeft goLeft = true) : (b.insert goLeft x t).inorder.head? = some x := by
  rw [inorder_insert hnd hx]
  exact BinTree.head_link_of_allLeft x h

theorem head_insert_of_turn (hnd : t.inorder.Nodup) (hx : x ∉ t.inorder)
    (h : t.allLeft goLeft = false) : (b.insert goLeft x t).inorder.head? = t.inorder.head? := by
  rw [inorder_insert hnd hx]
  exact BinTree.head_link_of_turn x h

/-- The cached head of a sequence when `x` comes. -/
theorem head_insert (hnd : t.inorder.Nodup) (hx : x ∉ t.inorder) {cached : Option α} (hcached : cached = t.inorder.head?) :
    (if t.allLeft goLeft = true then some x else cached) = (b.insert goLeft x t).inorder.head? := by
  by_cases hleft : t.allLeft goLeft = true
  · rw [if_pos hleft, head_insert_of_allLeft hnd hx hleft]
  · rw [if_neg hleft, head_insert_of_turn hnd hx (Bool.eq_false_iff.mpr hleft), hcached]

theorem perm_insert (hnd : t.inorder.Nodup) (hx : x ∉ t.inorder) :
    (b.insert goLeft x t).inorder.Perm (x :: t.inorder) := by
  rw [inorder_insert hnd hx]
  exact t.perm_link goLeft x

end Balancer

end SearchTree
