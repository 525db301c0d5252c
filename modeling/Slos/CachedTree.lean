import Slos.Machine
import Slos.SearchTree
import Mathlib.Data.Finset.Insert
import Mathlib.Data.Finset.Erase

/-!
# Search trees with a cached first node

A tree together with a pointer to its first node in order. An insertion moves the pointer if its descent never turned
right, a deletion of the first node moves it to the successor; nothing is assumed of the descent, so the keys may
change at any time. A `Client` is a program whose insertions and deletions do this to a tree it holds.
-/

namespace SearchTree

structure Cached (α : Type*) where
  root : BinTree α
  leftmost : Option α

namespace Cached

variable {α : Type*} [DecidableEq α] (b : Balancer α)

def insert (goLeft : α → Bool) (x : α) (c : Cached α) : Cached α where
  root := b.insert goLeft x c.root
  leftmost := if c.root.allLeft goLeft then some x else c.leftmost

def erase (x : α) (c : Cached α) : Cached α where
  root := b.erase x c.root
  leftmost := if c.leftmost = some x then c.root.next x else c.leftmost

/-- The tree holds exactly the nodes of `held`, each once, and the pointer is to the first one. -/
structure Holds (c : Cached α) (held : Finset α) : Prop where
  nodup : c.root.inorder.Nodup
  mem : ∀ x, x ∈ c.root.inorder ↔ x ∈ held
  leftmost : c.leftmost = c.root.inorder.head?

variable {b} {c : Cached α} {held : Finset α} {x : α}

omit [DecidableEq α] in
theorem Holds.leftmost_eq_none (h : c.Holds held) : c.leftmost = none ↔ c.root = .nil := by
  rw [h.leftmost, List.head?_eq_none_iff]
  cases c.root with
  | nil => exact ⟨fun _ => rfl, fun _ => rfl⟩
  | node _ l a r => simp

theorem Holds.insert (h : c.Holds held) (hx : x ∉ held) (goLeft : α → Bool) :
    (c.insert b goLeft x).Holds (Insert.insert x held) := by
  have hnot : x ∉ c.root.inorder := fun hmem => hx ((h.mem x).mp hmem)
  have hperm : (b.insert goLeft x c.root).inorder.Perm (x :: c.root.inorder) := Balancer.perm_insert h.nodup hnot
  constructor
  · exact hperm.nodup_iff.mpr (List.nodup_cons.mpr ⟨hnot, h.nodup⟩)
  · intro y
    rw [Cached.insert, hperm.mem_iff, List.mem_cons, h.mem, Finset.mem_insert]
  · exact Balancer.head_insert h.nodup hnot h.leftmost

theorem Holds.erase (h : c.Holds held) (hx : x ∈ held) : (c.erase b x).Holds (held.erase x) := by
  have hmem : x ∈ c.root.inorder := (h.mem x).mpr hx
  have hinorder := b.inorder_erase x c.root h.nodup hmem
  constructor
  · rw [Cached.erase, hinorder]
    exact h.nodup.erase x
  · intro y
    rw [Cached.erase, hinorder, h.nodup.mem_erase_iff, h.mem, Finset.mem_erase]
  · rw [Cached.erase, hinorder, h.leftmost]
    exact BinTree.head_erase hmem

end Cached

/-- What a program does with its tree, and with the keys of the nodes. -/
inductive TreeOp (α κ : Type*)
  | insert (x : α)
  | delete (x : α)
  | rekey (x : α) (key : κ)

/-- A program that keeps a tree in a state of its own, with the way its descents go in that state. -/
structure Client (σ α κ : Type*) [DecidableEq α] (b : Balancer α) where
  cached : σ → Cached α
  goLeft : σ → α → α → Bool
  insert : σ → α → σ
  delete : σ → α → σ
  rekey : σ → α → κ → σ
  cached_insert : ∀ s x, cached (insert s x) = (cached s).insert b (goLeft s x) x
  cached_delete : ∀ s x, cached (delete s x) = (cached s).erase b x
  cached_rekey : ∀ s x key, cached (rekey s x key) = cached s

namespace Client

variable {σ α κ : Type*} [DecidableEq α] {b : Balancer α} (p : Client σ α κ b)

/-- Beside the state, the nodes inserted and not deleted. Nodes are inserted unlinked and deleted linked; the key of
any node may change. -/
def step (s : σ × Finset α) : TreeOp α κ → Option (σ × Finset α)
  | .insert x => if x ∈ s.2 then none else some (p.insert s.1 x, Insert.insert x s.2)
  | .delete x => if x ∈ s.2 then some (p.delete s.1 x, s.2.erase x) else none
  | .rekey x key => some (p.rekey s.1 x key, s.2)

def Structural (s : σ × Finset α) : Prop :=
  (p.cached s.1).Holds s.2 ∧ ((p.cached s.1).leftmost = none ↔ (p.cached s.1).root = .nil)

theorem step_holds {s t : σ × Finset α} {i : TreeOp α κ} (h : (p.cached s.1).Holds s.2) (ht : p.step s i = some t) :
    (p.cached t.1).Holds t.2 := by
  cases i with
  | insert x =>
    simp only [step] at ht
    split_ifs at ht with hx
    cases ht
    rw [p.cached_insert]
    exact h.insert hx _
  | delete x =>
    simp only [step] at ht
    split_ifs at ht with hx
    cases ht
    rw [p.cached_delete]
    exact h.erase hx
  | rekey x key =>
    cases ht
    rw [p.cached_rekey]
    exact h

theorem always_structural {s : σ × Finset α} (h : (p.cached s.1).Holds s.2) (is : List (TreeOp α κ)) :
    Machine.Always p.step p.Structural s is := by
  apply Machine.always_of_step fun s => (p.cached s.1).Holds s.2
  · exact fun s hs => ⟨hs, hs.leftmost_eq_none⟩
  · exact fun s i t hs ht => p.step_holds hs ht
  · exact h

end Client

end SearchTree
