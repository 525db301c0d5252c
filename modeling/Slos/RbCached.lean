import Slos.KernelCode
import Slos.RbWalk
import Slos.CachedTree

/-!
# A red-black tree with its first node cached

The two ends of an insertion and of a removal that `runq.c` and `ktimer.c` share, `linkLeaf` and `unlinkNode`, and the way
down to the place of a new node, which each of them writes for its own keys. `Linked` is what both files keep: the nodes are
laid out as a red-black tree, and the pointer is to the first one.
-/

namespace Slos.KernelCode
open Interruptible Straight RbTree
open SearchTree (BinTree Balancer Frame Path Cached treeRounds)

variable {ν : Type}

structure Linked (m : CachedRoot ν) (t : BinTree ν) : Prop where
  stored : Stored m.root t
  redBlack : t.RedBlack
  leftmost : m.rbLeftmost = t.inorder.head?

variable {m : CachedRoot ν} {t : BinTree ν} {x : ν} {B n : ℕ} {α σ : Type}

theorem Linked.height_lt (h : Linked m t) (hB : treeRounds t.inorder.length ≤ B) : t.height < B := h.redBlack.height_lt hB

theorem Linked.nodup (h : Linked m t) : t.inorder.Nodup := h.stored.nodup

theorem ends_onTree {c : Straight (RbRoot ν) α} {Q : α → CachedRoot ν → Prop} :
    (onTree c).Ends B Q m ↔ c.Ends B (fun a r => Q a { m with root := r }) m.root := by
  rw [onTree]
  apply ends_on <;> intros <;> rfl

theorem link_linkOf {m : RbRoot ν} {π : Path ν} (h : Stored m (Path.plug π t)) : m.link (linkOf π) = t.root? := by
  have hplug := stored_plug.mp h
  cases π with
  | nil => exact h.rbNode
  | cons f π =>
      rw [linkOf, RbRoot.link, (Sep.cons_iff.mp hplug).cell, linked_child]

/-- Where a round of the descent goes from a link, by what the link holds. -/
def descentStep (goLeft : ν → Bool) (held : Option ν) : Option ν × Link ν × Bool →
    (Option ν × Link ν × Bool) ⊕ (Option ν × Link ν × Bool)
  | (parent, link, isLeftmost) => match held with
    | none => .inr (parent, link, isLeftmost)
    | some v =>
      if goLeft v then .inl (some v, some (v, .left), isLeftmost)
      else .inl (some v, some (v, .right), false)

/-- The descent comes to the place that `descend` finds. -/
theorem ends_descent {r : RbRoot ν} {s : σ} {goLeft : ν → Bool} {body : Option ν × Link ν × Bool →
    Straight σ ((Option ν × Link ν × Bool) ⊕ (Option ν × Link ν × Bool))} (π : Path ν) (isLeftmost : Bool)
    (hbody : ∀ b, (body b).Ends B (fun next s' => next = descentStep goLeft (r.link b.2.1) b ∧ s' = s) s)
    (hn : t.height < n) (h : Stored r (Path.plug π t)) :
    LoopEnds B n body (Path.up π, linkOf π, isLeftmost) (fun b s' => s' = s ∧
      b = (Path.up (SearchTree.descend goLeft π t), linkOf (SearchTree.descend goLeft π t),
        isLeftmost && t.allLeft goLeft)) s := by
  obtain ⟨n, rfl⟩ := Nat.exists_eq_succ_of_ne_zero (Nat.ne_zero_of_lt hn)
  induction t generalizing π isLeftmost n with
  | nil =>
      refine loopEnds_succ.mpr ((hbody _).mono ?_)
      rintro next s' ⟨rfl, rfl⟩
      rw [link_linkOf h]
      exact ⟨rfl, by rw [BinTree.allLeft, Bool.and_true]; rfl⟩
  | node c l a r ihl ihr =>
      rw [BinTree.height] at hn
      obtain ⟨n, rfl⟩ := Nat.exists_eq_succ_of_ne_zero (show n ≠ 0 by omega)
      refine loopEnds_succ.mpr ((hbody _).mono ?_)
      rintro next s' ⟨rfl, rfl⟩
      rw [link_linkOf h, BinTree.root?, descentStep, SearchTree.descend, BinTree.allLeft]
      cases hgo : goLeft a with
      | true =>
          rw [if_pos rfl, if_pos rfl, Bool.true_and]
          exact ihl (⟨.left, c, a, r⟩ :: π) isLeftmost h n (by omega)
      | false =>
          rw [if_neg (by simp), if_neg (by simp), Bool.false_and, Bool.and_false]
          have hright := ihr (⟨.right, c, a, l⟩ :: π) false h n (by omega)
          rwa [Bool.false_and] at hright

variable [DecidableEq ν]

theorem ends_linkLeaf (hB : t.height < B) (h : Linked m t) (hx : x ∉ t.inorder) (goLeft : ν → Bool) :
    (linkLeaf x (Path.up (SearchTree.descend goLeft [] t)) (linkOf (SearchTree.descend goLeft [] t))
    (t.allLeft goLeft)).Ends B
      (fun _ m' => Linked m' ((Balancer.redBlack ν).insert goLeft x t)) m := by
  obtain ⟨ρ, hρ⟩ : ∃ ρ, ρ = SearchTree.descend goLeft [] t := ⟨_, rfl⟩
  have hplug : t = Path.plug ρ .nil := by rw [hρ, SearchTree.plug_descend, Path.plug_nil]
  have hlink : t.link goLeft x = Path.plug ρ (.node .red .nil x .nil) := by
    rw [hρ, SearchTree.plug_descend_link, Path.plug_nil]
  have hnd : (Path.plug ρ (.node .red .nil x .nil)).inorder.Nodup := by
    rw [← hlink]
    exact (t.perm_link goLeft x).nodup_iff.mpr (List.nodup_cons.mpr ⟨hx, h.nodup⟩)
  have hinsert : (Balancer.redBlack ν).insert goLeft x t = SearchTree.insertUp ρ (.node .red .nil x .nil) := by
    change SearchTree.inserted x (t.link goLeft x) = _
    rw [hlink, SearchTree.inserted_plug hnd]
  have hred : ((Balancer.redBlack ν).insert goLeft x t).RedBlack := SearchTree.redBlack_insert h.nodup hx h.redBlack
  have hlen : ρ.length < B := by
    have hle := Path.length_add_height_le ρ .nil
    rw [← hplug] at hle
    omega
  have hnodes : x ∉ ρ.nodes := by
    rw [hplug, (Path.perm_inorder_plug ρ _).mem_iff] at hx
    simpa using hx
  have hroot := Path.color_getLast? (hplug ▸ h.redBlack.1)
  have hrun (m' : CachedRoot ν) (hroot' : m'.root = m.root)
      (hleft : m'.rbLeftmost = (t.link goLeft x).inorder.head?) :
      (do onTree (rbLinkNode x (Path.up ρ) (linkOf ρ)); onTree (rbInsertColor x)).Ends B
        (fun _ m' => Linked m' ((Balancer.redBlack ν).insert goLeft x t)) m' := by
    have hinsert' := ends_bind.mp (ends_linkInsert hlen (hplug ▸ h.stored) hroot hnodes)
    rw [← hroot'] at hinsert'
    refine ends_bind.mpr (ends_onTree.mpr (hinsert'.mono fun _ r hr => ends_onTree.mpr (hr.mono fun _ r' hr' => ?_)))
    refine ⟨hinsert ▸ hr', hred, ?_⟩
    rw [Balancer.inorder_insert h.nodup hx]
    exact hleft
  rw [← hρ, linkLeaf]
  cases hall : t.allLeft goLeft with
  | true =>
      rw [if_pos rfl]
      refine ends_bind.mpr ((ends_store _).mpr (hrun _ rfl ?_))
      exact (BinTree.head_link_of_allLeft x hall).symm
  | false =>
      rw [if_neg (by simp)]
      refine hrun m rfl ?_
      rw [BinTree.head_link_of_turn x hall]
      exact h.leftmost

theorem ends_unlinkNode (hB : t.height < B) (h : Linked m t) (hx : x ∈ t.inorder) :
    (unlinkNode x).Ends B (fun _ m' => Linked m' ((Balancer.redBlack ν).erase x t)) m := by
  have hred := SearchTree.redBlack_erase h.nodup hx h.redBlack
  have herase := (Balancer.redBlack ν).inorder_erase x t h.nodup hx
  have hrun (m' : CachedRoot ν) (hroot : m'.root = m.root) (hleft : m'.rbLeftmost = (t.inorder.erase x).head?) :
      (onTree (rbErase x)).Ends B (fun _ m' => Linked m' ((Balancer.redBlack ν).erase x t)) m' := by
    obtain ⟨π, c, l, r, ht⟩ := SearchTree.exists_plug hx
    have hstored := h.stored
    have hrb := h.redBlack
    have hnd := h.nodup
    rw [ht] at hstored hrb hB hnd
    have heraseAt : (Balancer.redBlack ν).erase x t = SearchTree.eraseAt π c l r := by
      change SearchTree.erased x t = _
      rw [ht, SearchTree.erased_plug hnd]
    refine ends_onTree.mpr ?_
    rw [hroot]
    refine (ends_rbErase hB.le hstored hrb).mono fun _ r' hr' => ⟨heraseAt ▸ hr', hred, ?_⟩
    rw [herase]
    exact hleft
  have hhead := BinTree.head_erase hx
  rw [unlinkNode]
  refine ends_bind.mpr ((ends_fetch _).mpr ?_)
  by_cases hfirst : m.rbLeftmost = some x
  · rw [if_pos hfirst]
    rw [← h.leftmost, if_pos hfirst] at hhead
    refine ends_bind.mpr (ends_onTree.mpr ((reads_rbNext hB.le h.stored hx).mono ?_))
    rintro b r ⟨rfl, rfl⟩
    exact ends_bind.mpr ((ends_store _).mpr (hrun _ rfl hhead))
  · rw [if_neg hfirst]
    rw [← h.leftmost, if_neg hfirst] at hhead
    exact hrun m rfl hhead

end Slos.KernelCode
