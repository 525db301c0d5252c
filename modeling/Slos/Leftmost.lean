import Slos.CachedTree
import Slos.KTimer

/-!
# The cached first nodes

`enqueue_se` and `dequeue_se` on the run queue and `insert_timer` and `del_timer` on the timer tree are clients of a
tree with a cached first node, whatever happens to the vruntimes and the tick counts in between.
-/

namespace Slos.Leftmost
open SearchTree

variable {τ : Type} [DecidableEq τ]

/-- `rb_leftmost` of the run queue; the entities are the keys. -/
def runq (b : Balancer τ) : Client (Kernel τ) τ SchedEntity b where
  cached k := ⟨k.runq.root, k.runq.rbLeftmost⟩
  goLeft k se := enqueueLeft k (k.vruntime se)
  insert := enqueueSe b
  delete := dequeueSe b
  rekey := Kernel.setSe
  cached_insert _ _ := rfl
  cached_delete _ _ := rfl
  cached_rekey _ _ _ := rfl

omit [DecidableEq τ] in
/-- `rb_leftmost` of the timer tree. -/
def timers (bt : Balancer TimerId) : Client (Timers τ) TimerId ℕ bt where
  cached s := ⟨s.root, s.rbLeftmost⟩
  goLeft s pts := timerLeft s (s.tc pts)
  insert := insertTimer bt
  delete := delTimer bt
  rekey := Timers.setTc
  cached_insert _ _ := rfl
  cached_delete _ _ := rfl
  cached_rekey _ _ _ := rfl

theorem initRq_holds (b : Balancer τ) (k : Kernel τ) : ((runq b).cached (initRq b k)).Holds {k.idleTask} := by
  obtain ⟨hqueue, hcached⟩ := initRq_queue b k
  have hinorder : (initRq b k).runq.root.inorder = [k.idleTask] := hqueue
  constructor
  · exact hinorder ▸ List.nodup_singleton _
  · intro t
    rw [Finset.mem_singleton]
    exact hinorder ▸ List.mem_singleton
  · exact hcached.trans (congrArg List.head? hinorder).symm

omit [DecidableEq τ] in
theorem initTimertree_holds (bt : Balancer TimerId) (s : Timers τ) : ((timers bt).cached (initTimertree s)).Holds ∅ := by
  constructor
  · exact List.nodup_nil
  · intro t
    exact ⟨fun h => absurd h List.not_mem_nil, fun h => absurd h (Finset.notMem_empty t)⟩
  · rfl

/-- In every run from `init_rq`, and in every run from `init_timertree`, the tree holds the nodes inserted and not
deleted, each once, and `rb_leftmost` is the first of them in order. -/
theorem leftmost_structural (b : Balancer τ) (bt : Balancer TimerId) (k : Kernel τ) (s : Timers τ)
    (is : List (TreeOp τ SchedEntity)) (js : List (TreeOp TimerId ℕ)) :
    Machine.Always (runq b).step (runq b).Structural (initRq b k, {k.idleTask}) is ∧
      Machine.Always (timers bt).step (timers bt).Structural (initTimertree s, ∅) js := by
  constructor
  · exact (runq b).always_structural (initRq_holds b k) is
  · exact (timers bt).always_structural (initTimertree_holds bt s) js

end Slos.Leftmost
