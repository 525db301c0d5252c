import Slos.RunQueue

/-!
# Normal form of the vruntimes

`update_vruntime_runq` brings `se` and every queued entity to the leftmost vruntime, rounded down to a multiple of the
entity's own priority. The loop reads the leftmost vruntime again for each entity, the leftmost one included, and `se` may
be any of them: the result is the same because the leftmost vruntime is a multiple of its own priority.
-/

namespace Slos.RunQueueNormal
open Word Kernel

variable {τ : Type}

/-- `l` without its lowest `shift` bits. -/
def roundDown (l shift : ℕ) : ℕ := (l >>> shift) <<< shift

theorem roundDown_eq (l shift : ℕ) : roundDown l shift = l / 2 ^ shift * 2 ^ shift := by
  rw [roundDown, Nat.shiftRight_eq_div_pow, Nat.shiftLeft_eq]

theorem roundDown_le (l shift : ℕ) : roundDown l shift ≤ l := by
  rw [roundDown_eq]
  exact Nat.div_mul_le_self l _

theorem lt_roundDown_add (l shift : ℕ) : l < roundDown l shift + 2 ^ shift := by
  rw [roundDown_eq]
  calc l = l / 2 ^ shift * 2 ^ shift + l % 2 ^ shift := (Nat.div_add_mod' l _).symm
    _ < l / 2 ^ shift * 2 ^ shift + 2 ^ shift := Nat.add_lt_add_left (Nat.mod_lt l (Nat.two_pow_pos shift)) _

theorem roundDown_of_dvd {l shift : ℕ} (h : 2 ^ shift ∣ l) : roundDown l shift = l := by
  rw [roundDown_eq, Nat.div_mul_cancel h]

/-- The priority is `1 << pri_div_shift`. -/
def Weighted (e : SchedEntity) : Prop := e.priority = 1 <<< e.priDivShift

theorem Weighted.priority_eq {e : SchedEntity} (h : Weighted e) : e.priority = 2 ^ e.priDivShift := by
  rw [h, Nat.one_shiftLeft]

theorem Weighted.consumed_mul {e : SchedEntity} (h : Weighted e) (l : ℕ) :
    (l >>> e.priDivShift) * e.priority = roundDown l e.priDivShift := by
  rw [h.priority_eq, roundDown, Nat.shiftLeft_eq]

theorem Weighted.normal_vruntime {e : SchedEntity} (h : Weighted e) {l : ℕ} (hl : l < size) :
    (normal l e).jiffiesVruntime = roundDown l e.priDivShift := by
  change u32 ((l >>> e.priDivShift) * e.priority) = _
  rw [h.consumed_mul, u32_of_lt ((roundDown_le l _).trans_lt hl)]

/-- What `update_vruntime_runq` leaves of one entity, for a leftmost vruntime `l`. -/
structure NormalEntity (l : ℕ) (e e' : SchedEntity) : Prop where
  vruntime : e'.jiffiesVruntime = (l >>> e.priDivShift) <<< e.priDivShift
  consumed : e'.jiffiesConsumed = l >>> e.priDivShift
  above : l < e'.jiffiesVruntime + e.priority
  below : e'.jiffiesVruntime ≤ l
  noOverflow : (l >>> e.priDivShift) * e.priority < size
  fields : e' = { e with jiffiesVruntime := e'.jiffiesVruntime, jiffiesConsumed := e'.jiffiesConsumed }

theorem Weighted.normalEntity {e : SchedEntity} (h : Weighted e) {l : ℕ} (hl : l < size) :
    NormalEntity l e (normal l e) := by
  have hvruntime := h.normal_vruntime hl
  constructor
  · exact hvruntime
  · rfl
  · rw [hvruntime, h.priority_eq]
    exact lt_roundDown_add l _
  · rw [hvruntime]
    exact roundDown_le l _
  · rw [h.consumed_mul]
    exact (roundDown_le l _).trans_lt hl
  · rfl

/-- The run queue with its cached leftmost entity, and the priorities there and of `se`. -/
structure Ready (k : Kernel τ) (leftmost se : τ) : Prop where
  cached : k.runq.rbLeftmost = some leftmost
  first : k.queue.head? = some leftmost
  weighted : ∀ t, t ∈ k.queue ∨ t = se → Weighted (k.se t)
  dvd : (k.se leftmost).priority ∣ k.vruntime leftmost
  lt : k.vruntime leftmost < size

theorem Ready.leftmost_mem {k : Kernel τ} {leftmost se : τ} (h : Ready k leftmost se) : leftmost ∈ k.queue :=
  List.mem_of_mem_head? h.first

/-- The leftmost entity is normal already. -/
theorem Ready.normal_leftmost {k : Kernel τ} {leftmost se : τ} (h : Ready k leftmost se) :
    (normal (k.vruntime leftmost) (k.se leftmost)).jiffiesVruntime = k.vruntime leftmost := by
  have hweight := h.weighted leftmost (.inl h.leftmost_mem)
  rw [hweight.normal_vruntime h.lt]
  apply roundDown_of_dvd
  rw [← hweight.priority_eq]
  exact h.dvd

/-- `k'` has `se` and the queued entities of `k` at the leftmost vruntime `l`, and all else as in `k`. -/
structure Normalised (k k' : Kernel τ) (l : ℕ) (se : τ) : Prop where
  entity : ∀ t, t ∈ k.queue ∨ t = se → NormalEntity l (k.se t) (k'.se t)
  others : ∀ t, t ∉ k.queue → t ≠ se → k'.se t = k.se t
  runq : k'.runq = k.runq
  rest : SeOnly k k'

variable [DecidableEq τ]

/-- Whatever the shape of the tree, and also where `se` is the leftmost entity or another one in the queue. -/
theorem vruntimes_normalised {k : Kernel τ} {leftmost se : τ} (h : Ready k leftmost se) :
    Normalised k (updateVruntimeRunq k se) (k.vruntime leftmost) se ∧
      (updateVruntimeRunq k se).vruntime leftmost = k.vruntime leftmost := by
  have hse := updateVruntimeRunq_se h.cached h.first h.normal_leftmost se
  have hframe := updateVruntimeRunq_seOnly k se
  constructor
  · constructor
    · intro t ht
      rw [hse, if_pos ht]
      exact (h.weighted t ht).normalEntity h.lt
    · intro t hqueue hne
      rw [hse, if_neg (not_or.mpr ⟨hqueue, hne⟩)]
    · exact hframe.runq
    · exact hframe
  · rw [Kernel.vruntime, hse, if_pos (.inl h.leftmost_mem)]
    exact h.normal_leftmost

/-- The entity 1 is leftmost at 36, the idle entity 0 is behind it, and 2 is about to be enqueued. -/
def leftmostAt36 : Kernel ℕ :=
  { bootKernel with
    task := fun t => { rawTask with
      se := { jiffiesVruntime := if t = 0 then 48 else 36, ticksConsumed := 0, jiffiesConsumed := 0
              priority := if t = 0 then 16 else if t = 2 then 8 else 4
              priDivShift := if t = 0 then 4 else if t = 2 then 3 else 2 } }
    runq := { root := .node .black .nil 1 (.node .red .nil 0 .nil), rbLeftmost := some 1, prioritySum := 20,
              cfsTaskNum := 2 } }

theorem normalised_at_36 : Normalised leftmostAt36 (updateVruntimeRunq leftmostAt36 2) 36 2 ∧
    (updateVruntimeRunq leftmostAt36 2).vruntime 1 = 36 := by
  have hready : Ready leftmostAt36 1 2 := by
    constructor
    · rfl
    · rfl
    · rintro t (ht | rfl)
      · rcases List.mem_cons.mp ht with rfl | ht
        · rfl
        · cases List.mem_singleton.mp ht
          rfl
      · rfl
    · exact ⟨9, rfl⟩
    · decide
  exact vruntimes_normalised hready

end Slos.RunQueueNormal
