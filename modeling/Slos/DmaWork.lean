import Slos.Word
import Mathlib.Data.List.Nodup
import Mathlib.Logic.Function.Basic

/-!
# Splitting DMA work

`set_dma_work` and `start_dma` of `dma.c`. The work orders are objects of the heap, linked from `dev->data`; an access to one that
is not allocated, like a second `kfree`, has no result. What `kmalloc` returns keeps its old contents, and `is_first` is never
set in it: `set_dma_work` writes that flag behind the device.
-/

namespace Slos.DmaWork
open Word

variable {τ : Type}

structure Burst where
  src : ℕ
  dst : ℕ
  len : ℕ
  deriving DecidableEq

structure WorkOrder (τ : Type) where
  orderNum : ℕ
  burst : Burst
  next : Option τ
  isFirst : Bool

inductive Event (τ : Type)
  | flush
  | kfree (p : τ)
  | start (b : Burst)
  deriving DecidableEq

/-- The heap, the device with its registers, and what has been done. `behind` is the byte behind the `struct device`, where a
work order has its flag `is_first`. -/
structure Dma (τ : Type) where
  node : τ → WorkOrder τ
  live : τ → Bool
  data : Option τ
  behind : Bool
  cntl : ℕ
  regs : Burst
  log : List (Event τ)

def burstLen : ℕ := 0x1000

variable [DecidableEq τ]

def Dma.setNode (s : Dma τ) (p : τ) (o : WorkOrder τ) : Dma τ := { s with node := Function.update s.node p o }

/-- `kmalloc` and the assignments to the new order. -/
def Dma.newOrder (s : Dma τ) (p : τ) (num : ℕ) (b : Burst) : Option (Dma τ) :=
  if s.live p then none
  else some { s.setNode p { s.node p with orderNum := num, burst := b, next := none } with
    live := Function.update s.live p true }

def Dma.setNext (s : Dma τ) (p q : τ) : Option (Dma τ) :=
  if s.live p then some (s.setNode p { s.node p with next := some q }) else none

/-- Order `i` for a burst of `len` bytes. -/
def nth (src dst i len : ℕ) : Burst := ⟨u32 (src + burstLen * i), u32 (dst + burstLen * i), len⟩

/-- The first iterations of the loop, with `pcur`; `mem i` is what `kmalloc` returns in iteration `i`. -/
def splitLoop (mem : ℕ → τ) (src dst : ℕ) (s : Dma τ) : ℕ → Option (Dma τ × Option τ)
  | 0 => some (s, none)
  | i + 1 => (splitLoop mem src dst s i).bind fun (s, pcur) =>
      (s.newOrder (mem i) i (nth src dst i burstLen)).bind fun s =>
        if i = 0 then some ({ s with data := some (mem i) }, some (mem i))
        else pcur.bind fun p => (s.setNext p (mem i)).map fun s => (s, some (mem i))

def setDmaWork (mem : ℕ → τ) (s : Dma τ) (src dst len : ℕ) : Option (Dma τ) :=
  let s := { s with behind := true }
  if burstLen < len then
    let q := len / burstLen
    let r := len % burstLen
    (splitLoop mem src dst s q).bind fun (s, pcur) =>
      if r ≠ 0 then
        (s.newOrder (mem q) q (nth src dst q r)).bind fun s =>
          match pcur with
          | none => some s
          | some p => s.setNext p (mem q)
      else some s
  else
    (s.newOrder (mem 0) 0 ⟨src, dst, len⟩).map fun s => { s with data := some (mem 0) }

def Dma.kfree (s : Dma τ) (p : τ) : Option (Dma τ) :=
  if s.live p then some { s with live := Function.update s.live p false, log := s.log ++ [.kfree p] } else none

/-- `if (is_first)` of the first order. -/
def Dma.flushFirst (s : Dma τ) (p : τ) : Dma τ :=
  if (s.node p).isFirst then { s.setNode p { s.node p with isFirst := false } with log := s.log ++ [.flush] } else s

def startDma (s : Dma τ) : Option (Dma τ) :=
  s.data.bind fun p =>
    if s.live p then
      let s := s.flushFirst p
      let s := { s with regs := (s.node p).burst }
      let s := { s with data := (s.node p).next }
      (s.kfree p).map fun s => { s with cntl := s.cntl ||| 0x1, log := s.log ++ [.start s.regs] }
    else none

/-- `start_dma` until `dev->data` is `NULL`. -/
def drain : ℕ → Dma τ → Option (Dma τ)
  | 0, s => if s.data = none then some s else none
  | n + 1, s => if s.data = none then some s else (startDma s).bind (drain n)

/-- The number of bursts for `len` bytes. -/
def burstNum (len : ℕ) : ℕ := max 1 ((len + (burstLen - 1)) / burstLen)

def bursts (src dst len : ℕ) : List Burst :=
  (List.range (burstNum len)).map fun k => nth src dst k (min burstLen (len - burstLen * k))

/-- From `data` on the orders are linked and hold the bursts. -/
def Queued (node : τ → WorkOrder τ) : List (τ × Burst) → Option τ → Prop
  | [], data => data = none
  | (p, b) :: qs, data => data = some p ∧ (node p).burst = b ∧ Queued node qs (node p).next

omit [DecidableEq τ] in
theorem Queued.congr {node node' : τ → WorkOrder τ} {qs : List (τ × Burst)} {data : Option τ} (h : Queued node qs data)
    (heq : ∀ q ∈ qs, (node' q.1).burst = (node q.1).burst ∧ (node' q.1).next = (node q.1).next) : Queued node' qs data := by
  induction qs generalizing data with
  | nil => exact h
  | cons q qs ih =>
      obtain ⟨hdata, hburst, hrest⟩ := h
      have hq := heq q List.mem_cons_self
      refine ⟨hdata, hq.1.trans hburst, ?_⟩
      rw [hq.2]
      exact ih hrest fun r hr => heq r (List.mem_cons_of_mem _ hr)

omit [DecidableEq τ] in
/-- One more order behind the last one, `p`. -/
theorem Queued.snoc {node node' : τ → WorkOrder τ} {qs : List (τ × Burst)} {p x : τ} {b b' : Burst} {data : Option τ}
    (h : Queued node (qs ++ [(p, b)]) data) (hp : ∀ q ∈ qs, q.1 ≠ p)
    (hother : ∀ q ∈ qs, (node' q.1).burst = (node q.1).burst ∧ (node' q.1).next = (node q.1).next)
    (hburst : (node' p).burst = (node p).burst) (hnext : (node' p).next = some x) (hx : (node' x).burst = b')
    (hend : (node' x).next = none) : Queued node' (qs ++ [(p, b)] ++ [(x, b')]) data := by
  induction qs generalizing data with
  | nil => exact ⟨h.1, hburst.trans h.2.1, hnext, hx, hend⟩
  | cons q qs ih =>
      obtain ⟨hdata, hqb, hrest⟩ := h
      have hq := hother q List.mem_cons_self
      refine ⟨hdata, hq.1.trans hqb, ?_⟩
      rw [hq.2]
      exact ih hrest (fun r hr => hp r (List.mem_cons_of_mem _ hr)) fun r hr => hother r (List.mem_cons_of_mem _ hr)

theorem newOrder_eq {s : Dma τ} {p : τ} (hp : s.live p = false) (num : ℕ) (b : Burst) : s.newOrder p num b =
    some { s.setNode p { s.node p with orderNum := num, burst := b, next := none } with
      live := Function.update s.live p true } := by
  rw [Dma.newOrder, hp]
  rfl

theorem setNext_eq {s : Dma τ} {p : τ} (hp : s.live p = true) (q : τ) :
    s.setNext p q = some (s.setNode p { s.node p with next := some q }) := if_pos hp

/-- `s'` has the orders `qs` from `dev->data` on, allocated since `s`. -/
structure Loaded (s s' : Dma τ) (qs : List (τ × Burst)) : Prop where
  queued : Queued s'.node qs s'.data
  nodup : (qs.map Prod.fst).Nodup
  live : ∀ t, s'.live t = (s.live t || decide (t ∈ qs.map Prod.fst))
  log : s'.log = s.log

/-- The first order. -/
theorem loaded_first {s : Dma τ} {p : τ} (hp : s.live p = false) (num : ℕ) (b : Burst) :
    ∃ s', (s.newOrder p num b).map (fun t => { t with data := some p }) = some s' ∧ Loaded s s' [(p, b)] := by
  rw [newOrder_eq hp]
  refine ⟨_, rfl, ?_⟩
  constructor
  · refine ⟨rfl, ?_, ?_⟩
    · simp [Dma.setNode]
    · simp [Dma.setNode, Queued]
  · exact List.nodup_singleton p
  · intro t
    by_cases ht : t = p <;> simp [ht]
  · rfl

/-- One more order, linked to the last one. -/
theorem Loaded.extend {s s' : Dma τ} {qs : List (τ × Burst)} {p x : τ} {b : Burst} (h : Loaded s s' (qs ++ [(p, b)]))
    (hx : s.live x = false) (hnew : x ∉ (qs ++ [(p, b)]).map Prod.fst) (num : ℕ) (b' : Burst) :
    ∃ s'', (s'.newOrder x num b').bind (fun t => t.setNext p x) = some s'' ∧
      Loaded s s'' (qs ++ [(p, b)] ++ [(x, b')]) := by
  have hxfree : s'.live x = false := by
    rw [h.live, hx, Bool.false_or, decide_eq_false hnew]
  have hpx : p ≠ x := by
    rintro rfl
    exact hnew (List.mem_map.mpr ⟨(p, b), List.mem_append_right _ List.mem_cons_self, rfl⟩)
  have hplive : s'.live p = true := by
    rw [h.live]
    simp
  have hnot : ∀ q ∈ qs, q.1 ≠ p ∧ q.1 ≠ x := by
    intro q hq
    have hmem : q.1 ∈ qs.map Prod.fst := List.mem_map.mpr ⟨q, hq, rfl⟩
    have hnd := h.nodup
    rw [List.map_append, List.nodup_append] at hnd
    constructor
    · exact hnd.2.2 _ hmem _ List.mem_cons_self
    · rintro rfl
      exact hnew (List.mem_map.mpr ⟨q, List.mem_append_left _ hq, rfl⟩)
  rw [newOrder_eq hxfree, Option.bind_some, setNext_eq]
  · refine ⟨_, rfl, ?_⟩
    constructor
    · apply h.queued.snoc (fun q hq => (hnot q hq).1)
      · intro q hq
        simp [Dma.setNode, hnot q hq]
      · simp [Dma.setNode, hpx]
      · simp [Dma.setNode]
      · simp [Dma.setNode, hpx.symm]
      · simp [Dma.setNode, hpx.symm]
    · rw [List.map_append]
      refine List.nodup_append.mpr ⟨h.nodup, List.nodup_singleton x, ?_⟩
      rintro a ha c hc rfl
      cases List.mem_singleton.mp hc
      exact hnew ha
    · intro t
      change Function.update s'.live x true t = _
      rcases eq_or_ne t x with rfl | ht
      · rw [Function.update_self, List.map_append, decide_eq_true, Bool.or_true]
        exact List.mem_append_right _ List.mem_cons_self
      · rw [Function.update_of_ne ht, h.live]
        congr 1
        apply decide_eq_decide.mpr
        simp [ht]
    · exact h.log
  · change Function.update s'.live x true p = true
    rw [Function.update_of_ne hpx, hplive]

/-- `kmalloc` returns `n` fresh objects. -/
structure Fresh (s : Dma τ) (mem : ℕ → τ) (n : ℕ) : Prop where
  free : ∀ i < n, s.live (mem i) = false
  distinct : ∀ i < n, ∀ j < n, mem i = mem j → i = j

def fullOrders (mem : ℕ → τ) (src dst n : ℕ) : List (τ × Burst) :=
  (List.range n).map fun k => (mem k, nth src dst k burstLen)

omit [DecidableEq τ] in
theorem fullOrders_succ (mem : ℕ → τ) (src dst n : ℕ) :
    fullOrders mem src dst (n + 1) = fullOrders mem src dst n ++ [(mem n, nth src dst n burstLen)] := by
  rw [fullOrders, List.range_succ, List.map_append]
  rfl

omit [DecidableEq τ] in
theorem Fresh.not_mem {s : Dma τ} {mem : ℕ → τ} {n i : ℕ} (h : Fresh s mem n) (hi : i < n) (src dst : ℕ) :
    mem i ∉ (fullOrders mem src dst i).map Prod.fst := by
  rw [fullOrders, List.map_map, List.mem_map]
  rintro ⟨k, hk, hmem⟩
  have hlt := List.mem_range.mp hk
  exact hlt.ne (h.distinct k (hlt.trans hi) i hi hmem)

theorem splitLoop_loaded {mem : ℕ → τ} (src dst : ℕ) {n : ℕ} {s : Dma τ} (h : Fresh s mem (n + 1)) :
    ∃ s', splitLoop mem src dst s (n + 1) = some (s', some (mem n)) ∧ Loaded s s' (fullOrders mem src dst (n + 1)) := by
  induction n with
  | zero =>
      obtain ⟨s', hs', hloaded⟩ := loaded_first (h.free 0 Nat.one_pos) 0 (nth src dst 0 burstLen)
      obtain ⟨t, ht, rfl⟩ := Option.map_eq_some_iff.mp hs'
      refine ⟨_, ?_, hloaded⟩
      rw [splitLoop, splitLoop, Option.bind_some]
      dsimp only
      rw [ht, Option.bind_some, if_pos rfl]
  | succ n ih =>
      have hprev : Fresh s mem (n + 1) := ⟨fun i hi => h.free i (hi.trans (Nat.lt_succ_self _)), fun i hi j hj =>
        h.distinct i (hi.trans (Nat.lt_succ_self _)) j (hj.trans (Nat.lt_succ_self _))⟩
      obtain ⟨s', hs', hloaded⟩ := ih hprev
      rw [fullOrders_succ] at hloaded
      have hnew := h.not_mem (Nat.lt_succ_self (n + 1)) src dst
      rw [fullOrders_succ] at hnew
      obtain ⟨s'', hs'', hloaded'⟩ :=
        hloaded.extend (h.free (n + 1) (Nat.lt_succ_self _)) hnew (n + 1) (nth src dst (n + 1) burstLen)
      rw [← fullOrders_succ, ← fullOrders_succ] at hloaded'
      refine ⟨s'', ?_, hloaded'⟩
      obtain ⟨t, ht, htn⟩ := Option.bind_eq_some_iff.mp hs''
      rw [splitLoop, hs', Option.bind_some]
      dsimp only
      rw [ht, Option.bind_some, if_neg (Nat.succ_ne_zero n), Option.bind_some, htn, Option.map_some]

/-- The orders for `len` bytes. -/
def orders (mem : ℕ → τ) (src dst len : ℕ) : List (τ × Burst) :=
  (List.range (burstNum len)).map fun k => (mem k, nth src dst k (min burstLen (len - burstLen * k)))

omit [DecidableEq τ] in
theorem orders_fst (mem : ℕ → τ) (src dst len : ℕ) :
    (orders mem src dst len).map Prod.fst = (List.range (burstNum len)).map mem := by
  rw [orders, List.map_map]
  rfl

omit [DecidableEq τ] in
theorem orders_snd (mem : ℕ → τ) (src dst len : ℕ) : (orders mem src dst len).map Prod.snd = bursts src dst len := by
  rw [orders, List.map_map]
  rfl

omit [DecidableEq τ] in
/-- All bursts are full. -/
theorem orders_of_dvd (mem : ℕ → τ) (src dst : ℕ) {q : ℕ} (hq : 0 < q) :
    orders mem src dst (burstLen * q) = fullOrders mem src dst q := by
  have hnum : burstNum (burstLen * q) = q := by
    unfold burstNum burstLen
    omega
  rw [orders, hnum, fullOrders]
  apply List.map_congr_left
  intro k hk
  have hlt := List.mem_range.mp hk
  have hmin : min burstLen (burstLen * q - burstLen * k) = burstLen := by
    apply min_eq_left
    rw [← Nat.mul_sub]
    exact Nat.le_mul_of_pos_right _ (Nat.sub_pos_of_lt hlt)
  rw [hmin]

omit [DecidableEq τ] in
/-- The last burst takes what is left. -/
theorem orders_of_rem (mem : ℕ → τ) (src dst : ℕ) {q r : ℕ} (hr : 0 < r) (hlt : r < burstLen) :
    orders mem src dst (burstLen * q + r) = fullOrders mem src dst q ++ [(mem q, nth src dst q r)] := by
  have hnum : burstNum (burstLen * q + r) = q + 1 := by
    unfold burstNum burstLen at *
    omega
  rw [orders, hnum, List.range_succ, List.map_append, List.map_singleton, fullOrders]
  congr 1
  · apply List.map_congr_left
    intro k hk
    have hkq := List.mem_range.mp hk
    have hmin : min burstLen (burstLen * q + r - burstLen * k) = burstLen := by
      unfold burstLen at *
      omega
    rw [hmin]
  · rw [Nat.add_sub_cancel_left, min_eq_right hlt.le]

omit [DecidableEq τ] in
theorem orders_of_le (mem : ℕ → τ) {src dst len : ℕ} (hsrc : src < size) (hdst : dst < size) (hlen : len ≤ burstLen) :
    orders mem src dst len = [(mem 0, ⟨src, dst, len⟩)] := by
  have hnum : burstNum len = 1 := by
    unfold burstNum burstLen at *
    omega
  rw [orders, hnum, List.range_one, List.map_singleton, nth, Nat.mul_zero, Nat.add_zero, Nat.add_zero, Nat.sub_zero,
    u32_of_lt hsrc, u32_of_lt hdst, min_eq_right hlen]

theorem setDmaWork_loaded {mem : ℕ → τ} {s : Dma τ} {src dst len : ℕ} (hsrc : src < size) (hdst : dst < size)
    (h : Fresh s mem (burstNum len)) :
    ∃ s', setDmaWork mem s src dst len = some s' ∧ Loaded s s' (orders mem src dst len) := by
  let s₁ := { s with behind := true }
  by_cases hlen : burstLen < len
  · have hdiv := Nat.div_add_mod len burstLen
    have hr : len % burstLen < burstLen := Nat.mod_lt _ (by decide)
    obtain ⟨n, hn⟩ : ∃ n, len / burstLen = n + 1 := by
      apply Nat.exists_eq_succ_of_ne_zero
      exact (Nat.div_pos hlen.le (by decide)).ne'
    have hle : n + 1 ≤ burstNum len := by
      unfold burstNum burstLen at *
      omega
    have hfresh : Fresh s₁ mem (n + 1) := ⟨fun i hi => h.free i (hi.trans_le hle), fun i hi j hj =>
      h.distinct i (hi.trans_le hle) j (hj.trans_le hle)⟩
    obtain ⟨s', hs', hloaded⟩ := splitLoop_loaded src dst hfresh
    rw [setDmaWork, if_pos hlen, hn]
    change ∃ t, (splitLoop mem src dst s₁ (n + 1)).bind _ = some t ∧ _
    rw [hs', Option.bind_some]
    dsimp only
    by_cases hzero : len % burstLen = 0
    · rw [hzero, Nat.add_zero, hn] at hdiv
      rw [if_neg (not_not.mpr hzero), ← hdiv, orders_of_dvd mem src dst (Nat.succ_pos n)]
      exact ⟨s', rfl, ⟨hloaded.queued, hloaded.nodup, hloaded.live, hloaded.log⟩⟩
    · rw [hn] at hdiv
      have hnum : burstNum len = n + 2 := by
        unfold burstNum burstLen at *
        omega
      have hlast : n + 1 < burstNum len := hnum ▸ Nat.lt_succ_self (n + 1)
      have hnew := h.not_mem hlast src dst
      rw [fullOrders_succ] at hnew hloaded
      obtain ⟨s'', hs'', hloaded'⟩ :=
        hloaded.extend (h.free (n + 1) hlast) hnew (n + 1) (nth src dst (n + 1) (len % burstLen))
      rw [← fullOrders_succ, ← orders_of_rem mem src dst (Nat.pos_of_ne_zero hzero) hr, hdiv] at hloaded'
      rw [if_pos hzero]
      exact ⟨s'', hs'', ⟨hloaded'.queued, hloaded'.nodup, hloaded'.live, hloaded'.log⟩⟩
  · have hnum : burstNum len = 1 := by
      unfold burstNum burstLen at *
      omega
    obtain ⟨s', hs', hloaded⟩ := loaded_first (show s₁.live (mem 0) = false from h.free 0 (hnum ▸ Nat.one_pos)) 0 ⟨src, dst, len⟩
    rw [setDmaWork, if_neg hlen, orders_of_le mem hsrc hdst (not_lt.mp hlen)]
    exact ⟨s', hs', ⟨hloaded.queued, hloaded.nodup, hloaded.live, hloaded.log⟩⟩

/-- What has been programmed, in order. -/
def started (es : List (Event τ)) : List Burst := es.filterMap fun
  | .start b => some b
  | _ => none

def freed (es : List (Event τ)) : List τ := es.filterMap fun
  | .kfree p => some p
  | _ => none

theorem startDma_eq {s : Dma τ} {p : τ} (hdata : s.data = some p) (hp : s.live p = true) : startDma s = some
    { s.flushFirst p with
      regs := ((s.flushFirst p).node p).burst, data := ((s.flushFirst p).node p).next
      live := Function.update s.live p false, cntl := (s.flushFirst p).cntl ||| 0x1
      log := (s.flushFirst p).log ++ [.kfree p] ++ [.start ((s.flushFirst p).node p).burst] } := by
  have hlive : (s.flushFirst p).live = s.live := by
    unfold Dma.flushFirst
    split <;> rfl
  simp only [startDma, hdata, Option.bind_some, hp, if_true, Dma.kfree, hlive, Option.map_some]

/-- What `start_dma` does with an order, `first` if its flag is set. -/
def orderEvents (first : Bool) (q : τ × Burst) : List (Event τ) :=
  (if first then [.flush] else []) ++ [.kfree q.1, .start q.2]

def drainEvents (node : τ → WorkOrder τ) (qs : List (τ × Burst)) : List (Event τ) :=
  qs.flatMap fun q => orderEvents (node q.1).isFirst q

omit [DecidableEq τ] in
theorem drainEvents_congr {node node' : τ → WorkOrder τ} {qs : List (τ × Burst)}
    (h : ∀ q ∈ qs, (node' q.1).isFirst = (node q.1).isFirst) : drainEvents node' qs = drainEvents node qs :=
  List.flatMap_congr fun q hq => congrArg (orderEvents · q) (h q hq)

omit [DecidableEq τ] in
theorem started_drainEvents (node : τ → WorkOrder τ) (qs : List (τ × Burst)) :
    started (drainEvents node qs) = qs.map Prod.snd := by
  induction qs with
  | nil => rfl
  | cons q qs ih =>
      rw [drainEvents, List.flatMap_cons, ← drainEvents, started, List.filterMap_append, ← started, ← started, ih,
        List.map_cons, orderEvents]
      split <;> rfl

omit [DecidableEq τ] in
theorem freed_drainEvents (node : τ → WorkOrder τ) (qs : List (τ × Burst)) :
    freed (drainEvents node qs) = qs.map Prod.fst := by
  induction qs with
  | nil => rfl
  | cons q qs ih =>
      rw [drainEvents, List.flatMap_cons, ← drainEvents, freed, List.filterMap_append, ← freed, ← freed, ih,
        List.map_cons, orderEvents]
      split <;> rfl

/-- One order is taken from the list and freed, and its burst is programmed. -/
theorem startDma_first {s : Dma τ} {p : τ} {b : Burst} {qs : List (τ × Burst)} (h : Queued s.node ((p, b) :: qs) s.data)
    (hp : s.live p = true) : ∃ s', startDma s = some s' ∧ Queued s'.node qs s'.data ∧
      s'.live = Function.update s.live p false ∧ s'.log = s.log ++ orderEvents (s.node p).isFirst (p, b) ∧
      ∀ t, t ≠ p → (s'.node t).isFirst = (s.node t).isFirst := by
  obtain ⟨hdata, hburst, hrest⟩ := h
  have hnode : ∀ t, ((s.flushFirst p).node t).burst = (s.node t).burst ∧ ((s.flushFirst p).node t).next = (s.node t).next := by
    intro t
    unfold Dma.flushFirst
    split
    · by_cases ht : t = p <;> simp [Dma.setNode, ht]
    · exact ⟨rfl, rfl⟩
  have hflag : ∀ t, t ≠ p → ((s.flushFirst p).node t).isFirst = (s.node t).isFirst := by
    intro t ht
    unfold Dma.flushFirst
    split
    · simp [Dma.setNode, ht]
    · rfl
  have hlog : (s.flushFirst p).log = s.log ++ if (s.node p).isFirst then [.flush] else [] := by
    unfold Dma.flushFirst
    split
    · rfl
    · exact (List.append_nil _).symm
  refine ⟨_, startDma_eq hdata hp, ?_, rfl, ?_, hflag⟩
  · dsimp only
    rw [(hnode p).2]
    exact hrest.congr fun q _ => hnode q.1
  · dsimp only
    rw [hlog, (hnode p).1, hburst, orderEvents, List.append_assoc, List.append_assoc]
    rfl

/-- The list is drained: no order is read or freed after it was freed, since that has no result. -/
theorem drain_eq {s : Dma τ} {qs : List (τ × Burst)} (h : Queued s.node qs s.data) (hnd : (qs.map Prod.fst).Nodup)
    (hlive : ∀ p ∈ qs.map Prod.fst, s.live p = true) {n : ℕ} (hn : qs.length ≤ n) :
    ∃ s', drain n s = some s' ∧ s'.data = none ∧ (∀ t, s'.live t = (s.live t && !decide (t ∈ qs.map Prod.fst))) ∧
      s'.log = s.log ++ drainEvents s.node qs := by
  induction qs generalizing s n with
  | nil =>
      have hdata : s.data = none := h
      refine ⟨s, ?_, hdata, ?_, (List.append_nil _).symm⟩
      · cases n
        · exact if_pos hdata
        · exact if_pos hdata
      · intro t
        simp
  | cons q qs ih =>
      obtain ⟨p, b⟩ := q
      obtain ⟨n, rfl⟩ : ∃ k, n = k + 1 := Nat.exists_eq_succ_of_ne_zero (Nat.ne_zero_of_lt hn)
      rw [List.map_cons, List.nodup_cons] at hnd
      obtain ⟨s₁, hs₁, hqueued, hlive₁, hlog₁, hflag⟩ := startDma_first h (hlive p List.mem_cons_self)
      have hne : ∀ t ∈ qs.map Prod.fst, t ≠ p := fun t ht he => hnd.1 (he ▸ ht)
      have hrest : ∀ t ∈ qs.map Prod.fst, s₁.live t = true := by
        intro t ht
        rw [hlive₁, Function.update_of_ne (hne t ht)]
        exact hlive t (List.mem_cons_of_mem _ ht)
      obtain ⟨s₂, hs₂, hdata₂, hlive₂, hlog₂⟩ := ih hqueued hnd.2 hrest (Nat.le_of_succ_le_succ hn)
      refine ⟨s₂, ?_, hdata₂, ?_, ?_⟩
      · have hdata : s.data ≠ none := by
          rw [h.1]
          exact Option.some_ne_none p
        rw [drain, if_neg hdata, hs₁, Option.bind_some, hs₂]
      · intro t
        rw [hlive₂, hlive₁]
        rcases eq_or_ne t p with rfl | htp
        · simp
        · rw [Function.update_of_ne htp]
          congr 2
          apply decide_eq_decide.mpr
          rw [List.map_cons, List.mem_cons, or_iff_right htp]
      · have hsame := drainEvents_congr fun q hq => hflag q.1 (hne q.1 (List.mem_map.mpr ⟨q, hq, rfl⟩))
        rw [hlog₂, hlog₁, hsame, List.append_assoc]
        rfl

/-- The pieces of `burstLen` and the rest, one behind the other. -/
theorem pieces_eq {β : Type*} (f : ℕ → β) (len n : ℕ) :
    ((List.range n).flatMap fun k => (List.range (min burstLen (len - burstLen * k))).map fun j => f (burstLen * k + j)) =
      (List.range (min len (burstLen * n))).map f := by
  induction n with
  | zero => simp
  | succ n ih =>
      have hmin : min len (burstLen * (n + 1)) = min len (burstLen * n) + min burstLen (len - burstLen * n) := by
        rw [Nat.mul_succ]
        omega
      rw [List.range_succ, List.flatMap_append, ih, hmin, List.range_add, List.map_append, List.map_map]
      congr 1
      rw [List.flatMap_singleton]
      rcases le_or_gt len (burstLen * n) with hle | hlt
      · rw [Nat.sub_eq_zero_of_le hle, Nat.min_zero]
        rfl
      · rw [min_eq_right hlt.le]
        rfl

theorem burstNum_covers (len : ℕ) : min len (burstLen * burstNum len) = len := by
  unfold burstNum burstLen
  omega

def Burst.srcBytes (b : Burst) : List ℕ := (List.range b.len).map fun j => u32 (b.src + j)

def Burst.dstBytes (b : Burst) : List ℕ := (List.range b.len).map fun j => u32 (b.dst + j)

theorem u32_add (a b : ℕ) : u32 (u32 a + b) = u32 (a + b) := Nat.mod_add_mod a size b

/-- What the bursts read or write: `addr` runs over the bytes one after the other, each once. -/
theorem bursts_bytes {addr : ℕ → ℕ} {g : Burst → List ℕ} (src dst len : ℕ)
    (h : ∀ k n, g (nth src dst k n) = (List.range n).map fun j => addr (burstLen * k + j)) :
    (bursts src dst len).flatMap g = (List.range len).map addr := by
  have hpieces := pieces_eq addr len (burstNum len)
  rw [burstNum_covers] at hpieces
  rw [← hpieces, bursts, List.flatMap_map]
  congr 1
  funext k
  exact h k _

theorem bursts_srcBytes (src dst len : ℕ) :
    (bursts src dst len).flatMap Burst.srcBytes = (List.range len).map fun j => u32 (src + j) := by
  apply bursts_bytes
  intro k n
  simp only [Burst.srcBytes, nth, u32_add, Nat.add_assoc]

theorem bursts_dstBytes (src dst len : ℕ) :
    (bursts src dst len).flatMap Burst.dstBytes = (List.range len).map fun j => u32 (dst + j) := by
  apply bursts_bytes
  intro k n
  simp only [Burst.dstBytes, nth, u32_add, Nat.add_assoc]

/-- The work of a transfer: `s₁` after `set_dma_work`, drained to `s₂`. -/
structure Split (s s₁ s₂ : Dma τ) (mem : ℕ → τ) (src dst len : ℕ) (es : List (Event τ)) : Prop where
  allocated : ∀ t, s₁.live t = (s.live t || decide (t ∈ (List.range (burstNum len)).map mem))
  silent : s₁.log = s.log
  drained : s₂.data = none
  log : s₂.log = s.log ++ es
  programmed : started es = bursts src dst len
  released : freed es = (List.range (burstNum len)).map mem
  once : (freed es).Nodup
  live : s₂.live = s.live
  srcBytes : (started es).flatMap Burst.srcBytes = (List.range len).map fun j => u32 (src + j)
  dstBytes : (started es).flatMap Burst.dstBytes = (List.range len).map fun j => u32 (dst + j)

/-- For every source, destination and length, whatever the heap held. -/
theorem dma_split {mem : ℕ → τ} {s : Dma τ} {src dst len : ℕ} (hsrc : src < size) (hdst : dst < size)
    (h : Fresh s mem (burstNum len)) : ∃ s₁, setDmaWork mem s src dst len = some s₁ ∧
      ∀ n, burstNum len ≤ n → ∃ s₂ es, drain n s₁ = some s₂ ∧ Split s s₁ s₂ mem src dst len es := by
  obtain ⟨s₁, hs₁, hloaded⟩ := setDmaWork_loaded hsrc hdst h
  refine ⟨s₁, hs₁, fun n hn => ?_⟩
  have hlive : ∀ p ∈ (orders mem src dst len).map Prod.fst, s₁.live p = true := by
    intro p hp
    rw [hloaded.live, decide_eq_true hp, Bool.or_true]
  have hlen : (orders mem src dst len).length ≤ n := by
    rw [orders, List.length_map, List.length_range]
    exact hn
  obtain ⟨s₂, hs₂, hdata, hlive₂, hlog⟩ := drain_eq hloaded.queued hloaded.nodup hlive hlen
  have hstarted := started_drainEvents s₁.node (orders mem src dst len)
  have hfreed := freed_drainEvents s₁.node (orders mem src dst len)
  have hnodup := hloaded.nodup
  have hallocated := hloaded.live
  rw [orders_fst] at hfreed hnodup hlive₂ hallocated
  rw [orders_snd] at hstarted
  refine ⟨s₂, drainEvents s₁.node (orders mem src dst len), hs₂, ?_⟩
  constructor
  · exact hallocated
  · exact hloaded.log
  · exact hdata
  · rw [hlog, hloaded.log]
  · exact hstarted
  · exact hfreed
  · rw [hfreed]
    exact hnodup
  · funext t
    rw [hlive₂, hallocated]
    by_cases ht : t ∈ (List.range (burstNum len)).map mem
    · obtain ⟨k, hk, rfl⟩ := List.mem_map.mp ht
      rw [decide_eq_true ht, h.free k (List.mem_range.mp hk)]
      rfl
    · rw [decide_eq_false ht, Bool.or_false, Bool.not_false, Bool.and_true]
  · rw [hstarted]
    exact bursts_srcBytes src dst len
  · rw [hstarted]
    exact bursts_dstBytes src dst len

/-- Nothing is allocated. -/
def emptyHeap : Dma ℕ where
  node := fun _ => ⟨0, ⟨0, 0, 0⟩, none, true⟩
  live := fun _ => false
  data := none
  behind := false
  cntl := 0
  regs := ⟨0, 0, 0⟩
  log := []

/-- A transfer of two full bursts and one of 16 bytes, over the top of the address space. -/
theorem dma_split_three : ∃ s₁, setDmaWork id emptyHeap 0xFFFFF000 0x20000 0x2010 = some s₁ ∧
    ∀ n, burstNum 0x2010 ≤ n → ∃ s₂ es, drain n s₁ = some s₂ ∧ Split emptyHeap s₁ s₂ id 0xFFFFF000 0x20000 0x2010 es :=
  dma_split (by decide) (by decide) ⟨fun _ _ => rfl, fun _ _ _ _ hij => hij⟩

example : bursts 0xFFFFF000 0x20000 0x2010 =
    [⟨0xFFFFF000, 0x20000, 0x1000⟩, ⟨0, 0x21000, 0x1000⟩, ⟨0x1000, 0x22000, 0x10⟩] := by
  decide

end Slos.DmaWork
