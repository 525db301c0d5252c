import Slos.DmaWork
import Slos.ByteMemory

/-!
# The flush before a transfer

`set_dma_work` and `start_dma` on memory byte by byte. The mark of the first burst goes through a cast of the device and
lands behind it; the flag that `start_dma` tests is what the order's memory held when `kmalloc` returned it. The orders in
memory show the objects of `DmaWork`, from which the list and the log of a transfer are taken.
-/

namespace Slos.DmaFlush
open Word ByteMemory DmaWork

/-- Memory, the registers and what has been done. -/
structure DmaMem where
  mem : Mem
  cntl : ℕ
  regs : Burst
  log : List (Event ℕ)

/-- `dev->data`. -/
def data (m : Mem) (dev : ℕ) : ℕ := word m (dev + 16)

/-- `((struct dma_work_order *)p)->is_first`. -/
def isFirst (m : Mem) (p : ℕ) : Bool := m (p + 20) != 0

/-- The assignments to the new order, which leave out `is_first`. -/
def newOrder (m : Mem) (p num : ℕ) (b : Burst) : Mem :=
  put m p (wordBytes num ++ (wordBytes b.src ++ (wordBytes b.dst ++ (wordBytes b.len ++ wordBytes 0))))

def setNext (m : Mem) (p q : ℕ) : Mem := put m (p + 16) (wordBytes q)

def setData (m : Mem) (dev p : ℕ) : Mem := put m (dev + 16) (wordBytes p)

/-- The first iterations of the loop, with `pcur`. -/
def splitLoop (kmalloc : ℕ → ℕ) (dev src dst pcur : ℕ) (m : Mem) : ℕ → Mem × ℕ
  | 0 => (m, pcur)
  | i + 1 =>
      let (m, pcur) := splitLoop kmalloc dev src dst pcur m i
      let ptemp := kmalloc i
      let m := newOrder m ptemp i (nth src dst i burstLen)
      if i = 0 then (setData m dev ptemp, ptemp)
      else
        let m := setNext m pcur ptemp
        (m, word m (pcur + 16))

/-- `pcur` is what the variable holds before the loop. -/
def setDmaWork (kmalloc : ℕ → ℕ) (dev src dst len pcur : ℕ) (m : Mem) : Option Mem :=
  if dev = 0 then none
  else
    let m := put m (dev + 20) [1]
    if burstLen < len then
      let q := len / burstLen
      let r := len % burstLen
      let (m, pcur) := splitLoop kmalloc dev src dst pcur m q
      if r ≠ 0 then
        let m := newOrder m (kmalloc q) q (nth src dst q r)
        if pcur ≠ 0 then some (setNext m pcur (kmalloc q)) else some m
      else some m
    else
      let m := newOrder m (kmalloc 0) 0 ⟨src, dst, len⟩
      some (setData m dev (kmalloc 0))

/-- `if (is_first)` of the first order. -/
def flushFirst (dev : ℕ) (s : DmaMem) : DmaMem :=
  if isFirst s.mem (data s.mem dev) then
    { s with mem := put s.mem (data s.mem dev + 20) [0], log := s.log ++ [.flush] }
  else s

def startDma (dev : ℕ) (s : DmaMem) : Option DmaMem :=
  if dev = 0 then none
  else
    let s := flushFirst dev s
    let p := data s.mem dev
    let s : DmaMem := { s with regs := ⟨word s.mem (p + 4), word s.mem (p + 8), word s.mem (p + 12)⟩ }
    let s : DmaMem := { s with mem := setData s.mem dev (word s.mem (p + 16)), log := s.log ++ [.kfree p] }
    some { s with cntl := s.cntl ||| 0x1, log := s.log ++ [.start s.regs] }

/-- `start_dma` until `dev->data` is `NULL`. -/
def drain (dev : ℕ) : ℕ → DmaMem → Option DmaMem
  | 0, s => if data s.mem dev = 0 then some s else none
  | n + 1, s => if data s.mem dev = 0 then some s else (startDma dev s).bind (drain dev n)

/-- Where the device and the orders are. -/
structure Placed (dev : ℕ) (A : Set ℕ) : Prop where
  device : ∀ p ∈ A, p + 24 ≤ dev ∨ dev + 20 ≤ p
  apart : ∀ p ∈ A, ∀ q ∈ A, p ≠ q → p + 24 ≤ q ∨ q + 24 ≤ p
  inside : ∀ p ∈ A, 0 < p ∧ p + 24 ≤ size

def ptr (a : ℕ) : Option ℕ := if a = 0 then none else some a

/-- Memory holds the orders at `A` and `dev->data` as the objects do. -/
structure Shows (dev : ℕ) (A : Set ℕ) (m : Mem) (node : ℕ → WorkOrder ℕ) (d : Option ℕ) : Prop where
  burst : ∀ p ∈ A, (⟨word m (p + 4), word m (p + 8), word m (p + 12)⟩ : Burst) = (node p).burst
  next : ∀ p ∈ A, ptr (word m (p + 16)) = (node p).next
  isFirst : ∀ p ∈ A, isFirst m p = (node p).isFirst
  data : ptr (data m dev) = d

variable {dev p q num : ℕ} {A : Set ℕ} {m m' : Mem} {node : ℕ → WorkOrder ℕ} {d : Option ℕ} {b : Burst}

theorem ptr_of_pos (h : 0 < p) : ptr p = some p := if_neg h.ne'

theorem ptr_eq_some (h : ptr p = some q) : p = q ∧ p ≠ 0 := by
  rw [ptr] at h
  split at h
  · cases h
  · exact ⟨Option.some.inj h, by assumption⟩

/-- The three fields of another order stay with its bytes. -/
theorem Shows.congr (h : Shows dev A m node d) {node' : ℕ → WorkOrder ℕ} {d' : Option ℕ}
    (hother : ∀ q ∈ A, q ≠ p → node' q = node q) (hmem : ∀ q ∈ A, q ≠ p → ∀ x, q ≤ x → x < q + 24 → m' x = m x)
    (hburst : (⟨word m' (p + 4), word m' (p + 8), word m' (p + 12)⟩ : Burst) = (node' p).burst)
    (hnext : ptr (word m' (p + 16)) = (node' p).next) (hfirst : DmaFlush.isFirst m' p = (node' p).isFirst)
    (hdata : ptr (DmaFlush.data m' dev) = d') : Shows dev A m' node' d' := by
  have hword {q k : ℕ} (hq : q ∈ A) (hqp : q ≠ p) (hk : k ≤ 20) : word m' (q + k) = word m (q + k) :=
    word_congr fun x hlo hhi => hmem q hq hqp x (by omega) (by omega)
  refine ⟨fun q hq => ?_, fun q hq => ?_, fun q hq => ?_, hdata⟩
  · by_cases hqp : q = p
    · rw [hqp, hburst]
    · rw [hother q hq hqp, ← h.burst q hq, hword hq hqp (by decide), hword hq hqp (by decide), hword hq hqp (by decide)]
  · by_cases hqp : q = p
    · rw [hqp, hnext]
    · rw [hother q hq hqp, ← h.next q hq, hword hq hqp (by decide)]
  · by_cases hqp : q = p
    · rw [hqp, hfirst]
    · rw [hother q hq hqp, ← h.isFirst q hq, DmaFlush.isFirst, DmaFlush.isFirst]
      rw [hmem q hq hqp (q + 20) (by omega) (by omega)]

theorem newOrder_of_notMem {x : ℕ} (hx : x < p ∨ p + 20 ≤ x) : newOrder m p num b x = m x := put_of_notMem hx

theorem setNext_of_notMem {x : ℕ} (hx : x < p + 16 ∨ p + 20 ≤ x) : setNext m p q x = m x :=
  put_of_notMem (by rwa [wordBytes_length, Nat.add_assoc])

theorem setData_of_notMem {x : ℕ} (hx : x < dev + 16 ∨ dev + 20 ≤ x) : setData m dev p x = m x :=
  put_of_notMem (by rwa [wordBytes_length, Nat.add_assoc])

theorem newOrder_burst (hsrc : b.src < size) (hdst : b.dst < size) (hlen : b.len < size) :
    (⟨word (newOrder m p num b) (p + 4), word (newOrder m p num b) (p + 8),
      word (newOrder m p num b) (p + 12)⟩ : Burst) = b := by
  have h4 : word (newOrder m p num b) (p + 4) = u32 b.src := word_put_mid rfl
  have h8 : word (newOrder m p num b) (p + 8) = u32 b.dst := by
    rw [newOrder, ← List.append_assoc]
    exact word_put_mid rfl
  have h12 : word (newOrder m p num b) (p + 12) = u32 b.len := by
    rw [newOrder, ← List.append_assoc, ← List.append_assoc]
    exact word_put_mid rfl
  rw [h4, h8, h12, u32_of_lt hsrc, u32_of_lt hdst, u32_of_lt hlen]

theorem newOrder_next : word (newOrder m p num b) (p + 16) = 0 := by
  rw [newOrder, ← List.append_assoc, ← List.append_assoc, ← List.append_assoc, ← List.append_nil (wordBytes 0)]
  exact word_put_mid rfl

theorem nth_src_lt (src dst i len : ℕ) : (nth src dst i len).src < size := u32_lt _

theorem nth_dst_lt (src dst i len : ℕ) : (nth src dst i len).dst < size := u32_lt _

section Writes

theorem Shows.newOrder (hA : Placed dev A) (h : Shows dev A m node d) (hp : p ∈ A) (hsrc : b.src < size)
    (hdst : b.dst < size) (hlen : b.len < size) : Shows dev A (newOrder m p num b)
      (Function.update node p { node p with orderNum := num, burst := b, next := none }) d := by
  refine h.congr (p := p) (fun q _ hqp => Function.update_of_ne hqp _ _) (fun q hq hqp x hlo hhi => ?_) ?_ ?_ ?_ ?_
  · have hqp' := hA.apart q hq p hp hqp
    exact newOrder_of_notMem (by omega)
  · rw [newOrder_burst hsrc hdst hlen, Function.update_self]
  · rw [newOrder_next, Function.update_self]
    rfl
  · rw [Function.update_self, DmaFlush.isFirst, newOrder_of_notMem (Or.inr le_rfl)]
    exact h.isFirst p hp
  · rw [← h.data, DmaFlush.data, DmaFlush.data]
    refine congrArg ptr (word_congr fun x hlo hhi => newOrder_of_notMem ?_)
    have hdev := hA.device p hp
    omega

theorem Shows.setNext (hA : Placed dev A) (h : Shows dev A m node d) (hp : p ∈ A) (hq : q ∈ A) :
    Shows dev A (setNext m p q) (Function.update node p { node p with next := some q }) d := by
  obtain ⟨hpos, hlt⟩ := hA.inside q hq
  refine h.congr (p := p) (fun q _ hqp => Function.update_of_ne hqp _ _) (fun r hr hrp x hlo hhi => ?_) ?_ ?_ ?_ ?_
  · have hrp' := hA.apart r hr p hp hrp
    exact setNext_of_notMem (by omega)
  · have hword {k : ℕ} (hk : k ≤ 12) : word (DmaFlush.setNext m p q) (p + k) = word m (p + k) :=
      word_congr fun x _ hhi => setNext_of_notMem (by omega)
    rw [hword (by decide), hword (by decide), hword (by decide), Function.update_self]
    exact h.burst p hp
  · rw [Function.update_self, DmaFlush.setNext, word_put_wordBytes (by omega), ptr_of_pos hpos]
  · rw [Function.update_self, DmaFlush.isFirst, setNext_of_notMem (Or.inr le_rfl)]
    exact h.isFirst p hp
  · rw [← h.data, DmaFlush.data, DmaFlush.data]
    refine congrArg ptr (word_congr fun x hlo hhi => setNext_of_notMem ?_)
    have hdev := hA.device p hp
    omega

/-- Writes to the device and to the byte behind it leave the orders. -/
theorem Shows.outside (hA : Placed dev A) (h : Shows dev A m node d) {d' : Option ℕ}
    (hout : ∀ x, x < dev + 16 ∨ dev + 21 ≤ x → m' x = m x) (hdata : ptr (DmaFlush.data m' dev) = d') :
    Shows dev A m' node d' := by
  have hword {p k : ℕ} (hp : p ∈ A) (hlo : 1 ≤ k) (hhi : k ≤ 16) : word m' (p + k) = word m (p + k) := by
    have hdev := hA.device p hp
    exact word_congr fun x _ _ => hout x (by omega)
  refine ⟨fun p hp => ?_, fun p hp => ?_, fun p hp => ?_, hdata⟩
  · rw [← h.burst p hp, hword hp (by decide) (by decide), hword hp (by decide) (by decide),
      hword hp (by decide) (by decide)]
  · rw [← h.next p hp, hword hp (by decide) (by decide)]
  · have hdev := hA.device p hp
    rw [← h.isFirst p hp, DmaFlush.isFirst, DmaFlush.isFirst, hout (p + 20) (by omega)]

theorem Shows.setData (hA : Placed dev A) (h : Shows dev A m node d) (hp : p ∈ A) :
    Shows dev A (setData m dev p) node (some p) := by
  obtain ⟨hpos, hlt⟩ := hA.inside p hp
  refine h.outside hA (fun x hx => setData_of_notMem (by omega)) ?_
  · rw [DmaFlush.data, DmaFlush.setData, word_put_wordBytes (by omega), ptr_of_pos hpos]

theorem Shows.mark (hA : Placed dev A) (h : Shows dev A m node d) (v : UInt8) :
    Shows dev A (put m (dev + 20) [v]) node d := by
  refine h.outside hA (fun x hx => put_of_notMem ?_) ?_
  · rw [List.length_singleton]
    omega
  · rw [← h.data, DmaFlush.data, DmaFlush.data, word_put_of_disjoint (Or.inl le_rfl)]

end Writes

section Split

variable {kmalloc : ℕ → ℕ} {src dst len pcur : ℕ} {s s' : Dma ℕ} {o : Option ℕ}

theorem newOrder_eq_some (h : s.newOrder p num b = some s') : s'.data = s.data ∧
    s'.node = Function.update s.node p { s.node p with orderNum := num, burst := b, next := none } := by
  rw [Dma.newOrder] at h
  split at h
  · cases h
  · cases h
    exact ⟨rfl, rfl⟩

theorem setNext_eq_some (h : s.setNext p q = some s') : s'.data = s.data ∧
    s'.node = Function.update s.node p { s.node p with next := some q } := by
  rw [Dma.setNext] at h
  split at h
  · cases h
    exact ⟨rfl, rfl⟩
  · cases h

/-- One more order in memory and among the objects. -/
theorem Shows.order (hA : Placed dev A) (h : Shows dev A m s.node s.data) (hp : p ∈ A) (hsrc : b.src < size)
    (hdst : b.dst < size) (hlen : b.len < size) (hrun : s.newOrder p num b = some s') :
    Shows dev A (DmaFlush.newOrder m p num b) s'.node s'.data := by
  obtain ⟨hdata, hnode⟩ := newOrder_eq_some hrun
  rw [hdata, hnode]
  exact h.newOrder hA hp hsrc hdst hlen

theorem Shows.link (hA : Placed dev A) (h : Shows dev A m s.node s.data) (hp : p ∈ A) (hq : q ∈ A)
    (hrun : s.setNext p q = some s') : Shows dev A (DmaFlush.setNext m p q) s'.node s'.data := by
  obtain ⟨hdata, hnode⟩ := setNext_eq_some hrun
  rw [hdata, hnode]
  exact h.setNext hA hp hq

theorem word_setNext (hA : Placed dev A) (hq : q ∈ A) : word (setNext m p q) (p + 16) = q := by
  have hlt := (hA.inside q hq).2
  exact word_put_wordBytes (by omega)

theorem splitLoop_shows {n : ℕ} (pcur : ℕ) (hA : Placed dev A) (hk : ∀ k < n, kmalloc k ∈ A)
    (h : Shows dev A m s.node s.data) (hrun : DmaWork.splitLoop kmalloc src dst s n = some (s', o)) :
    Shows dev A (splitLoop kmalloc dev src dst pcur m n).1 s'.node s'.data ∧
      (0 < n → o = some (splitLoop kmalloc dev src dst pcur m n).2 ∧ (splitLoop kmalloc dev src dst pcur m n).2 ∈ A) := by
  induction n generalizing s' o with
  | zero =>
      cases hrun
      exact ⟨h, fun hpos => absurd hpos (lt_irrefl 0)⟩
  | succ n ih =>
      have hn : kmalloc n ∈ A := hk n (Nat.lt_succ_self n)
      rw [DmaWork.splitLoop] at hrun
      obtain ⟨⟨s₁, o₁⟩, hloop, hrest⟩ := Option.bind_eq_some_iff.mp hrun
      obtain ⟨s₂, horder, hlink⟩ := Option.bind_eq_some_iff.mp hrest
      obtain ⟨hshows, hcur⟩ := ih (fun k hkn => hk k (hkn.trans (Nat.lt_succ_self n))) hloop
      have hshows₂ := hshows.order hA hn (nth_src_lt src dst n burstLen) (nth_dst_lt src dst n burstLen)
        (show burstLen < size by decide) horder
      rw [splitLoop]
      dsimp only
      by_cases hzero : n = 0
      · rw [if_pos hzero] at hlink ⊢
        cases hlink
        exact ⟨hshows₂.setData hA hn, fun _ => ⟨rfl, hn⟩⟩
      · rw [if_neg hzero] at hlink ⊢
        obtain ⟨rfl, hp⟩ := hcur (Nat.pos_of_ne_zero hzero)
        rw [Option.bind_some] at hlink
        obtain ⟨s₃, hnext, heq⟩ := Option.map_eq_some_iff.mp hlink
        cases heq
        refine ⟨hshows₂.link hA hp hn hnext, fun _ => ?_⟩
        dsimp only
        rw [word_setNext hA hn]
        exact ⟨rfl, hn⟩

/-- Memory after `set_dma_work` shows the objects after it. -/
theorem setDmaWork_shows (pcur : ℕ) (hA : Placed dev A) (hdev : 0 < dev) (hsrc : src < size) (hdst : dst < size)
    (hk : ∀ k < burstNum len, kmalloc k ∈ A) (h : Shows dev A m s.node s.data)
    (hrun : DmaWork.setDmaWork kmalloc s src dst len = some s') :
    ∃ m', setDmaWork kmalloc dev src dst len pcur m = some m' ∧ Shows dev A m' s'.node s'.data := by
  have hmark := h.mark hA 1
  rw [setDmaWork, if_neg hdev.ne']
  rw [DmaWork.setDmaWork] at hrun
  dsimp only at hrun ⊢
  by_cases hlen : burstLen < len
  · have hq : 0 < len / burstLen := Nat.div_pos hlen.le (by decide)
    have hle : len / burstLen ≤ burstNum len := by
      unfold burstNum burstLen at *
      omega
    rw [if_pos hlen] at hrun ⊢
    obtain ⟨⟨s₁, o⟩, hloop, hrest⟩ := Option.bind_eq_some_iff.mp hrun
    obtain ⟨hshows, hcur⟩ := splitLoop_shows (s := { s with behind := true }) pcur hA
      (fun k hkq => hk k (hkq.trans_le hle)) hmark hloop
    obtain ⟨rfl, hp⟩ := hcur hq
    dsimp only at hrest ⊢
    by_cases hr : len % burstLen = 0
    · rw [if_neg (not_not_intro hr)] at hrest ⊢
      cases hrest
      exact ⟨_, rfl, hshows⟩
    · have hlast : kmalloc (len / burstLen) ∈ A := hk _ (by
        unfold burstNum burstLen at *
        omega)
      have hrlt : len % burstLen < size := (Nat.mod_lt len (by decide)).trans (by decide)
      rw [if_pos hr] at hrest ⊢
      obtain ⟨s₂, horder, hnext⟩ := Option.bind_eq_some_iff.mp hrest
      have hshows₂ := hshows.order hA hlast (nth_src_lt ..) (nth_dst_lt ..) hrlt horder
      rw [if_pos (hA.inside _ hp).1.ne']
      exact ⟨_, rfl, hshows₂.link hA hp hlast hnext⟩
  · have hzero : kmalloc 0 ∈ A := hk 0 (by
      unfold burstNum
      omega)
    have hlt : len < size := (not_lt.mp hlen).trans_lt (by decide)
    rw [if_neg hlen] at hrun ⊢
    obtain ⟨s₁, horder, heq⟩ := Option.map_eq_some_iff.mp hrun
    cases heq
    have hshows := Shows.order (s := { s with behind := true }) hA hmark hzero hsrc hdst hlt horder
    exact ⟨_, rfl, hshows.setData hA hzero⟩

end Split

section Drain

/-- Memory and registers are as the objects are, and the same has been done. -/
structure Sim (dev : ℕ) (A : Set ℕ) (f : DmaMem) (s : Dma ℕ) : Prop where
  shows : Shows dev A f.mem s.node s.data
  cntl : f.cntl = s.cntl
  regs : f.regs = s.regs
  log : f.log = s.log

variable {f : DmaMem} {s s' : Dma ℕ}

theorem Sim.data (h : Sim dev A f s) (hdata : s.data = some p) : DmaFlush.data f.mem dev = p :=
  (ptr_eq_some (h.shows.data.trans hdata)).1

theorem flushFirst_sim (hA : Placed dev A) (h : Sim dev A f s) (hp : p ∈ A) (hdata : s.data = some p) :
    Sim dev A (flushFirst dev f) (s.flushFirst p) ∧ (s.flushFirst p).data = some p := by
  rw [flushFirst, h.data hdata, Dma.flushFirst, h.shows.isFirst p hp]
  by_cases hfirst : (s.node p).isFirst = true
  · rw [if_pos hfirst, if_pos hfirst]
    have hout {x : ℕ} (hx : x ≠ p + 20) : put f.mem (p + 20) [0] x = f.mem x :=
      put_of_notMem (by rw [List.length_singleton]; omega)
    have hword {k : ℕ} (hk : k ≤ 16) : word (put f.mem (p + 20) [0]) (p + k) = word f.mem (p + k) :=
      word_congr fun x _ hhi => hout (by omega)
    have hself : (s.setNode p { s.node p with isFirst := false }).node p = { s.node p with isFirst := false } :=
      Function.update_self p _ s.node
    refine ⟨⟨?_, h.cntl, h.regs, congrArg (· ++ [Event.flush]) h.log⟩, hdata⟩
    refine h.shows.congr (p := p) (fun q _ hqp => Function.update_of_ne hqp _ _) (fun q hq hqp x hlo hhi => ?_) ?_ ?_ ?_ ?_
    · have hqp' := hA.apart q hq p hp hqp
      exact hout (by omega)
    · rw [hword (by decide), hword (by decide), hword (by decide)]
      exact (h.shows.burst p hp).trans (congrArg WorkOrder.burst hself).symm
    · rw [hword (by decide)]
      exact (h.shows.next p hp).trans (congrArg WorkOrder.next hself).symm
    · refine Eq.trans ?_ (congrArg WorkOrder.isFirst hself).symm
      have hzero : put f.mem (p + 20) [0] (p + 20) = 0 := put_add (i := 0)
      exact congrArg (· != 0) hzero
    · have hdev := hA.device p hp
      refine Eq.trans (congrArg ptr ?_) h.shows.data
      exact word_congr fun x _ _ => hout (by omega)
  · rw [if_neg hfirst, if_neg hfirst]
    exact ⟨h, hdata⟩

theorem startDma_sim (hA : Placed dev A) (hdev : 0 < dev) (h : Sim dev A f s) (hp : p ∈ A) (hdata : s.data = some p)
    (hlive : s.live p = true) (hrun : DmaWork.startDma s = some s') : ∃ f', startDma dev f = some f' ∧ Sim dev A f' s' := by
  obtain ⟨hflush, hflushed⟩ := flushFirst_sim hA h hp hdata
  rw [startDma_eq hdata hlive] at hrun
  cases hrun
  rw [startDma, if_neg hdev.ne']
  dsimp only
  rw [hflush.data hflushed]
  have hburst := hflush.shows.burst p hp
  have hnext : ptr (DmaFlush.data (setData (flushFirst dev f).mem dev (word (flushFirst dev f).mem (p + 16))) dev) =
      ((s.flushFirst p).node p).next := by
    rw [DmaFlush.data, setData, word_put_wordBytes (word_lt _ _)]
    exact hflush.shows.next p hp
  refine ⟨_, rfl, ⟨?_, ?_, hburst, ?_⟩⟩
  · exact hflush.shows.outside hA (fun x hx => setData_of_notMem (by omega)) hnext
  · dsimp only
    rw [hflush.cntl]
  · dsimp only
    rw [hflush.log, hburst]

theorem drain_sim {qs : List (ℕ × Burst)} (hA : Placed dev A) (hdev : 0 < dev) (h : Sim dev A f s)
    (hqueued : Queued s.node qs s.data) (hin : ∀ q ∈ qs, q.1 ∈ A) (hnd : (qs.map Prod.fst).Nodup)
    (hlive : ∀ p ∈ qs.map Prod.fst, s.live p = true) {n : ℕ} (hrun : DmaWork.drain n s = some s') :
    ∃ f', drain dev n f = some f' ∧ Sim dev A f' s' := by
  induction qs generalizing f s n with
  | nil =>
      have hdata : s.data = none := hqueued
      have hzero : DmaFlush.data f.mem dev = 0 := by
        by_contra hne
        have hsome := h.shows.data
        rw [ptr, if_neg hne, hdata] at hsome
        cases hsome
      cases n with
      | zero =>
          rw [DmaWork.drain, if_pos hdata] at hrun
          cases hrun
          exact ⟨f, if_pos hzero, h⟩
      | succ n =>
          rw [DmaWork.drain, if_pos hdata] at hrun
          cases hrun
          exact ⟨f, if_pos hzero, h⟩
  | cons q qs ih =>
      obtain ⟨p, b⟩ := q
      have hdata : s.data = some p := hqueued.1
      have hne : DmaFlush.data f.mem dev ≠ 0 := (ptr_eq_some (h.shows.data.trans hdata)).2
      rw [List.map_cons, List.nodup_cons] at hnd
      cases n with
      | zero =>
          rw [DmaWork.drain, hdata] at hrun
          cases hrun
      | succ n =>
          have hp := hlive p List.mem_cons_self
          obtain ⟨s₁, hs₁, hqueued₁, hlive₁, -, -⟩ := startDma_first hqueued hp
          rw [DmaWork.drain, if_neg (by rw [hdata]; exact Option.some_ne_none p), hs₁, Option.bind_some] at hrun
          obtain ⟨f₁, hf₁, hsim⟩ := startDma_sim hA hdev h (hin (p, b) List.mem_cons_self) hdata hp hs₁
          rw [drain, if_neg hne, hf₁, Option.bind_some]
          refine ih hsim hqueued₁ (fun q hq => hin q (List.mem_cons_of_mem _ hq)) hnd.2 (fun t ht => ?_) hrun
          have htp : t ≠ p := fun he => hnd.1 (he ▸ ht)
          rw [hlive₁, Function.update_of_ne htp]
          exact hlive t (List.mem_cons_of_mem _ ht)

end Drain

section Frame

variable {kmalloc : ℕ → ℕ} {src dst len pcur x : ℕ}

theorem splitLoop_frame {n : ℕ} (src dst pcur : ℕ) (hlt : ∀ k < n, kmalloc k < size)
    (hx : ∀ k < n, x < kmalloc k ∨ kmalloc k + 20 ≤ x) (hdata : x < dev + 16 ∨ dev + 20 ≤ x) :
    (splitLoop kmalloc dev src dst pcur m n).1 x = m x ∧
      (0 < n → ∃ k < n, (splitLoop kmalloc dev src dst pcur m n).2 = kmalloc k) := by
  induction n with
  | zero => exact ⟨rfl, fun hpos => absurd hpos (lt_irrefl 0)⟩
  | succ n ih =>
      have hn := Nat.lt_succ_self n
      obtain ⟨hsame, hcur⟩ := ih (fun k hk => hlt k (hk.trans hn)) fun k hk => hx k (hk.trans hn)
      rw [splitLoop]
      dsimp only
      by_cases hzero : n = 0
      · rw [if_pos hzero]
        refine ⟨?_, fun _ => ⟨n, hn, rfl⟩⟩
        dsimp only
        rw [setData_of_notMem hdata, newOrder_of_notMem (hx n hn), hsame]
      · rw [if_neg hzero]
        obtain ⟨k, hk, hpcur⟩ := hcur (Nat.pos_of_ne_zero hzero)
        refine ⟨?_, fun _ => ⟨n, hn, word_put_wordBytes (hlt n hn)⟩⟩
        dsimp only
        have hxk := hx k (hk.trans hn)
        rw [hpcur, setNext_of_notMem (by omega), newOrder_of_notMem (hx n hn), hsame]

/-- Besides the orders and `dev->data` only the byte behind the device is written. -/
theorem setDmaWork_frame (hlt : ∀ k < burstNum len, kmalloc k < size)
    (hx : ∀ k < burstNum len, x < kmalloc k ∨ kmalloc k + 20 ≤ x) (hdata : x < dev + 16 ∨ dev + 20 ≤ x)
    (hrun : setDmaWork kmalloc dev src dst len pcur m = some m') : m' x = put m (dev + 20) [1] x := by
  rw [setDmaWork] at hrun
  dsimp only at hrun
  by_cases hdev : dev = 0
  · rw [if_pos hdev] at hrun
    cases hrun
  · rw [if_neg hdev] at hrun
    by_cases hlen : burstLen < len
    · have hq : 0 < len / burstLen := Nat.div_pos hlen.le (by decide)
      have hle : len / burstLen ≤ burstNum len := by
        unfold burstNum burstLen at *
        omega
      obtain ⟨hsame, hcur⟩ := splitLoop_frame (m := put m (dev + 20) [1]) src dst pcur
        (fun k hk => hlt k (hk.trans_le hle)) (fun k hk => hx k (hk.trans_le hle)) hdata
      obtain ⟨k, hk, hpcur⟩ := hcur hq
      rw [if_pos hlen] at hrun
      by_cases hr : len % burstLen = 0
      · rw [if_neg (not_not_intro hr)] at hrun
        cases hrun
        exact hsame
      · have hlast : len / burstLen < burstNum len := by
          unfold burstNum burstLen at *
          omega
        have hkeep (num : ℕ) (b : Burst) : newOrder (splitLoop kmalloc dev src dst pcur (put m (dev + 20) [1])
            (len / burstLen)).1 (kmalloc (len / burstLen)) num b x = put m (dev + 20) [1] x :=
          (newOrder_of_notMem (hx _ hlast)).trans hsame
        rw [if_pos hr, hpcur] at hrun
        by_cases hnull : kmalloc k = 0
        · rw [if_neg (not_not_intro hnull)] at hrun
          cases hrun
          exact hkeep _ _
        · rw [if_pos hnull] at hrun
          cases hrun
          have hxk := hx k (hk.trans_le hle)
          rw [setNext_of_notMem (by omega)]
          exact hkeep _ _
    · have hzero : 0 < burstNum len := by
        unfold burstNum
        omega
      rw [if_neg hlen] at hrun
      cases hrun
      rw [setData_of_notMem hdata, newOrder_of_notMem (hx 0 hzero)]

end Frame

section Law

/-- One flush, before the first burst. -/
def FlushedOnce (es : List (Event ℕ)) : Prop :=
  ∃ before after, es = before ++ .flush :: after ∧ .flush ∉ before ++ after ∧ ∀ b, .start b ∉ before

/-- What `set_dma_work` is to leave as it was, and what the calls of `start_dma` behind it are to do. -/
structure FlushLaw (dev : ℕ) (m m' : Mem) (nodes : List ℕ) (es : List (Event ℕ)) : Prop where
  frame : ∀ x, (∀ p ∈ nodes, x < p ∨ p + 24 ≤ x) → (x < dev + 16 ∨ dev + 20 ≤ x) → m' x = m x
  flush : FlushedOnce es

theorem flush_mem_drainEvents {node : ℕ → WorkOrder ℕ} {qs : List (ℕ × Burst)} :
    .flush ∈ drainEvents node qs ↔ ∃ q ∈ qs, (node q.1).isFirst = true := by
  rw [drainEvents, List.mem_flatMap]
  refine exists_congr fun q => and_congr_right fun _ => ?_
  rw [orderEvents]
  split <;> simp [*]

/-- Only the flag of the first order is to be set. -/
theorem flushedOnce_iff {node : ℕ → WorkOrder ℕ} {q : ℕ × Burst} {qs : List (ℕ × Burst)} :
    FlushedOnce (drainEvents node (q :: qs)) ↔
      (node q.1).isFirst = true ∧ ∀ r ∈ qs, (node r.1).isFirst = false := by
  have hcons : drainEvents node (q :: qs) = orderEvents (node q.1).isFirst q ++ drainEvents node qs :=
    List.flatMap_cons
  rw [hcons, orderEvents]
  constructor
  · rintro ⟨before, after, heq, hnone, hstart⟩
    cases hfirst : (node q.1).isFirst with
    | true =>
        rw [hfirst] at heq
        cases before with
        | nil =>
            refine ⟨rfl, fun r hr => ?_⟩
            have hafter := (List.cons.inj heq).2
            rw [List.nil_append, ← hafter] at hnone
            by_contra hset
            refine hnone (List.mem_append_right _ (flush_mem_drainEvents.mpr ⟨r, hr, ?_⟩))
            exact Bool.of_not_eq_false hset
        | cons e es =>
            have he : Event.flush = e := (List.cons.inj heq).1
            exact absurd (he ▸ List.mem_cons_self) hnone
    | false =>
        rw [hfirst] at heq
        cases before with
        | nil => cases (List.cons.inj heq).1
        | cons e es =>
            have htail := (List.cons.inj heq).2
            cases es with
            | nil => cases (List.cons.inj htail).1
            | cons e' es =>
                have he : Event.start q.2 = e' := (List.cons.inj htail).1
                exact absurd (he ▸ List.mem_cons_of_mem _ List.mem_cons_self) (hstart q.2)
  · rintro ⟨hfirst, hrest⟩
    rw [hfirst]
    refine ⟨[], [.kfree q.1, .start q.2] ++ drainEvents node qs, rfl, fun hmem => ?_, fun b hb => absurd hb List.not_mem_nil⟩
    have hlater : Event.flush ∈ drainEvents node qs := by simpa using hmem
    obtain ⟨r, hr, hset⟩ := flush_mem_drainEvents.mp hlater
    rw [hrest r hr] at hset
    cases hset

variable {kmalloc : ℕ → ℕ} {src dst len pcur : ℕ}

/-- `kmalloc` returns `n` blocks for work orders, apart from each other and from the device. -/
structure Allocated (kmalloc : ℕ → ℕ) (dev n : ℕ) : Prop where
  device : ∀ k < n, kmalloc k + 24 ≤ dev ∨ dev + 20 ≤ kmalloc k
  apart : ∀ i < n, ∀ j < n, i ≠ j → kmalloc i + 24 ≤ kmalloc j ∨ kmalloc j + 24 ≤ kmalloc i
  inside : ∀ k < n, 0 < kmalloc k ∧ kmalloc k + 24 ≤ size

def blocks (kmalloc : ℕ → ℕ) (n : ℕ) : List ℕ := (List.range n).map kmalloc

theorem mem_blocks {n : ℕ} : p ∈ blocks kmalloc n ↔ ∃ k < n, kmalloc k = p := by
  simp only [blocks, List.mem_map, List.mem_range]

theorem Allocated.placed {n : ℕ} (h : Allocated kmalloc dev n) : Placed dev {p | p ∈ blocks kmalloc n} := by
  refine ⟨fun p hp => ?_, fun p hp q hq hne => ?_, fun p hp => ?_⟩
  · obtain ⟨k, hk, rfl⟩ := mem_blocks.mp hp
    exact h.device k hk
  · obtain ⟨i, hi, rfl⟩ := mem_blocks.mp hp
    obtain ⟨j, hj, rfl⟩ := mem_blocks.mp hq
    exact h.apart i hi j hj fun hij => hne (congrArg kmalloc hij)
  · obtain ⟨k, hk, rfl⟩ := mem_blocks.mp hp
    exact h.inside k hk

/-- The objects that memory holds, with nothing allocated. -/
def objects (m : Mem) (dev cntl : ℕ) (regs : Burst) (log : List (Event ℕ)) : Dma ℕ where
  node p := ⟨word m p, ⟨word m (p + 4), word m (p + 8), word m (p + 12)⟩, ptr (word m (p + 16)), isFirst m p⟩
  live _ := false
  data := ptr (data m dev)
  behind := m (dev + 20) != 0
  cntl := cntl
  regs := regs
  log := log

theorem Allocated.fresh {n cntl : ℕ} {regs : Burst} {log : List (Event ℕ)} (h : Allocated kmalloc dev n) :
    Fresh (objects m dev cntl regs log) kmalloc n := by
  refine ⟨fun _ _ => rfl, fun i hi j hj heq => ?_⟩
  by_contra hne
  have hapart := h.apart i hi j hj hne
  omega

/-- A transfer in memory leaves the flags to what the blocks held before. -/
theorem transfer_log (pcur : ℕ) (hdev : 0 < dev) (hsrc : src < size) (hdst : dst < size)
    (h : Allocated kmalloc dev (burstNum len)) (m : Mem) (cntl : ℕ) (regs : Burst) (log : List (Event ℕ)) :
    ∃ m' node, setDmaWork kmalloc dev src dst len pcur m = some m' ∧
      (∀ k < burstNum len, (node (kmalloc k)).isFirst = isFirst m (kmalloc k)) ∧
      ∀ n, burstNum len ≤ n → ∃ f, drain dev n ⟨m', cntl, regs, log⟩ = some f ∧
        f.log = log ++ drainEvents node (orders kmalloc src dst len) := by
  have hA := h.placed
  have hfresh : Fresh (objects m dev cntl regs log) kmalloc (burstNum len) := h.fresh
  have hstart : Shows dev {p | p ∈ blocks kmalloc (burstNum len)} m (objects m dev cntl regs log).node
      (objects m dev cntl regs log).data := ⟨fun _ _ => rfl, fun _ _ => rfl, fun _ _ => rfl, rfl⟩
  have hin : ∀ k < burstNum len, kmalloc k ∈ {p | p ∈ blocks kmalloc (burstNum len)} := fun k hk =>
    mem_blocks.mpr ⟨k, hk, rfl⟩
  obtain ⟨s₁, hs₁, hloaded⟩ := setDmaWork_loaded hsrc hdst hfresh
  obtain ⟨m', hm', hshows⟩ := setDmaWork_shows pcur hA hdev hsrc hdst hin hstart hs₁
  refine ⟨m', s₁.node, hm', fun k hk => ?_, fun n hn => ?_⟩
  · have hdevice := h.device k hk
    have hlt : ∀ j < burstNum len, kmalloc j < size := fun j hj => by
      have hj' := (h.inside j hj).2
      omega
    have hout : ∀ j < burstNum len, kmalloc k + 20 < kmalloc j ∨ kmalloc j + 20 ≤ kmalloc k + 20 := fun j hj => by
      by_cases hjk : j = k
      · rw [hjk]
        exact Or.inr le_rfl
      · have hapart := h.apart j hj k hk hjk
        omega
    rw [← hshows.isFirst _ (hin k hk), isFirst, isFirst, setDmaWork_frame hlt hout (by omega) hm',
      put_of_notMem (by rw [List.length_singleton]; omega)]
  · have hlive : ∀ p ∈ (orders kmalloc src dst len).map Prod.fst, s₁.live p = true := fun p hp => by
      rw [hloaded.live, decide_eq_true hp, Bool.or_true]
    have hnum : (orders kmalloc src dst len).length ≤ n := by
      rw [orders, List.length_map, List.length_range]
      exact hn
    obtain ⟨s₂, hs₂, -, -, hlog⟩ := drain_eq (s := { s₁ with cntl := cntl, regs := regs, log := log })
      hloaded.queued hloaded.nodup hlive hnum
    have hsim : Sim dev {p | p ∈ blocks kmalloc (burstNum len)} ⟨m', cntl, regs, log⟩
        { s₁ with cntl := cntl, regs := regs, log := log } := ⟨hshows, rfl, rfl, rfl⟩
    have hblock : ∀ q ∈ orders kmalloc src dst len, q.1 ∈ {p | p ∈ blocks kmalloc (burstNum len)} := fun q hq => by
      have hmem : q.1 ∈ (orders kmalloc src dst len).map Prod.fst := List.mem_map.mpr ⟨q, hq, rfl⟩
      rw [orders_fst] at hmem
      exact hmem
    obtain ⟨f, hf, hsim'⟩ := drain_sim hA hdev hsim hloaded.queued hblock hloaded.nodup hlive hs₂
    exact ⟨f, hf, hsim'.log.trans hlog⟩

theorem frame_iff (h : Allocated kmalloc dev (burstNum len)) (hrun : setDmaWork kmalloc dev src dst len pcur m = some m') :
    (∀ x, (∀ p ∈ blocks kmalloc (burstNum len), x < p ∨ p + 24 ≤ x) → (x < dev + 16 ∨ dev + 20 ≤ x) → m' x = m x) ↔
      m (dev + 20) = 1 ∨ ∃ k < burstNum len, kmalloc k ≤ dev + 20 ∧ dev + 20 < kmalloc k + 24 := by
  have hlt : ∀ k < burstNum len, kmalloc k < size := fun k hk => by
    have hk' := (h.inside k hk).2
    omega
  have hframe {x : ℕ} (hx : ∀ p ∈ blocks kmalloc (burstNum len), x < p ∨ p + 24 ≤ x)
      (hdata : x < dev + 16 ∨ dev + 20 ≤ x) : m' x = put m (dev + 20) [1] x :=
    setDmaWork_frame hlt (fun k hk => by
      have hxk := hx (kmalloc k) (mem_blocks.mpr ⟨k, hk, rfl⟩)
      omega) hdata hrun
  have hmark : put m (dev + 20) [1] (dev + 20) = 1 := put_add (i := 0)
  constructor
  · intro hsame
    by_contra hnone
    rw [not_or] at hnone
    have hout : ∀ p ∈ blocks kmalloc (burstNum len), dev + 20 < p ∨ p + 24 ≤ dev + 20 := fun p hp => by
      obtain ⟨k, hk, rfl⟩ := mem_blocks.mp hp
      by_contra hin
      exact hnone.2 ⟨k, hk, by omega⟩
    have hbyte := hsame (dev + 20) hout (Or.inr le_rfl)
    rw [hframe hout (Or.inr le_rfl), hmark] at hbyte
    exact hnone.1 hbyte.symm
  · intro hcond x hx hdata
    rw [hframe hx hdata]
    by_cases hbehind : x = dev + 20
    · subst hbehind
      rw [hmark]
      rcases hcond with hone | ⟨k, hk, hlo, hhi⟩
      · exact hone.symm
      · have hxk := hx (kmalloc k) (mem_blocks.mpr ⟨k, hk, rfl⟩)
        omega
    · exact put_of_notMem (by rw [List.length_singleton]; omega)

/-- For every memory: the frame holds where the byte behind the device is one already, and the flush comes once and first
where the block for the first order holds a flag from before and the others hold none. -/
theorem flush_law_iff (hdev : 0 < dev) (hsrc : src < size) (hdst : dst < size) (h : Allocated kmalloc dev (burstNum len))
    (m : Mem) (cntl : ℕ) (regs : Burst) (log : List (Event ℕ)) :
    ∃ m', setDmaWork kmalloc dev src dst len pcur m = some m' ∧ ∀ n, burstNum len ≤ n →
      ∃ f es, drain dev n ⟨m', cntl, regs, log⟩ = some f ∧ f.log = log ++ es ∧
        (FlushLaw dev m m' (blocks kmalloc (burstNum len)) es ↔
          (m (dev + 20) = 1 ∨ ∃ k < burstNum len, kmalloc k ≤ dev + 20 ∧ dev + 20 < kmalloc k + 24) ∧
          m (kmalloc 0 + 20) ≠ 0 ∧ ∀ k, 0 < k → k < burstNum len → m (kmalloc k + 20) = 0) := by
  obtain ⟨m', node, hm', hflag, hdrain⟩ := transfer_log pcur hdev hsrc hdst h m cntl regs log
  refine ⟨m', hm', fun n hn => ?_⟩
  obtain ⟨f, hf, hlog⟩ := hdrain n hn
  have hlaw : FlushLaw dev m m' (blocks kmalloc (burstNum len)) (drainEvents node (orders kmalloc src dst len)) ↔
      _ ∧ FlushedOnce (drainEvents node (orders kmalloc src dst len)) :=
    ⟨fun h => ⟨h.frame, h.flush⟩, fun h => ⟨h.1, h.2⟩⟩
  obtain ⟨t, ht⟩ : ∃ t, burstNum len = t + 1 := Nat.exists_eq_succ_of_ne_zero (Nat.ne_of_gt (by unfold burstNum; omega))
  have horders : orders kmalloc src dst len = (kmalloc 0, nth src dst 0 (min burstLen (len - burstLen * 0))) ::
      (List.range t).map fun k => (kmalloc (k + 1), nth src dst (k + 1) (min burstLen (len - burstLen * (k + 1)))) := by
    rw [orders, ht, List.range_succ_eq_map, List.map_cons, List.map_map]
    rfl
  refine ⟨f, _, hf, hlog, ?_⟩
  rw [hlaw, frame_iff h hm', horders, flushedOnce_iff]
  refine and_congr_right fun _ => and_congr ?_ ⟨fun hrest k hpos hk => ?_, fun hrest r hr => ?_⟩
  · rw [hflag 0 (by omega), isFirst, bne_iff_ne]
  · obtain ⟨j, rfl⟩ := Nat.exists_eq_succ_of_ne_zero hpos.ne'
    have hj := hrest _ (List.mem_map.mpr ⟨j, List.mem_range.mpr (by omega), rfl⟩)
    dsimp only at hj
    rwa [hflag (j + 1) hk, isFirst, bne_eq_false_iff_eq] at hj
  · obtain ⟨j, hj, rfl⟩ := List.mem_map.mp hr
    have hlt := List.mem_range.mp hj
    dsimp only
    rw [hflag (j + 1) (by omega), isFirst, bne_eq_false_iff_eq]
    exact hrest (j + 1) (Nat.succ_pos j) (by omega)

/-- Blocks of 32 bytes from 0x10000 on. -/
def heapBlk (k : ℕ) : ℕ := 0x10000 + 32 * k

theorem heapBlk_allocated : Allocated heapBlk 0x1000 3 := by
  refine ⟨fun k hk => ?_, fun i hi j hj hij => ?_, fun k hk => ?_⟩
  · unfold heapBlk
    omega
  · unfold heapBlk
    omega
  · unfold heapBlk size
    omega

/-- A one behind the device, and a flag that is left in the block for the first order. -/
def flaggedMem : Mem := fun a => if a = 0x1014 ∨ a = 0x10014 then 1 else 0

theorem flush_law_iff_three : ∃ m', setDmaWork heapBlk 0x1000 0x20000 0x30000 0x2010 0 flaggedMem = some m' ∧
    ∀ n, burstNum 0x2010 ≤ n → ∃ f es, drain 0x1000 n ⟨m', 0, ⟨0, 0, 0⟩, []⟩ = some f ∧ f.log = [] ++ es ∧
      FlushLaw 0x1000 flaggedMem m' (blocks heapBlk (burstNum 0x2010)) es := by
  have hwhen : (flaggedMem 0x1014 = 1 ∨ ∃ k < burstNum 0x2010, heapBlk k ≤ 0x1014 ∧ 0x1014 < heapBlk k + 24) ∧
      flaggedMem (heapBlk 0 + 20) ≠ 0 ∧ ∀ k, 0 < k → k < burstNum 0x2010 → flaggedMem (heapBlk k + 20) = 0 := by
    refine ⟨.inl rfl, by decide, fun k hpos hk => ?_⟩
    have hne : ¬ (heapBlk k + 20 = 0x1014 ∨ heapBlk k + 20 = 0x10014) := by
      unfold heapBlk
      omega
    exact if_neg hne
  have hblks : Allocated heapBlk 0x1000 (burstNum 0x2010) := heapBlk_allocated
  obtain ⟨m', hm', hdrain⟩ := flush_law_iff (by decide : 0 < 0x1000) (by decide : 0x20000 < size)
    (by decide : 0x30000 < size) hblks flaggedMem 0 ⟨0, 0, 0⟩ []
  refine ⟨m', hm', fun n hn => ?_⟩
  obtain ⟨f, es, hf, hlog, hlaw⟩ := hdrain n hn
  exact ⟨f, es, hf, hlog, hlaw.mpr hwhen⟩

/-- In memory that held zeros the mark changes the byte behind the device, and the one burst is started without a flush. -/
theorem first_burst_unflushed : ∃ m', setDmaWork heapBlk 0x1000 0x20000 0x30000 16 0 (fun _ => 0) = some m' ∧ m' 0x1014 = 1 ∧
    (drain 0x1000 1 ⟨m', 0, ⟨0, 0, 0⟩, []⟩).map DmaMem.log = some [.kfree 0x10000, .start ⟨0x20000, 0x30000, 16⟩] ∧
    ¬ FlushLaw 0x1000 (fun _ => 0) m' (blocks heapBlk 1) [.kfree 0x10000, .start ⟨0x20000, 0x30000, 16⟩] := by
  refine ⟨_, rfl, by decide +kernel, by decide +kernel, fun hlaw => ?_⟩
  have hbyte := hlaw.frame 0x1014 (by decide) (by decide)
  exact absurd hbyte (by decide +kernel)

end Law

end Slos.DmaFlush
