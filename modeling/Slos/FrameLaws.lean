import Slos.FramePool
import Slos.Machine
import Mathlib.Order.Bounds.Basic
import Mathlib.Data.Finset.Insert
import Mathlib.Data.Finset.Erase
import Mathlib.Data.Int.Basic

/-!
# Getting and releasing frames

`get_frame` is a search for the least clear bit. A run of `get_frame` and `release_frame` keeps beside the pool the
frames that are handed out; `Law` is what release promises about them. The two functions find the bit of a frame by
different formulas, so the law holds only for some bases.
-/

namespace Slos.FrameLaws
open Word Bitmap

/-- A pool of `init_framepool` with any bitmap. -/
def poolWith (q : FramePool) (base num idx : ℕ) (bm : ℕ → BitVec 8) : FramePool :=
  { initFramepool q base num idx with bitmap := bm }

/-- `get_frame` hands out the frame of the least clear bit, sets that bit and no other, and fails exactly when all are
set. -/
theorem getFrame_isLeast (q : FramePool) {base num : ℕ} (idx : ℕ) (bm : ℕ → BitVec 8)
    (h : base + num < 2147483648) :
    (∀ i, IsLeast {i | i < num ∧ bit bm i = false} i →
      ∃ bm', getFrame (poolWith q base num idx bm) = (((base + i : ℕ) : ℤ), poolWith q base num idx bm') ∧
        ∀ m, bit bm' m = (bit bm m || decide (m = i))) ∧
    ((getFrame (poolWith q base num idx bm)).1 = -1 ↔ ∀ i < num, bit bm i = true) ∧
    ((∀ i < num, bit bm i = true) → getFrame (poolWith q base num idx bm) = (-1, poolWith q base num idx bm)) := by
  have hp : (poolWith q base num idx bm).Sized := ⟨rfl, rfl, h⟩
  have hfull : (∀ i < num, bit bm i = true) →
      getFrame (poolWith q base num idx bm) = (-1, poolWith q base num idx bm) := getFrame_of_full hp
  have hfree : ∀ i, i < num → bit bm i = false → ∃ k < num, bit bm k = false ∧ (∀ m < k, bit bm m = true) ∧
      getFrame (poolWith q base num idx bm) =
        (((base + k : ℕ) : ℤ), poolWith q base num idx (setBit bm (k / 8) (k % 8))) := by
    intro i hi hclear
    obtain ⟨k, hk, hkfree, hbelow, hres, hpool⟩ :=
      getFrame_of_free hp ⟨i, hi, fun hu => Bool.false_ne_true (hclear.symm.trans hu)⟩
    exact ⟨k, hk, Bool.eq_false_iff.mpr hkfree, hbelow, Prod.ext hres hpool⟩
  refine ⟨fun i hi => ?_, ⟨fun hres => ?_, fun hall => ?_⟩, hfull⟩
  · obtain ⟨⟨hin, hclear⟩, hleast⟩ := hi
    obtain ⟨k, hk, hkclear, hbelow, hget⟩ := hfree i hin hclear
    have hki : k = i := by
      apply le_antisymm
      · by_contra! hlt
        rw [hbelow i hlt] at hclear
        cases hclear
      · exact hleast ⟨hk, hkclear⟩
    subst hki
    refine ⟨_, hget, fun m => ?_⟩
    rw [bit_setBit _ (Nat.mod_lt _ (by decide)), Nat.div_add_mod]
  · intro i hi
    by_contra hclear
    obtain ⟨k, -, -, -, hget⟩ := hfree i hi (Bool.eq_false_iff.mpr hclear)
    rw [hget] at hres
    exact absurd hres (ne_of_gt (lt_of_lt_of_le (by decide) (Int.natCast_nonneg _)))
  · rw [hfull hall]

def zeroPool : FramePool where
  baseFrameIdx := 0
  nFrames := 0
  inaccBaseFrameNo := 0
  inaccNFrames := 0
  pBitmap := 0
  nBitmapEntry := 0
  nRemainderBitmapEntry := 0
  bitmap := fun _ => 0#8

theorem getFrame_isLeast_last :
    ∃ bm', getFrame (poolWith zeroPool 16384 13 1 fun i => if i = 0 then 0xFF#8 else 0x0F#8) =
      (((16384 + 12 : ℕ) : ℤ), poolWith zeroPool 16384 13 1 bm') ∧
      ∀ m, bit bm' m = (bit (fun i => if i = 0 then 0xFF#8 else 0x0F#8) m || decide (m = 12)) := by
  apply (getFrame_isLeast zeroPool 1 _ (by decide)).1
  constructor
  · exact ⟨by decide, by decide⟩
  · rintro k ⟨hk, hclear⟩
    revert hclear
    interval_cases k <;> decide

section Runs

inductive FrameOp
  | get
  | release (frameNo : Fin size)

/-- The pool and the frames that are handed out. -/
structure Traffic where
  pool : FramePool
  out : Finset ℕ

/-- What `get_frame` returned, as `release_frame` takes it. -/
def frameNo (r : ℤ) : ℕ := (r % size).toNat

def frameStep (s : Traffic) : FrameOp → Option Traffic
  | .get =>
      let (r, p) := getFrame s.pool
      some ⟨p, if r = -1 then s.out else insert (frameNo r) s.out⟩
  | .release f =>
      let (r, p) := releaseFrame s.pool f
      some ⟨p, if r = 0 then s.out.erase f else s.out⟩

def available (p : FramePool) : Set ℕ :=
  {f | p.baseFrameIdx ≤ f ∧ f < p.baseFrameIdx + p.nFrames ∧ ¬ p.used (f - p.baseFrameIdx)}

structure Law (s : Traffic) : Prop where
  release : ∀ f ∈ s.out, f ∉ available s.pool ∧ (releaseFrame s.pool f).1 = 0 ∧
    available (releaseFrame s.pool f).2 = insert f (available s.pool)
  outside : ∀ f < size, f < s.pool.baseFrameIdx ∨ s.pool.baseFrameIdx + s.pool.nFrames ≤ f →
    releaseFrame s.pool f = (framepoolFreeErr, s.pool)
  once : (getFrame s.pool).1 ≠ -1 → frameNo (getFrame s.pool).1 ∉ s.out

/-- The law in every state of every run from a fresh pool. -/
def Lawful (p : FramePool) : Prop := ∀ is, Machine.Always frameStep Law ⟨p, ∅⟩ is

/-- What the formulas of `release_frame` need of the base and of the old contents of the pool. -/
structure Sound (q : FramePool) (base num : ℕ) : Prop where
  aligned : base % 8 = 0
  bound : base + num < size
  accessible : ∀ f, base ≤ f → f < base + num →
    ¬ (q.inaccBaseFrameNo ≤ f ∧ f < u32 (q.inaccBaseFrameNo + q.inaccNFrames))

theorem frameNo_int32 (n : ℕ) : frameNo (int32 n) = u32 n := by
  unfold frameNo int32 u32 size
  split_ifs <;> omega

theorem int32_eq_neg_one_iff (n : ℕ) : int32 n = -1 ↔ u32 n = size - 1 := by
  unfold int32 u32 size
  split_ifs with h
  · exact ⟨fun h' => h'.elim, fun h' => by omega⟩
  · constructor <;> intro h' <;> omega

theorem frameStep_get {s : Traffic} {r : ℤ} {p : FramePool} (h : getFrame s.pool = (r, p)) :
    frameStep s .get = some ⟨p, if r = -1 then s.out else insert (frameNo r) s.out⟩ := by
  simp only [frameStep, h]

variable {q : FramePool} {base num idx : ℕ}

/-- A pool that differs from the fresh one in its bitmap, whose bits are the frames that are handed out. -/
structure Exact (q : FramePool) (base num idx : ℕ) (s : Traffic) : Prop where
  pool : ∃ bm, s.pool = poolWith q base num idx bm
  out : ∀ f, f ∈ s.out ↔ base ≤ f ∧ f < base + num ∧ s.pool.used (f - base)

theorem exact_start (hn : num ≤ 32768) (hidx : idx ≠ 0) : Exact q base num idx ⟨initFramepool q base num idx, ∅⟩ := by
  constructor
  · exact ⟨_, rfl⟩
  · intro f
    simp only [Finset.notMem_empty, false_iff]
    rintro ⟨hge, hlt, hu⟩
    have hbit := (initFramepool_used q base num (f - base) hidx).mp hu
    omega

/-- A fresh `get_frame` of a pool none of whose frame numbers is the error value. -/
theorem exact_get {s t : Traffic} (hb : base + num < size) (h : Exact q base num idx s)
    (ht : frameStep s .get = some t) : Exact q base num idx t := by
  obtain ⟨p, out⟩ := s
  obtain ⟨bm, rfl⟩ := h.pool
  rcases getFrame_cases (p := poolWith q base num idx bm) rfl rfl with ⟨k, hk, hfree, hbelow, hget⟩ | ⟨-, hget⟩
  · rw [frameStep_get hget] at ht
    cases ht
    change k < num at hk
    have hno : frameNo (int32 (base + k)) = base + k := by
      rw [frameNo_int32, u32_of_lt (by omega)]
    have hne : int32 (base + k) ≠ -1 := by
      rw [Ne, int32_eq_neg_one_iff, u32_of_lt (by omega)]
      omega
    constructor
    · exact ⟨_, rfl⟩
    · intro f
      change f ∈ (if int32 (base + k) = -1 then out else insert (frameNo (int32 (base + k))) out) ↔ _
      rw [if_neg hne, hno, Finset.mem_insert, h.out f, used_setBit]
      constructor
      · rintro (rfl | ⟨hge, hlt, hu⟩)
        · exact ⟨by omega, by omega, Or.inr (by omega)⟩
        · exact ⟨hge, hlt, Or.inl hu⟩
      · rintro ⟨hge, hlt, hu | hk⟩
        · exact Or.inr ⟨hge, hlt, hu⟩
        · exact Or.inl (by omega)
  · rw [frameStep_get hget] at ht
    cases ht
    exact h

theorem frameStep_release {s : Traffic} {f : Fin size} {r : ℤ} {p : FramePool} (h : releaseFrame s.pool f = (r, p)) :
    frameStep s (.release f) = some ⟨p, if r = 0 then s.out.erase f else s.out⟩ := by
  simp only [frameStep, h]

theorem releaseFrame_outside (hb : base + num < size) (bm : ℕ → BitVec 8) {f : ℕ} (h : f < base ∨ base + num ≤ f) :
    releaseFrame (poolWith q base num idx bm) f = (framepoolFreeErr, poolWith q base num idx bm) := by
  have hout : u32 (base + num) ≤ f ∨ f < base := by
    rw [u32_of_lt hb]
    exact h.symm
  unfold releaseFrame
  simp only
  split_ifs with hacc hrange
  · rfl
  · rfl
  · exact absurd hout hrange

theorem releaseFrame_inside (hs : Sound q base num) (bm : ℕ → BitVec 8) {f : ℕ} (hge : base ≤ f)
    (hlt : f < base + num) : releaseFrame (poolWith q base num idx bm) f =
      (0, poolWith q base num idx (clearBit bm ((f - base) / 8) ((f - base) % 8))) := by
  have hb := hs.bound
  have hal := hs.aligned
  have hin : ¬ (u32 (base + num) ≤ f ∨ f < base) := by
    rw [u32_of_lt hb]
    omega
  have hmod : f % 8 = (f - base) % 8 := by omega
  have hoff : usub f base = f - base := usub_of_le (by omega) hge
  unfold releaseFrame
  simp only
  split_ifs with hacc hrange
  · exact absurd hacc (hs.accessible f hge hlt)
  · exact absurd hrange hin
  · change (0, poolWith q base num idx (clearBit bm (usub f base / 8) (f % 8))) = _
    rw [hoff, hmod]

theorem poolWith_clear_used (bm : ℕ → BitVec 8) (k m : ℕ) :
    (poolWith q base num idx (clearBit bm (k / 8) (k % 8))).used m ↔ (poolWith q base num idx bm).used m ∧ m ≠ k :=
  used_clearBit (poolWith q base num idx bm) k m

theorem available_release (bm : ℕ → BitVec 8) {f : ℕ} (hge : base ≤ f) (hlt : f < base + num) :
    available (poolWith q base num idx (clearBit bm ((f - base) / 8) ((f - base) % 8))) =
      insert f (available (poolWith q base num idx bm)) := by
  ext g
  change base ≤ g ∧ g < base + num ∧ ¬ (poolWith q base num idx _).used (g - base) ↔
    g = f ∨ base ≤ g ∧ g < base + num ∧ ¬ (poolWith q base num idx bm).used (g - base)
  rw [poolWith_clear_used, not_and_or, not_not]
  constructor
  · rintro ⟨h1, h2, hclear | hsame⟩
    · exact Or.inr ⟨h1, h2, hclear⟩
    · exact Or.inl (by omega)
  · rintro (rfl | ⟨h1, h2, hclear⟩)
    · exact ⟨hge, hlt, Or.inr rfl⟩
    · exact ⟨h1, h2, Or.inl hclear⟩

theorem exact_release (hs : Sound q base num) {s t : Traffic} {f : Fin size} (h : Exact q base num idx s)
    (ht : frameStep s (.release f) = some t) : Exact q base num idx t := by
  obtain ⟨p, out⟩ := s
  obtain ⟨bm, rfl⟩ := h.pool
  by_cases hin : base ≤ (f : ℕ) ∧ (f : ℕ) < base + num
  · rw [frameStep_release (releaseFrame_inside hs bm hin.1 hin.2)] at ht
    cases ht
    constructor
    · exact ⟨_, rfl⟩
    · intro g
      change g ∈ (if (0 : ℤ) = 0 then out.erase f else out) ↔
        base ≤ g ∧ g < base + num ∧ (poolWith q base num idx _).used (g - base)
      rw [if_pos rfl, Finset.mem_erase, h.out g, poolWith_clear_used]
      constructor
      · rintro ⟨hne, h1, h2, hu⟩
        exact ⟨h1, h2, hu, by omega⟩
      · rintro ⟨h1, h2, hu, hne⟩
        exact ⟨fun heq => hne (by rw [heq]), h1, h2, hu⟩
  · rw [frameStep_release (releaseFrame_outside hs.bound bm (by omega))] at ht
    cases ht
    exact h

theorem Exact.law (hs : Sound q base num) {s : Traffic} (h : Exact q base num idx s) : Law s := by
  obtain ⟨p, out⟩ := s
  obtain ⟨bm, rfl⟩ := h.pool
  constructor
  · intro f hf
    obtain ⟨hge, hlt, hu⟩ := (h.out f).mp hf
    rw [releaseFrame_inside hs bm hge hlt]
    exact ⟨fun hav => hav.2.2 hu, rfl, available_release bm hge hlt⟩
  · intro f _ hout
    exact releaseFrame_outside hs.bound bm hout
  · intro hne hmem
    rcases getFrame_cases (p := poolWith q base num idx bm) rfl rfl with ⟨k, hk, hfree, -, hget⟩ | ⟨-, hget⟩
    · change k < num at hk
      have hb := hs.bound
      change frameNo (getFrame (poolWith q base num idx bm)).1 ∈ out at hmem
      have hno : frameNo (int32 (base + k)) = base + k := by
        rw [frameNo_int32, u32_of_lt (by omega)]
      rw [hget] at hmem
      change frameNo (int32 (base + k)) ∈ out at hmem
      rw [hno] at hmem
      have hu := ((h.out (base + k)).mp hmem).2.2
      rw [Nat.add_sub_cancel_left] at hu
      exact hfree hu
    · exact hne (by rw [hget])

theorem lawful_of_sound (hs : Sound q base num) (hn : num ≤ 32768) (hidx : idx ≠ 0) :
    Lawful (initFramepool q base num idx) := by
  intro is
  apply Machine.always_of_step (Exact q base num idx) (fun s h => h.law hs) ?_ (exact_start hn hidx)
  intro s i t h ht
  cases i with
  | get => exact exact_get hs.bound h ht
  | release f => exact exact_release hs h ht

/-- A pool that never hands out a frame: it has none, or its only number is the error value. -/
def Idle (base num : ℕ) : Prop := num = 0 ∨ base = size - 1 ∧ num = 1

theorem getFrame_at {bm : ℕ → BitVec 8} {k : ℕ} (hk : k < num) (hfree : ¬ (poolWith q base num idx bm).used k)
    (hbelow : ∀ m < k, (poolWith q base num idx bm).used m) : getFrame (poolWith q base num idx bm) =
      (int32 (base + k), poolWith q base num idx (setBit bm (k / 8) (k % 8))) := by
  rcases getFrame_cases (p := poolWith q base num idx bm) rfl rfl with ⟨i, hi, hifree, hibelow, hget⟩ | ⟨hall, -⟩
  · have hik : i = k := by
      apply le_antisymm
      · by_contra! hlt
        exact hfree (hibelow k hlt)
      · by_contra! hlt
        exact hifree (hbelow i hlt)
    subst hik
    exact hget
  · exact absurd (hall k hk) hfree

theorem lawful_of_idle (hb : base < size) (hidle : Idle base num) : Lawful (initFramepool q base num idx) := by
  have hrelease : ∀ bm (f : ℕ), releaseFrame (poolWith q base num idx bm) f =
      (framepoolFreeErr, poolWith q base num idx bm) := by
    intro bm f
    have hout : u32 (base + num) ≤ f ∨ f < base := by
      unfold Idle size at hidle
      unfold u32 size at *
      omega
    unfold releaseFrame
    simp only
    split_ifs with hacc hrange
    · rfl
    · rfl
    · exact absurd hout hrange
  have hget : ∀ bm, ∃ bm', getFrame (poolWith q base num idx bm) = (-1, poolWith q base num idx bm') := by
    intro bm
    rcases getFrame_cases (p := poolWith q base num idx bm) rfl rfl with ⟨k, hk, -, -, hget⟩ | ⟨-, hget⟩
    · change k < num at hk
      have herr : int32 (base + k) = -1 := by
        rw [int32_eq_neg_one_iff]
        unfold Idle size at hidle
        unfold u32 size
        omega
      exact ⟨_, hget.trans (congrArg (·, _) herr)⟩
    · exact ⟨bm, hget⟩
  intro is
  apply Machine.always_of_step fun s => (∃ bm, s.pool = poolWith q base num idx bm) ∧ s.out = ∅
  · rintro ⟨p, out⟩ ⟨⟨bm, rfl⟩, rfl⟩
    obtain ⟨bm', hget⟩ := hget bm
    constructor
    · intro f hf
      exact absurd hf (Finset.notMem_empty f)
    · exact fun f _ _ => hrelease bm f
    · exact fun hne => absurd (congrArg Prod.fst hget) hne
  · rintro ⟨p, out⟩ i t ⟨⟨bm, rfl⟩, rfl⟩ ht
    cases i with
    | get =>
      obtain ⟨bm', hget⟩ := hget bm
      rw [frameStep_get hget] at ht
      cases ht
      exact ⟨⟨bm', rfl⟩, rfl⟩
    | release f =>
      rw [frameStep_release (hrelease bm f)] at ht
      cases ht
      exact ⟨⟨bm, rfl⟩, rfl⟩
  · exact ⟨⟨_, rfl⟩, rfl⟩

theorem Lawful.exec {p : FramePool} (h : Lawful p) (is : List FrameOp) {t : Traffic}
    (ht : Machine.exec frameStep ⟨p, ∅⟩ is = some t) : Law t :=
  Machine.always_iff_exec.mp (h is) is List.prefix_rfl t ht

theorem Lawful.one_step {p : FramePool} (h : Lawful p) {i : FrameOp} {s : Traffic}
    (hi : frameStep ⟨p, ∅⟩ i = some s) : Law s := by
  apply h.exec [i]
  rw [Machine.exec_cons, hi, Option.bind_some, Machine.exec_nil]

theorem Lawful.two_steps {p : FramePool} (h : Lawful p) {i j : FrameOp} {s t : Traffic}
    (hi : frameStep ⟨p, ∅⟩ i = some s) (hj : frameStep s j = some t) : Law t := by
  apply h.exec [i, j]
  rw [Machine.exec_cons, hi, Option.bind_some, Machine.exec_cons, hj, Option.bind_some, Machine.exec_nil]

/-- The first frames are handed out in order. -/
theorem exec_gets (hb : base + num < size) (hn : num ≤ 32768) (hidx : idx ≠ 0) {j : ℕ} (hj : j ≤ num) :
    ∃ t, Machine.exec frameStep ⟨initFramepool q base num idx, ∅⟩ (List.replicate j .get) = some t ∧
      Exact q base num idx t ∧ ∀ f, f ∈ t.out ↔ base ≤ f ∧ f < base + j := by
  induction j with
  | zero =>
    refine ⟨_, rfl, exact_start hn hidx, fun f => ?_⟩
    simp only [Finset.notMem_empty, false_iff]
    omega
  | succ j ih =>
    obtain ⟨⟨p, out⟩, hrun, hexact, hout⟩ := ih (by omega)
    obtain ⟨bm, rfl⟩ := hexact.pool
    have hused : ∀ k < num, (poolWith q base num idx bm).used k ↔ k < j := by
      intro k hk
      have h1 := hexact.out (base + k)
      rw [Nat.add_sub_cancel_left] at h1
      have h2 := hout (base + k)
      constructor
      · intro hu
        have := h2.mp (h1.mpr ⟨by omega, by omega, hu⟩)
        omega
      · intro hlt
        exact (h1.mp (h2.mpr ⟨by omega, by omega⟩)).2.2
    have hfree : ¬ (poolWith q base num idx bm).used j := by
      rw [hused j (by omega)]
      omega
    have hget := getFrame_at (by omega) hfree fun m hm => (hused m (by omega)).mpr hm
    have hstep := frameStep_get (s := ⟨poolWith q base num idx bm, out⟩) hget
    have hno : frameNo (int32 (base + j)) = base + j := by
      rw [frameNo_int32, u32_of_lt (by omega)]
    have hne : int32 (base + j) ≠ -1 := by
      rw [Ne, int32_eq_neg_one_iff, u32_of_lt (by omega)]
      omega
    refine ⟨_, ?_, exact_get hb hexact hstep, fun f => ?_⟩
    · rw [List.replicate_succ', Machine.exec_append, hrun, Option.bind_some, Machine.exec_cons, hstep]
      rfl
    · change f ∈ (if int32 (base + j) = -1 then out else insert (frameNo (int32 (base + j))) out) ↔ _
      have hf : f ∈ out ↔ base ≤ f ∧ f < base + j := hout f
      rw [if_neg hne, hno, Finset.mem_insert, hf]
      omega

/-- A release that succeeds has passed both checks. -/
theorem releaseFrame_zero {bm : ℕ → BitVec 8} {f : ℕ} (h : (releaseFrame (poolWith q base num idx bm) f).1 = 0) :
    ¬ (q.inaccBaseFrameNo ≤ f ∧ f < u32 (q.inaccBaseFrameNo + q.inaccNFrames)) ∧
      (f < u32 (base + num) ∧ base ≤ f) ∧ (releaseFrame (poolWith q base num idx bm) f).2 =
        poolWith q base num idx (clearBit bm (usub f base / 8) (f % 8)) := by
  unfold releaseFrame at h ⊢
  simp only at h ⊢
  split_ifs at h ⊢ with hacc hrange
  · have herr : framepoolFreeErr = 0 := h
    exact absurd herr (by decide)
  · have herr : framepoolFreeErr = 0 := h
    exact absurd herr (by decide)
  · refine ⟨hacc, ?_, rfl⟩
    have hrange' : ¬ (u32 (base + num) ≤ f ∨ f < base) := hrange
    omega

theorem bound_of_lawful (hb : base < size) (hn : num ≤ 32768) (hidx : idx ≠ 0) (hidle : ¬ Idle base num)
    (h : Lawful (initFramepool q base num idx)) : base + num < size := by
  by_contra hbig
  have hfresh : ∀ k < 32768, ¬ (initFramepool q base num idx).used k := by
    intro k hk hu
    have hbit := (initFramepool_used q base num k hidx).mp hu
    omega
  unfold Idle at hidle
  have hwrap : u32 (base + num) = base + num - size := by
    unfold u32 size at *
    omega
  have hfree : ¬ (poolWith q base num idx (initFramepool q base num idx).bitmap).used 0 := hfresh 0 (by omega)
  have hget := getFrame_at (by omega) hfree fun m hm => absurd hm (Nat.not_lt_zero m)
  have hstep := frameStep_get (s := ⟨initFramepool q base num idx, ∅⟩) hget
  rw [Nat.add_zero] at hstep
  by_cases hlast : base = size - 1
  · have herr : int32 base = -1 := by
      rw [int32_eq_neg_one_iff, u32_of_lt hb, hlast]
    have hused : ∀ m, (poolWith q base num idx
        (setBit (initFramepool q base num idx).bitmap (0 / 8) (0 % 8))).used m ↔
        (initFramepool q base num idx).used m ∨ m = 0 := used_setBit (initFramepool q base num idx) 0
    have hfree' : ¬ (poolWith q base num idx
        (setBit (initFramepool q base num idx).bitmap (0 / 8) (0 % 8))).used 1 := by
      rw [hused, not_or]
      exact ⟨hfresh 1 (by omega), by omega⟩
    have hget' := getFrame_at (by omega) hfree' fun m hm => (hused m).mpr (Or.inr (by omega))
    have hzero : int32 (base + 1) = 0 := by
      have hsum : base + 1 = size := by
        unfold size at *
        omega
      rw [hsum]
      rfl
    rw [hzero] at hget'
    rw [if_pos herr] at hstep
    have hlaw := h.two_steps hstep (frameStep_get hget')
    obtain ⟨-, hrel, -⟩ := hlaw.release 0 (by simp [frameNo])
    obtain ⟨-, ⟨hlt, hge⟩, -⟩ := releaseFrame_zero hrel
    unfold size at hlast
    omega
  · have herr : int32 base ≠ -1 := by
      rw [Ne, int32_eq_neg_one_iff, u32_of_lt hb]
      exact hlast
    have hno : frameNo (int32 base) = base := by rw [frameNo_int32, u32_of_lt hb]
    rw [if_neg herr, hno] at hstep
    obtain ⟨-, hrel, -⟩ := (h.one_step hstep).release base (Finset.mem_insert_self _ _)
    obtain ⟨-, ⟨hlt, hge⟩, -⟩ := releaseFrame_zero hrel
    unfold size at *
    omega

theorem sound_of_lawful (hb : base < size) (hn : num ≤ 32768) (hidx : idx ≠ 0) (hidle : ¬ Idle base num)
    (h : Lawful (initFramepool q base num idx)) : Sound q base num := by
  have hbound := bound_of_lawful hb hn hidx hidle h
  have hpos : 1 ≤ num := by
    unfold Idle at hidle
    omega
  constructor
  · obtain ⟨⟨p, out⟩, hrun, hexact, hout⟩ := exec_gets (q := q) hbound hn hidx hpos
    obtain ⟨bm, rfl⟩ := hexact.pool
    have hmem : base ∈ out := (hout base).mpr ⟨le_rfl, by omega⟩
    have hset : (poolWith q base num idx bm).used (base - base) := ((hexact.out base).mp hmem).2.2
    obtain ⟨-, hzero, havail⟩ := (h.exec _ hrun).release base hmem
    obtain ⟨-, -, hpool⟩ := releaseFrame_zero hzero
    have hclear : base ∈ available (releaseFrame (poolWith q base num idx bm) base).2 := by
      rw [havail]
      exact Set.mem_insert _ _
    rw [hpool] at hclear
    have hbit : ¬ bit (clearBit bm (usub base base / 8) (base % 8)) (base - base) = true := hclear.2.2
    rw [usub_of_le hb le_rfl, Nat.sub_self, bit_clearBit _ (Nat.mod_lt _ (by decide))] at hbit
    rw [Nat.sub_self] at hset
    have hset' : bit bm 0 = true := hset
    exact Eq.symm (by simpa [hset'] using hbit)
  · exact hbound
  · intro f hge hlt
    obtain ⟨⟨p, out⟩, hrun, hexact, hout⟩ := exec_gets (q := q) hbound hn hidx (j := f - base + 1) (by omega)
    obtain ⟨bm, rfl⟩ := hexact.pool
    obtain ⟨-, hzero, -⟩ := (h.exec _ hrun).release f ((hout f).mpr ⟨hge, by omega⟩)
    exact (releaseFrame_zero hzero).1

/-- The release law holds over all runs of a pool exactly if the pool hands out nothing, or its base is a multiple of
eight, its frame numbers fit a word and none of them is in the inaccessible range the structure happened to hold. -/
theorem release_law_iff (q : FramePool) {base num idx : ℕ} (hb : base < size) (hn : num ≤ 32768) (hidx : idx ≠ 0) :
    Lawful (initFramepool q base num idx) ↔ Idle base num ∨ Sound q base num := by
  constructor
  · intro h
    by_cases hidle : Idle base num
    · exact Or.inl hidle
    · exact Or.inr (sound_of_lawful hb hn hidx hidle h)
  · rintro (hidle | hs)
    · exact lawful_of_idle hb hidle
    · exact lawful_of_sound hs hn hidx

theorem release_law_aligned : Lawful (initFramepool zeroPool 16384 100 1) := by
  apply (release_law_iff zeroPool (by decide) (by decide) (by decide)).mpr
  refine Or.inr ⟨by decide, by decide, fun f _ _ hacc => ?_⟩
  exact absurd hacc.2 (Nat.not_lt_zero f)

/-- A base that is no multiple of eight, and a structure that held an old inaccessible range. -/
theorem release_law_broken : ¬ Lawful (initFramepool zeroPool 4 8 1) ∧
    ¬ Lawful (initFramepool { zeroPool with inaccNFrames := 20 } 16 8 1) := by
  constructor
  · intro h
    have hal := (sound_of_lawful (by decide) (by decide) (by decide) (by unfold Idle; decide) h).aligned
    exact absurd hal (by decide)
  · intro h
    have hacc := (sound_of_lawful (by decide) (by decide) (by decide) (by unfold Idle; decide) h).accessible 16
    exact hacc (by decide) (by decide) (by decide)

end Runs

end Slos.FrameLaws
