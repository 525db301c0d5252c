import Mathlib.Data.Finset.Card
import Mathlib.Data.Finset.Range
import Slos.LinkedNodes
import Slos.ScatterGather
import Slos.SlfsAlloc

/-!
# Block chains

The data blocks of a file as a chain through the second tail word, and what the functions that follow
a chain compute: the block at a position, a read of a range and the writes of a new file.
-/

namespace Slos.Slfs
open Word ByteMemory Ramdisk ScatterGather

/-- No block has address 0. -/
def nextBlk (m : Mem) (p : ℕ) : Option ℕ :=
  if word m (p + 508) = 0 then none else some (word m (p + 508))

structure Chain (m : Mem) (p : ℕ) (qs : List ℕ) : Prop where
  links : LinkedNodes.Forward (nextBlk m) p qs
  inside : ∀ q ∈ p :: qs, q + 512 ≤ 0x400000

variable {m m' : Mem} {p q : ℕ} {qs : List ℕ} {w : Fs}

theorem nextBlk_eq_some : nextBlk m p = some q ↔ word m (p + 508) = q ∧ q ≠ 0 := by
  rw [nextBlk]
  by_cases h : word m (p + 508) = 0
  · rw [if_pos h, h]
    constructor
    · intro hq
      cases hq
    · rintro ⟨rfl, hq⟩
      exact absurd rfl hq
  · rw [if_neg h, Option.some_inj]
    constructor
    · rintro rfl
      exact ⟨rfl, h⟩
    · exact And.left

theorem nextBlk_eq_none : nextBlk m p = none ↔ word m (p + 508) = 0 := by
  rw [nextBlk]
  by_cases h : word m (p + 508) = 0
  · rw [if_pos h]
    exact iff_of_true rfl h
  · rw [if_neg h]
    exact iff_of_false (Option.some_ne_none _) h

theorem Chain.next (h : Chain m p (q :: qs)) : word m (p + 508) = q :=
  (nextBlk_eq_some.mp h.links.1).1

theorem Chain.tail (h : Chain m p (q :: qs)) : Chain m q qs :=
  ⟨h.links.2, fun r hr => h.inside r (List.mem_cons_of_mem p hr)⟩

theorem Chain.head_le (h : Chain m p qs) : p + 512 ≤ 0x400000 := h.inside p List.mem_cons_self

theorem Chain.congr (h : Chain m p qs) (heq : ∀ q ∈ p :: qs, word m' (q + 508) = word m (q + 508)) :
    Chain m' p qs :=
  ⟨h.links.congr fun q hq => by rw [nextBlk, heq q hq, nextBlk], h.inside⟩

/-- The blocks of a chain are distinct and inside the device. -/
theorem Chain.length_le (h : Chain m p qs) : (p :: qs).length ≤ 0x400000 := by
  have hcard := List.toFinset_card_of_nodup h.links.nodup
  have hsub : (p :: qs).toFinset ⊆ Finset.range 0x400000 := by
    intro q hq
    have hle := h.inside q (List.mem_toFinset.mp hq)
    exact Finset.mem_range.mpr (by omega)
  have hle := Finset.card_le_card hsub
  rw [hcard, Finset.card_range] at hle
  exact hle

/-- The blocks of a chain are taken: a tail holds an address or 0. -/
theorem Chain.not_free (h : Chain m p qs) : ∀ q ∈ p :: qs, ¬ FreeBlk m q := by
  induction qs generalizing p with
  | nil =>
      intro q hq hfree
      obtain rfl := List.mem_singleton.mp hq
      have hzero : word m (q + 508) = 0 := nextBlk_eq_none.mp h.links
      exact absurd (hzero.symm.trans hfree.2) (by decide)
  | cons r qs ih =>
      intro q hq hfree
      rcases List.mem_cons.mp hq with rfl | hq
      · have hle := h.tail.head_le
        have hr : r = minusOne := h.next.symm.trans hfree.2
        rw [hr] at hle
        exact absurd hle (by decide)
      · exact ih h.tail q hq hfree

theorem linkTails_chain {prev : ℕ} (hqs : (p :: qs).Pairwise fun a b => a + 512 ≤ b)
    (hpos : ∀ q ∈ qs, q ≠ 0) (hin : ∀ q ∈ p :: qs, q + 512 ≤ 0x400000) :
    Chain (linkTails m prev p qs) p qs := by
  refine ⟨?_, hin⟩
  induction qs generalizing m prev p with
  | nil =>
      refine nextBlk_eq_none.mpr ?_
      rw [linkTails, put_append]
      exact word_put_wordBytes (by decide)
  | cons q qs ih =>
      obtain ⟨hp, hqs'⟩ := List.pairwise_cons.mp hqs
      have hlt : q < size := by
        have hq := hin q (List.mem_cons_of_mem p List.mem_cons_self)
        unfold size
        omega
      refine ⟨nextBlk_eq_some.mpr ⟨?_, hpos q List.mem_cons_self⟩,
        ih hqs' (fun r hr => hpos r (List.mem_cons_of_mem q hr))
          fun r hr => hin r (List.mem_cons_of_mem p hr)⟩
      have hkeep : word (linkTails m prev p (q :: qs)) (p + 508) =
          word (put m (p + datablkTailOffHi) (wordBytes prev ++ wordBytes q)) (p + 508) := by
        rw [linkTails]
        refine word_congr fun x _ hx => linkTails_of_notMem fun r hr => Or.inl ?_
        have hr' := hp r hr
        omega
      rw [hkeep, put_append]
      exact word_put_wordBytes hlt

theorem readNext (h : p + 512 ≤ 0x400000) :
    readWord (u32 (p + datablkTailOffLow)) w = .ok (word w.mem (p + 508)) w := by
  have hlow : p + datablkTailOffLow = p + 508 := rfl
  rw [hlow, u32_of_lt (by unfold size; omega)]
  exact readWord_of_le h

theorem getDatablkAddrLoop_chain {i : ℕ} (h : Chain w.mem p qs) (hi : i ≤ qs.length) :
    ∃ r rs, (p :: qs).drop i = r :: rs ∧ getDatablkAddrLoop i p w = .ok r w ∧ Chain w.mem r rs := by
  induction i generalizing p qs with
  | zero => exact ⟨p, qs, rfl, rfl, h⟩
  | succ i ih =>
      cases qs with
      | nil => cases hi
      | cons q qs =>
          obtain ⟨r, rs, hdrop, hloop, hchain⟩ := ih h.tail (Nat.le_of_succ_le_succ hi)
          have hle := h.head_le
          have hne : p ≠ minusOne := by
            rintro rfl
            exact absurd hle (by decide)
          refine ⟨r, rs, hdrop, ?_, hchain⟩
          rw [getDatablkAddrLoop, if_neg hne, bind_ok (readNext hle), h.next, hloop]

theorem blkOfPos_eq {fuel offset : ℕ} (idx : ℕ) (hf : offset ≤ fuel) : ∃ i off,
    blkOfPos fuel idx offset = (idx + i, off) ∧ offset = 504 * i + off ∧ off ≤ 504 ∧
      (i = 0 ∨ 0 < off) := by
  induction fuel generalizing idx offset with
  | zero => exact ⟨0, offset, rfl, by omega, by omega, Or.inl rfl⟩
  | succ n ih =>
      by_cases hgt : offset > datablkPayloadSize
      · have hgt' : 504 < offset := hgt
        rw [blkOfPos, if_pos hgt]
        by_cases hlt : offset - datablkPayloadSize < datablkPayloadSize
        · have hlt' : offset - 504 < 504 := hlt
          rw [if_pos hlt]
          exact ⟨1, offset - 504, rfl, by omega, by omega, Or.inr (by omega)⟩
        · have hlt' : ¬ offset - 504 < 504 := hlt
          obtain ⟨i, off, heq, hsplit, hoff, hpos⟩ := @ih (offset - 504) (idx + 1) (by omega)
          rw [if_neg hlt]
          exact ⟨i + 1, off, heq.trans (by rw [Nat.add_assoc, Nat.add_comm 1]), by omega, hoff,
            Or.inr (by omega)⟩
      · have hgt' : ¬ 504 < offset := hgt
        rw [blkOfPos, if_neg hgt]
        exact ⟨0, offset, rfl, by omega, by omega, Or.inl rfl⟩

theorem readInto_of_le {addr len bufPos : ℕ} (h : addr + len ≤ ramdiskSize) :
    readInto addr len bufPos w = .ok () { w with buf := put w.buf bufPos (bytes w.mem addr len) } := by
  rw [readInto, readRamdisk_of_le h]

/-- The blocks behind `p`, as far as bytes are left to read. -/
theorem readBlks_chain {fuel bufPos n : ℕ} (h : Chain w.mem p qs) (hn : n ≤ 504 * qs.length)
    (hf : n ≤ fuel) : readBlks fuel p bufPos n w =
      .ok () { w with buf := put w.buf bufPos ((gather w.mem 504 qs).take n) } := by
  induction fuel generalizing p qs bufPos n w with
  | zero =>
      rw [Nat.le_zero.mp hf, List.take_zero, put_nil]
      rfl
  | succ fuel ih =>
      by_cases hzero : n = 0
      · rw [hzero, List.take_zero, put_nil]
        rfl
      · cases qs with
        | nil => exact absurd (Nat.le_zero.mp hn) hzero
        | cons q qs =>
            have hq := h.tail.head_le
            have hlen : (if n ≥ datablkPayloadSize then datablkPayloadSize else n) = min n 504 := by
              rw [min_comm, min_def]
              rfl
            have hinto : q + min n 504 ≤ ramdiskSize := by
              have hmin := min_le_right n 504
              simp only [ramdiskSize]
              omega
            have htake : ((gather w.mem 504 (q :: qs)).drop 0).take n = _ := take_drop_gather (Nat.zero_le 504)
            rw [List.drop_zero, Nat.add_zero, Nat.sub_zero] at htake
            have hbuf : put w.buf bufPos ((gather w.mem 504 (q :: qs)).take n) =
                put (put w.buf bufPos (bytes w.mem q (min n 504))) (bufPos + min n 504)
                  ((gather w.mem 504 qs).take (n - min n 504)) := by
              rw [htake, put_append, bytes_length]
            rw [List.length_cons, Nat.mul_succ] at hn
            have hrest : readBlks fuel q (bufPos + min n 504) (n - min n 504)
                { w with buf := put w.buf bufPos (bytes w.mem q (min n 504)) } = _ :=
              ih h.tail (by omega) (by omega)
            rw [readBlks, if_neg hzero, bind_ok (readNext h.head_le), h.next, hlen,
              bind_ok (readInto_of_le hinto), hbuf]
            exact hrest

theorem getDatablkAddr_chain {i : ℕ} (h : Chain w.mem w.file.datablkAddr qs) (hi : i ≤ qs.length) :
    ∃ r rs, (w.file.datablkAddr :: qs).drop i = r :: rs ∧ getDatablkAddr i w = .ok r w ∧
      Chain w.mem r rs := by
  obtain ⟨r, rs, hdrop, hloop, hchain⟩ := getDatablkAddrLoop_chain h hi
  have hne {a : ℕ} (ha : a + 512 ≤ 0x400000) : a ≠ minusOne := by
    rintro rfl
    exact absurd ha (by decide)
  refine ⟨r, rs, hdrop, ?_, hchain⟩
  rw [getDatablkAddr, getFile_bind, if_neg (hne h.head_le), bind_ok hloop, if_neg (hne hchain.head_le),
    pure_run]

theorem slfsRead_chain {n : ℕ} (h : Chain w.mem w.file.datablkAddr qs) (hsize : 0 < w.file.fileSize)
    (hblks : w.file.fileSize ≤ 504 * (qs.length + 1)) (hpos : w.file.pos ≤ w.file.fileSize)
    (hn : w.file.pos + n < Word.size) : slfsRead n w = .ok ()
      { w with
        buf := put w.buf 0 (((gather w.mem 504 (w.file.datablkAddr :: qs)).drop w.file.pos).take
          (min n (w.file.fileSize - w.file.pos))) } := by
  have hne : ¬ (w.file.fileSize = 0 ∨ w.file.datablkAddr = minusOne) := by
    rintro (h0 | hmax)
    · exact hsize.ne' h0
    · have hle := h.head_le
      rw [hmax] at hle
      exact absurd hle (by decide)
  obtain ⟨i, off, hblk, hsplit, hoff, hi⟩ := blkOfPos_eq 0 (le_refl w.file.pos)
  have hile : i ≤ qs.length := by omega
  obtain ⟨r, rs, hdrop, hget, hchain⟩ := getDatablkAddr_chain h hile
  have hread : (if w.file.fileSize < u32 (w.file.pos + n) then usub w.file.fileSize w.file.pos else n) =
      min n (w.file.fileSize - w.file.pos) := by
    rw [u32_of_lt hn]
    split
    · rw [usub_of_le (by omega) hpos]
      omega
    · omega
  set k := min n (w.file.fileSize - w.file.pos) with hk
  have hlen : (if datablkPayloadSize - off > k then k else datablkPayloadSize - off) =
      min k (504 - off) := by
    change (if 504 - off > k then k else 504 - off) = _
    split <;> omega
  have hrlen : rs.length + i = qs.length := by
    have hl := congrArg List.length hdrop
    rw [List.length_drop, List.length_cons, List.length_cons] at hl
    omega
  have hr := hchain.head_le
  have hr32 : u32 (r + off) = r + off := u32_of_lt (by unfold size; omega)
  have hinto : r + off + min k (504 - off) ≤ ramdiskSize := by
    simp only [ramdiskSize]
    omega
  have hrange : ((gather w.mem 504 (w.file.datablkAddr :: qs)).drop w.file.pos).take k =
      bytes w.mem (r + off) (min k (504 - off)) ++
        (gather w.mem 504 rs).take (k - min k (504 - off)) := by
    rw [hsplit, drop_gather (by rw [List.length_cons]; omega), hdrop, take_drop_gather hoff]
  have hrest : k - min k (504 - off) ≤ 504 * rs.length := by omega
  rw [slfsRead, getFile_bind, if_neg hne]
  simp only [hread, hblk, Nat.zero_add, hlen]
  have hblks' : readBlks k r (min k (504 - off)) (k - min k (504 - off))
      { w with buf := put w.buf 0 (bytes w.mem (r + off) (min k (504 - off))) } = _ :=
    readBlks_chain hchain hrest (Nat.sub_le _ _)
  rw [bind_ok hget, hr32, bind_ok (readInto_of_le hinto), hrange, put_append, bytes_length, Nat.zero_add]
  exact hblks'

/-- A write below the tails leaves the chain. -/
theorem Chain.put_payload {bs : List UInt8} {a : ℕ} (h : Chain m p qs)
    (ha : ∀ q ∈ p :: qs, q + 512 ≤ a ∨ a + bs.length ≤ q + 504) : Chain (put m a bs) p qs := by
  refine h.congr fun q hq => word_put_of_disjoint ?_
  have hq' := ha q hq
  omega

theorem Chain.scatter {bs : List UInt8} {ps : List ℕ} (h : Chain m p qs)
    (hps : ∀ q ∈ p :: qs, ∀ r ∈ ps, q + 512 ≤ r ∨ r + 504 ≤ q + 504) :
    Chain (scatter 504 m ps bs) p qs := by
  refine h.congr fun q hq => word_congr fun x hlo hhi => scatter_of_notMem fun r hr => ?_
  have hr' := hps q hq r hr
  omega

theorem writeNew_chain {pbuf : Mem} {fuel bufPos n : ℕ} (h : Chain w.mem p qs)
    (hqs : (p :: qs).Pairwise fun a b => a + 512 ≤ b) (hn : n ≤ 504 * (qs.length + 1)) (h0 : 0 < n)
    (hf : n ≤ fuel) : ∃ w', writeNew pbuf fuel p bufPos n w = .ok () w' ∧
      w'.mem = scatter 504 w.mem (p :: qs) (bytes pbuf bufPos n) ∧ w'.file = w.file := by
  induction fuel generalizing p qs bufPos n w with
  | zero => exact absurd (Nat.le_zero.mp hf) h0.ne'
  | succ fuel ih =>
      have hp := h.head_le
      rw [writeNew, if_neg h0.ne']
      by_cases hgt : n > datablkPayloadSize
      · have hgt' : 504 < n := hgt
        have hle : p + (bytes pbuf bufPos datablkPayloadSize).length ≤ ramdiskSize := by
          rw [bytes_length]
          exact (Nat.add_le_add_left (by decide) p).trans hp
        cases qs with
        | nil => exact absurd hn (by rw [List.length_nil]; omega)
        | cons q qs =>
            obtain ⟨hpq, hqs'⟩ := List.pairwise_cons.mp hqs
            have hkeep : Chain (put w.mem p (bytes pbuf bufPos 504)) p (q :: qs) := by
              refine h.put_payload fun r hr => ?_
              rw [bytes_length]
              rcases List.mem_cons.mp hr with rfl | hr
              · exact Or.inr le_rfl
              · exact Or.inr (by have hr' := hpq r hr; omega)
            have hdrop : (bytes pbuf bufPos n).drop 504 = bytes pbuf (bufPos + 504) (n - 504) :=
              drop_bytes hgt'.le
            have htake : (bytes pbuf bufPos n).take 504 = bytes pbuf bufPos 504 := take_bytes hgt'.le
            rw [List.length_cons, Nat.mul_succ] at hn
            obtain ⟨w', hrest, hmem, hfile⟩ : ∃ w', writeNew pbuf fuel q (bufPos + 504) (n - 504)
                (w.store (put w.mem p (bytes pbuf bufPos 504))) = .ok () w' ∧ _ ∧ _ :=
              ih hkeep.tail hqs' (by omega) (by omega) (by omega)
            have hnext : word (put w.mem p (bytes pbuf bufPos 504)) (p + 508) = q := hkeep.next
            rw [if_pos hgt, bind_ok (writeOrErr_of_le hle), bind_ok (readNext hp), scatter, htake, hdrop]
            exact ⟨w', hnext ▸ hrest, hmem, hfile⟩
      · have hgt' : n ≤ 504 := Nat.not_lt.mp hgt
        have hle : p + (bytes pbuf bufPos n).length ≤ ramdiskSize := by
          rw [bytes_length]
          exact (Nat.add_le_add_left (hgt'.trans (by decide)) p).trans hp
        have hfull : (bytes pbuf bufPos n).length ≤ 504 := by rwa [bytes_length]
        rw [if_neg hgt, writeOrErr_of_le hle, scatter, List.take_of_length_le hfull,
          List.drop_eq_nil_of_le hfull, scatter_nil]
        exact ⟨_, rfl, rfl, rfl⟩

end Slos.Slfs
