import Slos.SlfsNewFile

/-!
# Walking a chain

`Built` is the chain that `alloc_datablk` leaves for an inode. Its last block has 0 as the next address, and
`get_datablk_num` and `get_datablk_addr` stop at 0xFFFFFFFF: they go on at address 0, in the metadata page. The blocks of the
chain are found; their number is never returned, and the address 0 is.
-/

namespace Slos.Slfs
open Word ByteMemory Ramdisk LinkedNodes

variable {m : Mem} {i p : ℕ} {qs : List ℕ} {w w₀ w₁ : Fs}

/-- The blocks `p :: qs` of inode `i` as `alloc_datablk` leaves them. -/
structure Built (m : Mem) (i p : ℕ) (qs : List ℕ) : Prop where
  chain : Chain m p qs
  back : Backward (fun q => some (word m (q + 504))) (inodeAddr i) (p :: qs)
  ascending : (p :: qs).Pairwise fun a b => a + 512 ≤ b
  blocks : ∀ q ∈ p :: qs, q ∈ blkAddrs datablkStart datablkMaxCnt

theorem word_tail_prev {prev next : ℕ} (h : prev < size) :
    word (put m (p + datablkTailOffHi) (wordBytes prev ++ wordBytes next)) (p + 504) = prev := by
  have hmid : word (put m (p + 504) ([] ++ (wordBytes prev ++ wordBytes next))) (p + 504 + 0) = u32 prev :=
    word_put_mid rfl
  exact hmid.trans (u32_of_lt h)

theorem linkTails_back {prev : ℕ} (hqs : (p :: qs).Pairwise fun a b => a + 512 ≤ b) (hprev : prev < size)
    (hin : ∀ q ∈ p :: qs, q < size) :
    Backward (fun q => some (word (linkTails m prev p qs) (q + 504))) prev (p :: qs) := by
  induction qs generalizing m prev p with
  | nil => exact ⟨congrArg some (word_tail_prev hprev), trivial⟩
  | cons q qs ih =>
      obtain ⟨hp, hqs'⟩ := List.pairwise_cons.mp hqs
      refine ⟨congrArg some ?_, ih hqs' (hin p List.mem_cons_self) fun r hr => hin r (List.mem_cons_of_mem p hr)⟩
      have hkeep : word (linkTails m prev p (q :: qs)) (p + 504) =
          word (put m (p + datablkTailOffHi) (wordBytes prev ++ wordBytes q)) (p + 504) := by
        rw [linkTails]
        refine word_congr fun x _ hx => linkTails_of_notMem fun r hr => Or.inl ?_
        have hr' := hp r hr
        omega
      rw [hkeep, word_tail_prev hprev]

/-- With fewer free blocks than needed the allocation fails. -/
theorem allocDatablkLoop_short {needed n a : ℕ} (st : AllocState) (ha : ramdiskPageSize ≤ a) (hn : a + 512 * n ≤ 0x400000)
    (hi : w.file.inodeIdx < inodeMaxCnt) (hprev : 0 < st.blksAlloced → st.prevDatablkAddr + 512 ≤ a)
    (hshort : st.blksAlloced + (freeBlks w.mem a n).length < needed) (w' : Fs) :
    allocDatablkLoop needed n a st w ≠ .ok () w' := by
  induction n generalizing a st w with
  | zero =>
      have hne : st.blksAlloced ≠ needed := by omega
      rw [allocDatablkLoop, if_pos hne]
      intro h
      cases h
  | succ n ih =>
      have ha' : a + 512 ≤ 0x400000 := (Nat.add_le_add_left (Nat.le_mul_of_pos_right _ n.succ_pos) a).trans hn
      have hrest : a + datablkSize + 512 * n ≤ 0x400000 := by
        rw [Nat.mul_succ, Nat.add_comm (512 * n), ← Nat.add_assoc] at hn
        exact hn
      have hpage : ramdiskPageSize ≤ a + datablkSize := Nat.le_add_right_of_le ha
      rw [freeBlks_succ] at hshort
      by_cases hf : FreeBlk w.mem a
      · rw [if_pos hf, List.length_cons] at hshort
        rw [allocDatablkLoop_succ ha', if_pos hf]
        rcases Nat.eq_zero_or_pos st.blksAlloced with hst | hst
        · have hne : (1 : ℕ) ≠ needed := by omega
          have hkeep : freeBlks (put w.mem (inodeAddr w.file.inodeIdx + 8)
              (wordBytes w.file.fileSize ++ wordBytes a)) (a + datablkSize) n =
              freeBlks w.mem (a + datablkSize) n := by
            refine freeBlks_congr fun x hx => put_of_ge ?_
            have hend := (inodeAddr_lt hi).le.trans (hpage.trans hx)
            rw [List.length_append, wordBytes_length, wordBytes_length]
            omega
          rw [bind_ok (linkDatablk_first hst hi), if_neg hne]
          refine ih _ hpage hrest hi (fun _ => le_rfl) ?_
          rw [store_mem, hkeep]
          change 1 + _ < needed
          omega
        · have hend := hprev hst
          have hne : st.blksAlloced + 1 ≠ needed := by omega
          rw [bind_ok (linkDatablk_next hst (hend.trans (Nat.le_of_add_right_le ha'))), if_neg hne]
          refine ih _ hpage hrest hi (fun _ => le_rfl) ?_
          rw [store_mem, freeBlks_put_tail (Nat.le_add_right_of_le hend)]
          change st.blksAlloced + 1 + _ < needed
          omega
      · rw [if_neg hf] at hshort
        have hne : st.blksAlloced ≠ needed := by omega
        rw [allocDatablkLoop_used ha' hf hne]
        exact ih st hpage hrest hi (fun h => Nat.le_add_right_of_le (hprev h)) hshort

/-- The size a file gets at an allocation. -/
def allocSize (pf : SlfsFile) (len : ℕ) : ℕ :=
  if u32 (pf.pos + len) > pf.fileSize then u32 (pf.pos + len) else pf.fileSize

/-- Every allocation that returns has built a chain, if its caller has taken an inode and the file is not empty. -/
theorem allocDatablk_built {len : ℕ} {st : AllocState} (hi : w₀.file.inodeIdx < inodeMaxCnt)
    (hsize : 0 < allocSize w₀.file len) (h : allocDatablk len st w₀ = .ok () w₁) :
    ∃ qs, Built w₁.mem w₀.file.inodeIdx w₁.file.datablkAddr qs := by
  have hfile : (if u32 (w₀.file.pos + len) > w₀.file.fileSize then { w₀.file with fileSize := u32 (w₀.file.pos + len) }
      else w₀.file) = { w₀.file with fileSize := allocSize w₀.file len } := by
    unfold allocSize
    split_ifs <;> rfl
  rw [allocDatablk, modifyFile_bind, getFile_bind] at h
  simp only [hfile, blksNeeded_eq hsize] at h
  by_cases hblks : (allocSize w₀.file len + 503) / 504 ≤ (freeBlks w₀.mem datablkStart datablkMaxCnt).length
  · obtain ⟨p, qs, htaken, hqs⟩ := takenBlks_eq_cons (Nat.div_pos (by omega) (by decide)) hblks
    have hcount := hblks.trans (freeBlks_length_le w₀.mem datablkStart datablkMaxCnt)
    have hmax : datablkMaxCnt = 8184 := by decide
    have hword : allocSize w₀.file len < Word.size := by
      rw [hmax] at hcount
      unfold Word.size
      omega
    have hpair : (p :: qs).Pairwise fun a b => a + 512 ≤ b := htaken ▸ takenBlks_pairwise w₀.mem _
    have hin : ∀ q ∈ p :: qs, 4096 ≤ q ∧ q + 512 ≤ 0x400000 := fun q hq =>
      mem_takenBlks (m := w₀.mem) (htaken ▸ hq)
    have hslot : inodeAddr w₀.file.inodeIdx + 56 < 4096 := inodeAddr_lt hi
    obtain ⟨l, hloop, -⟩ := allocDatablkLoop_free (w := { w₀ with file := { w₀.file with
      fileSize := allocSize w₀.file len } }) { st with blksAlloced := 0 } le_rfl (by decide) rfl hi hword htaken hqs
    cases hloop.symm.trans h
    have hlt {a : ℕ} (ha : a < 0x400000) : a < Word.size := ha.trans (by decide)
    have hinode : inodeAddr w₀.file.inodeIdx < 0x400000 := by omega
    refine ⟨qs, linkTails_chain hpair (fun q hq => ?_) fun q hq => (hin q hq).2,
      linkTails_back hpair (hlt hinode) fun q hq => hlt ?_, hpair, fun q hq => ?_⟩
    · have hlo := (hin q (List.mem_cons_of_mem p hq)).1
      omega
    · have hhi := (hin q hq).2
      omega
    · rw [← htaken] at hq
      exact mem_blkAddrs_of_mem_freeBlks (List.mem_of_mem_take hq)
  · refine absurd h (allocDatablkLoop_short (w := { w₀ with file := { w₀.file with fileSize := allocSize w₀.file len } })
      (n := datablkMaxCnt) (a := datablkStart) _ le_rfl (by decide) hi (fun hst => absurd hst (lt_irrefl 0)) ?_ w₁)
    rw [Nat.zero_add]
    exact Nat.not_le.mp hblks

/-- A walk that has not ended counts one more block at least. -/
theorem getDatablkNumLoop_gt {fuel cur num n : ℕ} (hcur : cur ≠ minusOne) (hfuel : num + fuel ≤ size) {w' : Fs}
    (h : getDatablkNumLoop fuel cur num w = .ok n w') : num < n := by
  induction fuel generalizing cur num with
  | zero => cases h
  | succ fuel ih =>
      rw [getDatablkNumLoop, if_neg hcur] at h
      obtain ⟨next, u, hread, hrest⟩ := bind_eq_ok h
      obtain rfl := (readWord_readOnly _).ok hread
      cases fuel with
      | zero => cases hrest
      | succ fuel =>
          rw [u32_of_lt (by omega)] at hrest
          by_cases hnext : next = minusOne
          · rw [getDatablkNumLoop, if_pos hnext] at hrest
            cases hrest
            exact Nat.lt_succ_self num
          · exact (Nat.lt_succ_self num).trans (ih hnext (by omega) hrest)

/-- The walk over a chain goes on at address 0. -/
theorem getDatablkNumLoop_chain (fuel num : ℕ) (h : Chain w.mem p qs) (hnum : num + (p :: qs).length < size) :
    getDatablkNumLoop (fuel + (p :: qs).length) p num w = getDatablkNumLoop fuel 0 (num + (p :: qs).length) w := by
  have hne : p ≠ minusOne := by
    rintro rfl
    exact absurd h.head_le (by decide)
  induction qs generalizing p num with
  | nil =>
      have hzero : word w.mem (p + 508) = 0 := nextBlk_eq_none.mp h.links
      rw [List.length_singleton] at hnum ⊢
      rw [getDatablkNumLoop, if_neg hne, bind_ok (readNext h.head_le), hzero,
        u32_of_lt (by omega)]
  | cons q qs ih =>
      have hq : q ≠ minusOne := by
        rintro rfl
        exact absurd h.tail.head_le (by decide)
      rw [List.length_cons] at hnum
      have hrest := ih (num + 1) h.tail (by omega) hq
      have hlen : (p :: q :: qs).length = (q :: qs).length + 1 := rfl
      rw [hlen, ← Nat.add_assoc fuel, getDatablkNumLoop, if_neg hne, bind_ok (readNext h.head_le), h.next,
        u32_of_lt (by omega), hrest, Nat.add_assoc num, Nat.add_comm 1]

/-- If `get_datablk_num` returns, then more than the number of blocks. -/
theorem getDatablkNum_gt {n : ℕ} {w' : Fs} (h : Chain w.mem w.file.datablkAddr qs) (hrun : getDatablkNum w = .ok n w') :
    (w.file.datablkAddr :: qs).length < n := by
  have hlen : (w.file.datablkAddr :: qs).length < size := h.length_le.trans_lt (by decide)
  obtain ⟨fuel, hfuel⟩ := Nat.exists_eq_add_of_le' hlen.le
  have hwalk := getDatablkNumLoop_chain fuel 0 h (by rwa [Nat.zero_add])
  rw [getDatablkNum, getFile_bind, hfuel, hwalk, Nat.zero_add] at hrun
  exact getDatablkNumLoop_gt (by decide) (by omega) hrun

/-- Behind the last block `get_datablk_addr` finds address 0. -/
theorem getDatablkAddrLoop_behind (h : Chain w.mem p qs) : getDatablkAddrLoop (qs.length + 1) p w = .ok 0 w := by
  have hne : p ≠ minusOne := by
    rintro rfl
    exact absurd h.head_le (by decide)
  induction qs generalizing p with
  | nil =>
      have hzero : word w.mem (p + 508) = 0 := nextBlk_eq_none.mp h.links
      rw [List.length_nil, getDatablkAddrLoop, if_neg hne, bind_ok (readNext h.head_le), hzero]
      rfl
  | cons q qs ih =>
      have hq : q ≠ minusOne := by
        rintro rfl
        exact absurd h.tail.head_le (by decide)
      rw [getDatablkAddrLoop, if_neg hne, bind_ok (readNext h.head_le), h.next]
      exact ih h.tail hq

/-- What the two walkers are to do on a handle of the chain `blks`. -/
structure WalkLaw (w : Fs) (blks : List ℕ) : Prop where
  count : ∃ w', getDatablkNum w = .ok blks.length w'
  inside : ∀ k (hk : k < blks.length), ∃ w', getDatablkAddr k w = .ok blks[k] w'
  outside : ∀ k, blks.length ≤ k → ∀ a w', getDatablkAddr k w ≠ .ok a w'

/-- On no chain that an allocation has built do the walkers agree with it on the end, whatever the rest of the device holds:
the number is not returned, the blocks inside are found, and behind the last one address 0 is. -/
theorem walk_law_never {len : ℕ} {st : AllocState} (hi : w₀.file.inodeIdx < inodeMaxCnt)
    (hsize : 0 < allocSize w₀.file len) (halloc : allocDatablk len st w₀ = .ok () w₁) :
    ∃ qs, Built w₁.mem w₀.file.inodeIdx w₁.file.datablkAddr qs ∧
      ∀ w, Built w.mem w₀.file.inodeIdx w.file.datablkAddr qs → ¬ WalkLaw w (w.file.datablkAddr :: qs) ∧
        (∀ n w', getDatablkNum w = .ok n w' → (w.file.datablkAddr :: qs).length < n) ∧
        (∀ k (hk : k < (w.file.datablkAddr :: qs).length), getDatablkAddr k w = .ok (w.file.datablkAddr :: qs)[k] w) ∧
        getDatablkAddr (w.file.datablkAddr :: qs).length w = .ok 0 w := by
  obtain ⟨qs, hbuilt⟩ := allocDatablk_built hi hsize halloc
  refine ⟨qs, hbuilt, fun w hw => ⟨fun hlaw => ?_, fun n w' hrun => getDatablkNum_gt hw.chain hrun, fun k hk => ?_, ?_⟩⟩
  · obtain ⟨w', hcount⟩ := hlaw.count
    exact lt_irrefl _ (getDatablkNum_gt hw.chain hcount)
  · obtain ⟨r, rs, hdrop, hget, -⟩ := getDatablkAddr_chain hw.chain (Nat.le_of_lt_succ hk)
    rw [hget]
    have hr := List.drop_eq_getElem_cons hk
    rw [hdrop, List.cons.injEq] at hr
    rw [hr.1]
  · have hne : w.file.datablkAddr ≠ minusOne := by
      intro h
      have hle := hw.chain.head_le
      rw [h] at hle
      exact absurd hle (by decide)
    rw [getDatablkAddr, getFile_bind, if_neg hne, List.length_cons, bind_ok (getDatablkAddrLoop_behind hw.chain)]
    rfl

/-- The device after an allocation of one block on an erased device. -/
def oneBlk : Fs := stateAfter (allocDatablk 1 zeroUninit.alloc erasedFs)

theorem oneBlk_alloc : allocDatablk 1 zeroUninit.alloc erasedFs = .ok () oneBlk := eq_ok_of_succeeded (by decide +kernel)

theorem walk_law_never_oneBlk : ∃ qs, Built oneBlk.mem 0 oneBlk.file.datablkAddr qs ∧
    ∀ w, Built w.mem 0 w.file.datablkAddr qs → ¬ WalkLaw w (w.file.datablkAddr :: qs) ∧
      (∀ n w', getDatablkNum w = .ok n w' → (w.file.datablkAddr :: qs).length < n) ∧
      (∀ k (hk : k < (w.file.datablkAddr :: qs).length), getDatablkAddr k w = .ok (w.file.datablkAddr :: qs)[k] w) ∧
      getDatablkAddr (w.file.datablkAddr :: qs).length w = .ok 0 w :=
  walk_law_never (by decide) (by decide) oneBlk_alloc

/-- The chain of one block is counted as two. -/
theorem one_block_counted_two : returned (getDatablkNum oneBlk) = some 2 ∧
    ¬ ∀ (w : Fs) (i : ℕ) (qs : List ℕ), Built w.mem i w.file.datablkAddr qs → WalkLaw w (w.file.datablkAddr :: qs) := by
  refine ⟨by decide +kernel, fun h => ?_⟩
  obtain ⟨qs, hbuilt⟩ := allocDatablk_built (by decide) (by decide) oneBlk_alloc
  obtain ⟨w', hcount⟩ := (h oneBlk 0 qs hbuilt).count
  exact lt_irrefl _ (getDatablkNum_gt hbuilt.chain hcount)

end Slos.Slfs
