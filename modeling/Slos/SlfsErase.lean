import Slos.SlfsWalk
import Slos.SlfsVersions
import Slos.SlfsDangling
import Mathlib.Logic.Relation

/-!
# Erasing a chain

`delete_datablks` follows a chain through plain memory and not through the device. With other memory empty it takes every
chain for broken. Where the links it finds there keep to the starts of blocks it fills the first quarter of each block in
the page buffer, and no tail of a block outside of the swap page changes.
-/

namespace Slos.Slfs
open Word ByteMemory Ramdisk LinkedNodes

variable {m m₀ : Mem} {i p a start cur : ℕ} {qs blks : List ℕ} {w : Fs} {uninit : Uninit} {inode : SlfsInode}

/-- What `delete_datablks` is to do with the chain `blks`. -/
def DeleteLaw (uninit : Uninit) (inode : SlfsInode) (blks : List ℕ) (w : Fs) : Prop :=
  ∃ w', deleteDatablks inode uninit w = .ok () w' ∧ (∀ b ∈ blks, FreeBlk w'.mem b) ∧
    (∀ b ∈ blkAddrs datablkStart datablkMaxCnt, b ∉ blks → ∀ x < datablkSize, w'.mem (b + x) = w.mem (b + x)) ∧
    ∀ x, ramdiskPageSize ≤ x → w'.page x = w.page x

theorem exists_of_mem_blkAddrs {n b : ℕ} (h : b ∈ blkAddrs a n) : ∃ k, k < n ∧ b = a + 512 * k := by
  induction n generalizing a with
  | zero => cases h
  | succ n ih =>
      rcases List.mem_cons.mp h with rfl | h
      · exact ⟨0, n.succ_pos, rfl⟩
      · obtain ⟨k, hk, hb⟩ := ih h
        exact ⟨k + 1, Nat.succ_lt_succ hk, by rw [hb, datablkSize, ramdiskBlkSize]; omega⟩

section Rewrite

/-- The device a rewrite of a data page leaves, whether the page is recorded or the table is full. -/
theorem storePage_data_mem (hp : p < ramdiskPageNum) (h0 : p ≠ metadataPageIdx) : ∃ u c, storePage p w = .ok () u ∧
    u.mem = swapErased (copiedBack c p 8) ∧ ∀ x, ramdiskPageSize ≤ x → c x = swapWritten w.mem w.page x := by
  by_cases htab : word w.mem garbagePageTabStart = minusOne
  · refine ⟨_, _, storePage_data_run hp h0 htab, rfl, fun x hx => put_of_ge ?_⟩
    rw [wordBytes_length]
    exact le_trans (by decide) hx
  · have hsame : word (swapWritten w.mem w.page) garbagePageTabStart = word w.mem garbagePageTabStart :=
      word_congr fun x _ hx => swapWritten_of_lt (hx.trans (by decide))
    have hrec := recordGarbagePage_full (p := p)
      (w := (w.store (swapErased w.mem)).store (swapWritten w.mem w.page)) (hsame ▸ htab)
    exact ⟨_, _, storePage_recorded hp h0 hrec, rfl, fun _ _ => rfl⟩

/-- A rewrite puts the page buffer in place of the page and erases the swap page. -/
theorem storePage_apply (hp : p < ramdiskPageNum) : ∃ u, storePage p w = .ok () u ∧ ∀ x, ramdiskPageSize ≤ x →
    u.mem x = if swapPageStart ≤ x ∧ x < ramdiskSize then 0xFF
      else if x / 4096 = p then w.page (x % 4096) else w.mem x := by
  have hp' : p < 1024 := hp
  have hstart : swapPageStart = 4190208 := rfl
  have hsize : ramdiskSize = 4194304 := rfl
  have hpage : ramdiskPageSize = 4096 := rfl
  by_cases hmeta : p = metadataPageIdx
  · subst hmeta
    obtain ⟨u, hrun, hmem⟩ := storePage_metadata_mem (w := w)
    refine ⟨u, hrun, fun x hx => ?_⟩
    rw [hmem, metadataStored_apply, metadataPageIdx]
    split_ifs <;> first | rfl | omega
  · obtain ⟨u, c, hrun, hmem, hc⟩ := storePage_data_mem (w := w) hp hmeta
    refine ⟨u, hrun, fun x hx => ?_⟩
    have hpos : p ≠ 0 := hmeta
    rw [hmem, swapErased_apply]
    by_cases hswap : p = swapPageIdx
    · have hidx : p = 1023 := hswap
      rw [hswap, copiedBack_swap, swapErased_apply, hc x hx, swapWritten_apply, ← hswap]
      split_ifs <;> first | rfl | omega
    · have hne : p ≠ 1023 := hswap
      have hlt : p < swapPageIdx := by
        change p < 1023
        omega
      rw [copiedBack_apply hlt le_rfl, hc x hx, hc _ (by omega), swapWritten_apply, swapWritten_apply]
      split_ifs <;> first | omega | exact congrArg w.page (by omega) | rfl

end Rewrite

section Links

/-- An address, and one that a tail leads to which the CPU finds in plain memory behind it. -/
def CpuLinked (m : Mem) (a b : ℕ) : Prop :=
  a ≠ minusOne ∧ (b = cpuWord m (u32 (a + datablkTailOffLow)) ∨ b = cpuWord m (u32 (a + datablkTailOffHi)))

/-- The links that lead on from `start` keep to the starts of blocks and to the metadata page. -/
def KeepsToBlks (m : Mem) (start : ℕ) : Prop := ∀ a, Relation.ReflTransGen (CpuLinked m) start a →
  a = minusOne ∨ a % datablkSize = 0 ∨ a < datablkStart

/-- Below the device window the CPU reads other memory. -/
theorem cpuWord_congr (ha : a + 4 ≤ ramdiskStart) (h : ∀ x, ramdiskSize ≤ x → m x = m₀ x) : cpuWord m a = cpuWord m₀ a := by
  have hout {k : ℕ} (hk : k < 4) : m (usub (a + k) ramdiskStart) = m₀ (usub (a + k) ramdiskStart) := by
    have hlt : a + k < ramdiskStart := by omega
    have hsize : ramdiskSize = 4194304 := rfl
    have hstart : ramdiskStart = 50331648 := rfl
    refine h _ ?_
    rw [usub_of_lt (by decide) hlt, hsize, hstart, size]
    omega
  have h0 : m (usub a ramdiskStart) = m₀ (usub a ramdiskStart) := hout (k := 0) (by decide)
  rw [cpuWord, h0, hout (k := 1) (by decide), hout (k := 2) (by decide), hout (k := 3) (by decide)]
  rfl

theorem cpuRead_bind {α : Type} (f : ℕ → FsM α) (w : Fs) : (cpuRead a >>= f) w = f (cpuWord w.mem a) w := rfl

/-- The walk ends on an address it was led to. -/
theorem lastDatablk_linked {fuel r : ℕ} {w' : Fs} (ha : Relation.ReflTransGen (CpuLinked w.mem) start a)
    (hcur : Relation.ReflTransGen (CpuLinked w.mem) start cur) (h : lastDatablk fuel a cur w = .ok r w') :
    Relation.ReflTransGen (CpuLinked w.mem) start r := by
  induction fuel generalizing a cur with
  | zero => cases h
  | succ fuel ih =>
      rw [lastDatablk] at h
      by_cases hend : a = minusOne
      · rw [if_pos hend] at h
        cases h
        exact hcur
      · rw [if_neg hend, cpuRead_bind, cpuRead_bind] at h
        by_cases hback : a = cpuWord w.mem (u32 (cpuWord w.mem (u32 (a + datablkTailOffLow)) + datablkTailOffHi))
        · rw [if_neg (not_not_intro hback)] at h
          exact ih (ha.tail ⟨hend, Or.inl rfl⟩) ha h
        · rw [if_pos hback] at h
          cases h

/-- With other memory empty the first check fails. -/
theorem deleteDatablks_empty (inode : SlfsInode) (uninit : Uninit) (ha : inode.datablkAddr < ramdiskSize)
    (hpos : 0 < inode.datablkAddr) (hzero : ∀ x, ramdiskSize ≤ x → w.mem x = 0) : deleteDatablks inode uninit w = .error .listBroken w := by
  have hsize : ramdiskSize = 4194304 := rfl
  have hstart : ramdiskStart = 50331648 := rfl
  have hread {x : ℕ} (hx : x + 4 ≤ ramdiskStart) : cpuWord w.mem x = 0 := by
    rw [cpuWord_congr hx hzero, cpuWord, wordOf, UInt8.toNat_zero]
  have hnext : cpuWord w.mem (u32 (inode.datablkAddr + datablkTailOffLow)) = 0 := by
    change cpuWord w.mem (u32 (inode.datablkAddr + 508)) = 0
    rw [u32_of_lt (by unfold Word.size; omega)]
    exact hread (by omega)
  have hprev : cpuWord w.mem (u32 (0 + datablkTailOffHi)) = 0 := hread (by decide)
  have hne : inode.datablkAddr ≠ minusOne := by
    change inode.datablkAddr ≠ 4294967295
    omega
  have hlast : lastDatablk Word.size inode.datablkAddr uninit.curDatablkAddr w = .error .listBroken w := by
    rw [Word.size, lastDatablk, if_neg hne, cpuRead_bind, hnext, cpuRead_bind, hprev, if_pos (Nat.ne_of_gt hpos)]
    rfl
  rw [deleteDatablks, bind_error hlast]

end Links

section Tails

/-- Bytes of the tails of blocks outside of the swap page. -/
def TailByte (x : ℕ) : Prop := datablkStart ≤ x ∧ x < swapPageStart ∧ datablkTailOffHi ≤ x % datablkSize

structure TailsKept (m₀ m : Mem) : Prop where
  tails : ∀ x, TailByte x → m x = m₀ x
  plain : ∀ x, ramdiskSize ≤ x → m x = m₀ x

/-- The page buffer too, when it holds page `p`. -/
structure BufferKept (m₀ : Mem) (p : ℕ) (w : Fs) : Prop where
  mem : TailsKept m₀ w.mem
  page : ∀ x < ramdiskPageSize, TailByte (p * ramdiskPageSize + x) → w.page x = m₀ (p * ramdiskPageSize + x)

/-- The mask leaves 13 bits of the address, the offset in a pair of pages. -/
theorem pageOffset_eq (h : cur < size) : usub cur (pageAddr cur) = cur % 8192 := by
  have hlow : (cur &&& 0xFFFFE000) % 2 ^ 13 = cur % 2 ^ 13 &&& 0xFFFFE000 % 2 ^ 13 := Nat.and_mod_two_pow
  have hhigh : (cur &&& ((2 ^ 19 - 1) <<< 13)) >>> 13 = cur / 2 ^ 13 := and_high_shiftRight h
  have hzero : cur % 2 ^ 13 &&& 0xFFFFE000 % 2 ^ 13 = 0 := Nat.and_zero _
  have hmask : (2 ^ 19 - 1) <<< 13 = 0xFFFFE000 := rfl
  rw [hmask, Nat.shiftRight_eq_div_pow] at hhigh
  have hle : pageAddr cur ≤ cur := Nat.and_le_left
  rw [usub_of_le h hle, pageAddr]
  rw [pageAddr] at hle
  omega

/-- What is filled of the loaded page is no tail. -/
theorem eraseInPage_kept (fuel : ℕ) (hgood : KeepsToBlks m₀ start) (hp : p < ramdiskPageNum) (hidx : pageIdxOf cur = p)
    (hcur : Relation.ReflTransGen (CpuLinked m₀) start cur) (hw : BufferKept m₀ p w) :
    BufferKept m₀ p (stateAfter (eraseInPage p fuel cur w)) ∧
      ∀ r u, eraseInPage p fuel cur w = .ok r u → Relation.ReflTransGen (CpuLinked m₀) start r := by
  induction fuel generalizing cur w with
  | zero => exact ⟨hw, fun r u h => by cases h⟩
  | succ fuel ih =>
      have hp' : p < 1024 := hp
      have hdiv : cur / 4096 = p := (Nat.shiftRight_eq_div_pow cur 12).symm.trans hidx
      have hlt : cur < 4194304 := by omega
      have hne : cur ≠ minusOne := by
        change cur ≠ 4294967295
        omega
      have hstart : ramdiskStart = 50331648 := rfl
      have hread : cpuWord w.mem (u32 (cur + datablkTailOffHi)) = cpuWord m₀ (u32 (cur + datablkTailOffHi)) := by
        change cpuWord w.mem (u32 (cur + 504)) = cpuWord m₀ (u32 (cur + 504))
        rw [u32_of_lt (by unfold size; omega)]
        exact cpuWord_congr (by omega) hw.mem.plain
      have hnext : Relation.ReflTransGen (CpuLinked m₀) start (cpuWord w.mem (u32 (cur + datablkTailOffHi))) :=
        hcur.tail ⟨hne, Or.inr hread⟩
      have herase : BufferKept m₀ p { w with page := put w.page (usub cur (pageAddr cur)) (List.replicate 128 0xFF) } := by
        refine ⟨hw.mem, fun x hx htail => ?_⟩
        rw [← hw.page x hx htail]
        refine put_of_notMem ?_
        have htail' : 4096 ≤ p * 4096 + x ∧ p * 4096 + x < 4190208 ∧ 504 ≤ (p * 4096 + x) % 512 := htail
        rw [List.length_replicate, pageOffset_eq (by unfold size; omega)]
        rcases hgood cur hcur with h | h | h
        · exact absurd h hne
        · change cur % 512 = 0 at h
          omega
        · change cur < 4096 at h
          omega
      rw [eraseInPage, cpuRead_bind, modifyPage_bind]
      by_cases hsame : p = pageIdxOf (cpuWord w.mem (u32 (cur + datablkTailOffHi)))
      · rw [if_pos hsame]
        exact ih hsame.symm hnext herase
      · rw [if_neg hsame]
        exact ⟨herase, fun r u h => by cases h; exact hnext⟩

/-- One page is rewritten with the tails as they were. -/
theorem storePage_kept (hp : p < ramdiskPageNum) (hw : BufferKept m₀ p w) :
    TailsKept m₀ (stateAfter (storePage p w)).mem := by
  obtain ⟨u, hrun, hmem⟩ := storePage_apply (w := w) hp
  rw [hrun]
  have hsize : ramdiskSize = 4194304 := rfl
  have hstart : swapPageStart = 4190208 := rfl
  have hp' : p < 1024 := hp
  refine ⟨fun x hx => ?_, fun x hx => ?_⟩
  · have hlow : 4096 ≤ x := hx.1
    have hhigh := hx.2.1
    dsimp only [stateAfter]
    rw [hmem x hlow, if_neg (by omega)]
    by_cases hpage : x / 4096 = p
    · have hxp : p * ramdiskPageSize + x % 4096 = x := by
        change p * 4096 + x % 4096 = x
        omega
      rw [if_pos hpage, hw.page (x % 4096) (Nat.mod_lt x (by decide)) (hxp.symm ▸ hx), hxp]
    · rw [if_neg hpage]
      exact hw.mem.tails x hx
  · have hlow : ramdiskPageSize ≤ x := le_trans (by decide) hx
    dsimp only [stateAfter]
    rw [hmem x hlow, if_neg (by omega), if_neg (by omega)]
    exact hw.mem.plain x hx

theorem loadPage_kept (hw : TailsKept m₀ w.mem) : BufferKept m₀ p { w with page := loadedPage w p } := by
  refine ⟨hw, fun x hx htail => ?_⟩
  dsimp only
  rw [loadedPage_byte hx, hw.tails _ htail]

theorem eraseDatablks_kept (fuel : ℕ) (hgood : KeepsToBlks m₀ start) (hcur : Relation.ReflTransGen (CpuLinked m₀) start cur)
    (hw : TailsKept m₀ w.mem) : TailsKept m₀ (stateAfter (eraseDatablks fuel cur w)).mem := by
  induction fuel generalizing cur w with
  | zero => exact hw
  | succ fuel ih =>
      rw [eraseDatablks]
      by_cases hp : pageIdxOf cur < ramdiskPageNum
      · have hload := orIoErr_ok (loadPage_of_lt (w := w) hp)
        rw [bind_ok hload]
        obtain ⟨hbuf, hnext⟩ := eraseInPage_kept Word.size hgood hp rfl hcur (loadPage_kept hw)
        cases hrun : eraseInPage (pageIdxOf cur) Word.size cur { w with page := loadedPage w (pageIdxOf cur) } with
        | error e v =>
            rw [hrun] at hbuf
            rw [bind_error hrun]
            exact hbuf.mem
        | ok r v =>
            rw [hrun] at hbuf
            rw [bind_ok hrun]
            have hstore := storePage_kept hp hbuf
            obtain ⟨u, hrun', -⟩ := storePage_apply (w := v) hp
            change TailsKept m₀ (stateAfter (storePage (pageIdxOf cur) v)).mem at hstore
            rw [hrun'] at hstore
            rw [bind_ok (orIoErr_ok hrun')]
            split
            · exact ih (hnext r v hrun) hstore
            · exact hstore
      · have hload : orIoErr (loadPage (pageIdxOf cur)) w = .error .io w := by
          rw [loadPage, if_pos (Nat.not_lt.mp hp)]
          rfl
        rw [bind_error hload]
        exact hw

end Tails

theorem inodeAddr_ne_minusOne (i : ℕ) : inodeAddr i ≠ minusOne := by
  change (192 + i * 56) % 4294967296 ≠ 4294967295
  omega

/-- Where the links keep to the blocks, the first block of a chain is still taken after the call. -/
theorem first_blk_taken (h : Built w.mem i inode.datablkAddr qs) (hp : inode.datablkAddr < swapPageStart)
    (hkeeps : KeepsToBlks w.mem inode.datablkAddr) {w' : Fs} (hrun : deleteDatablks inode uninit w = .ok () w') :
    ¬ FreeBlk w'.mem inode.datablkAddr := by
  obtain ⟨k, -, hk⟩ := exists_of_mem_blkAddrs (h.blocks _ List.mem_cons_self)
  have hstart : datablkStart = 4096 := rfl
  have hswap : swapPageStart = 4190208 := rfl
  have hne : inode.datablkAddr ≠ minusOne := by
    change inode.datablkAddr ≠ 4294967295
    omega
  rw [deleteDatablks] at hrun
  obtain ⟨cur, u, hlast, herase⟩ := bind_eq_ok hrun
  obtain rfl := (lastDatablk_readOnly _ _ _).ok hlast
  have hcur : Relation.ReflTransGen (CpuLinked u.mem) inode.datablkAddr cur := by
    rw [Word.size, lastDatablk, if_neg hne, cpuRead_bind, cpuRead_bind] at hlast
    split at hlast
    · cases hlast
    · exact lastDatablk_linked (Relation.ReflTransGen.single ⟨hne, Or.inl rfl⟩) Relation.ReflTransGen.refl hlast
  have hkept := eraseDatablks_kept Word.size hkeeps hcur ⟨fun _ _ => rfl, fun _ _ => rfl⟩
  rw [herase] at hkept
  have hback : word u.mem (inode.datablkAddr + 504) = inodeAddr i := Option.some.inj h.back.1
  have hsame : word w'.mem (inode.datablkAddr + 504) = word u.mem (inode.datablkAddr + 504) := by
    refine word_congr fun x hlo hhi => hkept.tails x ⟨by omega, by omega, ?_⟩
    change 504 ≤ x % 512
    omega
  exact fun hfree => inodeAddr_ne_minusOne i ((hsame.trans hback).symm.trans hfree.1)

/-- On no chain that an allocation has built does `delete_datablks` do so for whatever plain memory holds: nothing is erased
where it is empty. Where its links keep to the blocks, a chain that starts outside of the swap page keeps its first block.
In a page of odd number the mask leads out of the page buffer. -/
theorem delete_law_never (h : Built w.mem i inode.datablkAddr qs) :
    (¬ ∀ ram, DeleteLaw uninit inode (inode.datablkAddr :: qs) { w with mem := withRam w.mem ram }) ∧
      (inode.datablkAddr < swapPageStart → KeepsToBlks w.mem inode.datablkAddr →
        ¬ DeleteLaw uninit inode (inode.datablkAddr :: qs) w) ∧
      ∀ b ∈ inode.datablkAddr :: qs, pageIdxOf b % 2 = 1 → ramdiskPageSize ≤ usub b (pageAddr b) := by
  have hsize : ramdiskSize = 4194304 := rfl
  have hin : ∀ b ∈ inode.datablkAddr :: qs, 4096 ≤ b ∧ b + 512 ≤ 4194304 := fun b hb => mem_blkAddrs (h.blocks b hb)
  have hhead := hin _ List.mem_cons_self
  refine ⟨fun hall => ?_, fun hp hkeeps hlaw => ?_, fun b hb hodd => ?_⟩
  · obtain ⟨w', hrun, -⟩ := hall fun _ => 0
    have hempty := deleteDatablks_empty inode uninit
      (w := { w with mem := withRam w.mem fun _ => 0 }) (by omega) (by omega) fun x hx => if_neg (Nat.not_lt.mpr hx)
    rw [hempty] at hrun
    cases hrun
  · obtain ⟨w', hrun, hfree, -⟩ := hlaw
    exact first_blk_taken h hp hkeeps hrun (hfree _ List.mem_cons_self)
  · have hb' := hin b hb
    have hidx : pageIdxOf b = b / 4096 := Nat.shiftRight_eq_div_pow b 12
    rw [pageOffset_eq (by unfold Word.size; omega)]
    change 4096 ≤ b % 8192
    omega

theorem delete_law_never_oneBlk : ∃ qs, Built oneBlk.mem 0 oneBlk.file.datablkAddr qs ∧ ∀ inode : SlfsInode,
    inode.datablkAddr = oneBlk.file.datablkAddr →
      (¬ ∀ ram, DeleteLaw zeroUninit inode (inode.datablkAddr :: qs) { oneBlk with mem := withRam oneBlk.mem ram }) ∧
      (inode.datablkAddr < swapPageStart → KeepsToBlks oneBlk.mem inode.datablkAddr →
        ¬ DeleteLaw zeroUninit inode (inode.datablkAddr :: qs) oneBlk) ∧
      ∀ b ∈ inode.datablkAddr :: qs, pageIdxOf b % 2 = 1 → ramdiskPageSize ≤ usub b (pageAddr b) := by
  obtain ⟨qs, hbuilt⟩ := allocDatablk_built (by decide) (by decide) oneBlk_alloc
  exact ⟨qs, hbuilt, fun inode ha => delete_law_never (ha.symm ▸ hbuilt)⟩

/-- The one block of a file is not deleted. -/
theorem one_block_kept : failure (deleteDatablks (inodeAt oneBlk.mem 0) zeroUninit oneBlk) = some .listBroken ∧
    ¬ ∀ (w : Fs) (i : ℕ) (qs : List ℕ) (inode : SlfsInode) (uninit : Uninit), Built w.mem i inode.datablkAddr qs →
      DeleteLaw uninit inode (inode.datablkAddr :: qs) w := by
  have hrun : failure (deleteDatablks (inodeAt oneBlk.mem 0) zeroUninit oneBlk) = some .listBroken := by decide +kernel
  refine ⟨hrun, fun h => ?_⟩
  obtain ⟨qs, hbuilt⟩ := allocDatablk_built (by decide) (by decide) oneBlk_alloc
  have haddr : (inodeAt oneBlk.mem 0).datablkAddr = oneBlk.file.datablkAddr := by decide +kernel
  obtain ⟨w', hok, -⟩ := h oneBlk 0 qs (inodeAt oneBlk.mem 0) zeroUninit (haddr.symm ▸ hbuilt)
  rw [hok] at hrun
  cases hrun

end Slos.Slfs
