import Slos.SlfsPages

/-!
# Power loss while a page is rewritten

What `slfs_mount` makes of a device on which `rw_page` was cut short: at which device operations of
which page updates the page comes back old or new, the other pages stay and nothing is left that a
later mount would roll back.
-/

namespace Slos.Slfs
open Word ByteMemory Ramdisk

variable {v w : Fs} {m : Mem} {p : ℕ} {uninit : Uninit}

def HasMagic (m : Mem) : Prop := bytes m superblkStart magicString.length = magicString

instance (m : Mem) : Decidable (HasMagic m) := inferInstanceAs (Decidable (_ = _))

/-- The fields of a new superblock. -/
def superblkFields : List UInt8 :=
  wordBytes ramdiskStart ++ wordBytes inodeBitmapStart ++ wordBytes datablkBitmapStart ++
    wordBytes inodeTabStart ++ wordBytes datablkStart ++
    wordBytes (datablkPayloadSize * datablkMaxCnt) ++ wordBytes (datablkPayloadSize * datablkMaxCnt) ++
    wordBytes 0

/-- A device after `slfs_format` and `init_metadata`. -/
def formatted (uninit : Uninit) (m : Mem) : Mem :=
  put (eraseRamdiskChip m) superblkStart
    (bytes (put uninit.superblk 0 (magicString ++ superblkFields)) 0 56)

/-- The superblock is never read; what is in memory already is compared. -/
theorem loadSuperblk_run : loadSuperblk w =
    if bytes w.superblk 0 magicString.length = magicString then .ok () { w with superblk := put w.superblk 52 [1] }
    else .error .metadata w := by
  have hout : readRamdisk w.mem ramdiskStart 56 = none := if_pos (by decide)
  rw [loadSuperblk, hout]

theorem loadSuperblk_mem : (stateAfter (loadSuperblk w)).mem = w.mem := by
  rw [loadSuperblk_run]
  split <;> rfl

theorem initMetadata_run : initMetadata uninit w = .error .io (w.store (put w.mem superblkStart
    (bytes (put uninit.superblk 0 (magicString ++ superblkFields)) 0 56))) := by
  have hwrite : writeRamdisk w.mem superblkStart (bytes (put uninit.superblk 0 (magicString ++ superblkFields)) 0 56) =
      some _ := writeRamdisk_of_le (by rw [bytes_length]; decide)
  rw [superblkFields] at hwrite ⊢
  simp only [initMetadata, hwrite]

/-- A mount once the recovery is done: `init_metadata` fails when its write works. -/
theorem slfsMount_run {u : Fs} (hrec : recoverAny v = .ok () u) : slfsMount uninit v =
    if HasMagic u.mem then loadSuperblk u
    else .error .io ((u.store (eraseRamdiskChip u.mem)).store (formatted uninit u.mem)) := by
  have hread : bytes (ofBytes (bytes u.mem superblkStart magicString.length)) 0 magicString.length =
      bytes u.mem superblkStart magicString.length := bytes_ofBytes bytes_length
  rw [slfsMount, bind_ok hrec, bind_ok (readOrErr_of_le (by decide)), hread]
  by_cases hmagic : HasMagic u.mem
  · have hsame : bytes u.mem superblkStart magicString.length = magicString := hmagic
    rw [if_pos hmagic, if_neg (not_not_intro hsame)]
  · have hformat : slfsFormat u = .ok () (u.store (eraseRamdiskChip u.mem)) := rfl
    have hdiff : bytes u.mem superblkStart magicString.length ≠ magicString := hmagic
    rw [if_neg hmagic, if_pos hdiff, bind_ok hformat, bind_error initMetadata_run]
    rfl

/-- What a mount does to the device once the recovery is done. -/
theorem slfsMount_mem {u : Fs} (hrec : recoverAny v = .ok () u) : (stateAfter (slfsMount uninit v)).mem =
    if HasMagic u.mem then u.mem else formatted uninit u.mem := by
  rw [slfsMount_run hrec]
  split
  · exact loadSuperblk_mem
  · rfl

/-- The device is mounted as it is: it has the magic string and no page is to be recovered. -/
structure Quiet (m : Mem) : Prop where
  magic : HasMagic m
  swapTail : word m swapPageTailStart ≠ metadataPageIdx
  noGarbage : word m garbagePageTabStart = minusOne

theorem lastGarbagePage_eq (page : Mem) : lastGarbagePage page (List.range garbagePageTabMaxCnt) 0 =
    if word page garbagePageTabStart = minusOne then 0 else word page garbagePageTabStart := by
  change (if word page garbagePageTabStart = minusOne then 0 else
    lastGarbagePage page [] (word page garbagePageTabStart)) = _
  rw [lastGarbagePage]

theorem readTail_run : readWord swapPageTailStart w = .ok (word w.mem swapPageTailStart) w :=
  readWord_of_le (by decide)

theorem recoverAny_of_tail (htail : word v.mem swapPageTailStart ≠ metadataPageIdx) :
    recoverAny v = (if word v.mem garbagePageTabStart = minusOne ∨ word v.mem garbagePageTabStart = 0
      then pure () else recoverPage (word v.mem garbagePageTabStart))
      { v with page := loadedPage v metadataPageIdx } := by
  have hword : word (loadedPage v metadataPageIdx) garbagePageTabStart = word v.mem garbagePageTabStart :=
    word_loadedPage v (by decide)
  rw [recoverAny, bind_ok readTail_run, if_neg htail, bind_ok loadMetadata_run, getPage_bind,
    lastGarbagePage_eq, hword]
  by_cases hnone : word v.mem garbagePageTabStart = minusOne
  · rw [if_pos hnone, if_pos (Or.inl hnone)]
    rfl
  · rw [if_neg hnone]
    by_cases hzero : word v.mem garbagePageTabStart = 0
    · rw [if_neg (not_not_intro hzero), if_pos (Or.inr hzero)]
    · rw [if_pos hzero, if_neg (not_or.mpr ⟨hnone, hzero⟩)]

theorem slfsMount_quiet (h : Quiet v.mem) : (stateAfter (slfsMount uninit v)).mem = v.mem := by
  have hrec : recoverAny v = .ok () { v with page := loadedPage v metadataPageIdx } := by
    rw [recoverAny_of_tail h.swapTail, if_pos (Or.inl h.noGarbage), pure_run]
  rw [slfsMount_mem hrec]
  exact if_pos h.magic

theorem recoverAny_metadata (htail : word v.mem swapPageTailStart = metadataPageIdx) :
    ∃ u, recoverAny v = .ok () u ∧ u.mem = copiedBack v.mem metadataPageIdx 8 := by
  have hnum : (metadataPageIdx : ℕ) < ramdiskPageNum := by decide
  have hdst : metadataPageIdx = metadataPageIdx * ramdiskPageSize := rfl
  obtain ⟨u, hcopy, hmem⟩ := copySwap_mem (w := v.store (pageErased v.mem metadataPageIdx)) hnum hdst
  have hsame : ¬ metadataPageIdx ≠ metadataPageIdx := not_not_intro rfl
  rw [recoverAny, bind_ok readTail_run, if_pos htail, recoverPage, erasePage_bind,
    eraseRamdiskPage_eq (by decide), bind_ok hcopy, if_neg hsame]
  rw [store_mem] at hmem
  refine ⟨u, rfl, hmem.trans ?_⟩
  rw [copiedBack, metadataPageIdx, Nat.zero_mul]

/-- The page goes back, the metadata page loses the record and the swap page is erased. `m` is the
device once `erase_page` was given the address of the page. -/
def dataRecovered (m : Mem) (p : ℕ) : Mem := fun x =>
  if swapPageStart ≤ x ∧ x < swapPageStart + 4096 then 0xFF
  else if p * 4096 ≤ x ∧ x < p * 4096 + 4096 then m (swapPageStart + (x - p * 4096))
  else if 4092 ≤ x ∧ x < 4096 then 0
  else if garbagePageTabStart ≤ x ∧ x < garbagePageTabStart + 4 then 0xFF
  else m x

theorem copied_apply (x : ℕ) : copied m (p * ramdiskPageSize) swapPageStart 8 x =
    if p * 4096 ≤ x ∧ x < p * 4096 + 4096 then m (swapPageStart + (x - p * 4096)) else m x :=
  put_bytes x

theorem recoverPage_data (hp : p < ramdiskPageNum) (h0 : p ≠ 0) :
    ∃ u, recoverPage (p * ramdiskPageSize) v = .ok () u ∧
      u.mem = dataRecovered (eraseRamdiskPage v.mem (p * ramdiskPageSize)) p := by
  have hp' : p < 1024 := hp
  have hne : p * ramdiskPageSize ≠ metadataPageIdx := Nat.mul_ne_zero h0 (by decide)
  obtain ⟨w₁, hcopy₁, hw₁⟩ := copySwap_mem
    (w := v.store (eraseRamdiskPage v.mem (p * ramdiskPageSize))) hp rfl
  rw [store_mem] at hw₁
  obtain ⟨u, hstore, hmem⟩ := clearRecord_run (w := w₁)
  rw [recoverPage, erasePage_bind, bind_ok hcopy₁, if_pos hne]
  refine ⟨u, hstore, hmem.trans ?_⟩
  funext x
  have hstart : swapPageStart = 4190208 := rfl
  have htab : garbagePageTabStart = 1984 := rfl
  rw [metadataStored_apply, clearedPage_apply, dataRecovered, hw₁, copied_apply, hstart, htab]
  by_cases hx : x < 4096
  · rw [loadedPage_apply hx, hw₁, copied_apply, hstart]
    split_ifs <;> first | omega | rfl
  · split_ifs <;> first | omega | rfl

theorem recoverAny_data (hp : p < ramdiskPageNum) (h0 : p ≠ 0)
    (htail : word v.mem swapPageTailStart ≠ metadataPageIdx)
    (htab : word v.mem garbagePageTabStart = p * ramdiskPageSize) : ∃ u, recoverAny v = .ok () u ∧
      u.mem = dataRecovered (eraseRamdiskPage v.mem (p * ramdiskPageSize)) p := by
  have hp' : p < 1024 := hp
  have hsome : ¬ (p * ramdiskPageSize = minusOne ∨ p * ramdiskPageSize = 0) := by
    simp only [ramdiskPageSize, minusOne]
    omega
  rw [recoverAny_of_tail htail, htab, if_neg hsome]
  exact recoverPage_data hp h0

/-- The address of most pages, taken for a page number, leads out of the device. -/
theorem eraseRamdiskPage_out {x : ℕ} (hout : p % 256 ≠ 0)
    (hx : x < ramdiskSize) : eraseRamdiskPage m (p * ramdiskPageSize) x = m x := by
  have hx' : x < 0x400000 := hx
  have haddr : u32 (p * 4096 * 4096) = p % 256 * 0x1000000 := by
    unfold u32 size
    omega
  refine if_neg fun h => ?_
  have hlt : usub x (u32 (p * 4096 * 4096)) < 4096 := h.2
  rw [haddr, usub_of_lt (by unfold size; omega) (by omega)] at hlt
  unfold size at hlt
  omega

theorem eraseRamdiskPage_in (hin : p % 256 = 0) :
    eraseRamdiskPage m (p * ramdiskPageSize) = pageErased m metadataPageIdx := by
  have haddr : u32 (p * ramdiskPageSize * ramdiskPageSize) = u32 (metadataPageIdx * ramdiskPageSize) := by
    change p * 4096 * 4096 % 4294967296 = 0
    omega
  rw [← eraseRamdiskPage_eq (by decide)]
  funext x
  simp only [eraseRamdiskPage, haddr]

def ErasedAt (m : Mem) (a : ℕ) : Prop := ∀ i < 4096, m (a + i) = 0xFF

theorem ErasedAt.word_eq {a i : ℕ} (h : ErasedAt m a) (hi : i + 4 ≤ 4096) :
    word m (a + i) = minusOne := by
  refine word_eq_max.mpr fun j hj => ?_
  rw [Nat.add_assoc]
  exact h (i + j) (by omega)

/-- A device on which no page update is under way. -/
structure Settled (m : Mem) : Prop where
  magic : HasMagic m
  swapErased : ErasedAt m swapPageStart
  noGarbage : word m garbagePageTabStart = minusOne

theorem swapTail_eq : swapPageTailStart = swapPageStart + 4092 := rfl

theorem Settled.quiet (h : Settled m) : Quiet m := by
  refine ⟨h.magic, ?_, h.noGarbage⟩
  rw [swapTail_eq, h.swapErased.word_eq le_rfl]
  decide

/-- Whatever is written to the inode table later on, a mount leaves the device as it finds it. -/
def RollsNothingBack (m : Mem) : Prop :=
  ∀ v : Fs, (∀ x, x < inodeTabStart ∨ garbagePageTabStart ≤ x → v.mem x = m x) →
    ∀ uninit, (stateAfter (slfsMount uninit v)).mem = v.mem

/-- The page is entirely the old or the new one, the other data pages are as before and no recovery is
pending. -/
structure Restored (p : ℕ) (old img m : Mem) : Prop where
  page : (∀ i < if p = metadataPageIdx then 4092 else 4096, m (p * 4096 + i) = old (p * 4096 + i)) ∨
    ∀ i < if p = metadataPageIdx then 4092 else 4096, m (p * 4096 + i) = img i
  others : ∀ q, 0 < q → q < swapPageIdx → q ≠ p → ∀ i < 4096, m (q * 4096 + i) = old (q * 4096 + i)
  rolls : RollsNothingBack m

theorem HasMagic.congr {m' : Mem} (h : HasMagic m) (heq : ∀ x < 16, m' x = m x) : HasMagic m' := by
  rw [HasMagic, ← h]
  exact bytes_congr fun x _ hx => heq x hx

theorem Quiet.congr {m' : Mem} (h : Quiet m)
    (heq : ∀ x, x < inodeTabStart ∨ garbagePageTabStart ≤ x → m' x = m x) : Quiet m' := by
  refine ⟨h.magic.congr fun x hx => heq x (Or.inl (hx.trans (by decide))), ?_, ?_⟩
  · rw [word_congr fun x hx _ => heq x (Or.inr (le_trans (by decide) hx))]
    exact h.swapTail
  · rw [word_congr fun x hx _ => heq x (Or.inr hx)]
    exact h.noGarbage

theorem Quiet.rollsNothingBack (h : Quiet m) : RollsNothingBack m := fun _ heq _ =>
  slfsMount_quiet (h.congr heq)

/-- The swap page holds a metadata page. -/
def SwapMagic (m : Mem) : Prop := bytes m swapPageStart magicString.length = magicString

theorem copiedBack_metadata_apply {x : ℕ} (hx : x < 4096) :
    copiedBack m metadataPageIdx 8 x = m (swapPageStart + x) := by
  rw [copiedBack_apply (by decide) le_rfl, metadataPageIdx, Nat.zero_mul, Nat.zero_add,
    if_pos ⟨Nat.zero_le x, hx⟩, if_pos hx, Nat.sub_zero]

theorem copiedBack_metadata_of_ge {x : ℕ} (hx : 4096 ≤ x) : copiedBack m metadataPageIdx 8 x = m x := by
  rw [copiedBack_apply (by decide) le_rfl, metadataPageIdx, Nat.zero_mul, Nat.zero_add, if_neg]
  exact fun h => absurd h.2 (Nat.not_lt.mpr hx)

theorem hasMagic_copiedBack : HasMagic (copiedBack m metadataPageIdx 8) ↔ SwapMagic m := by
  have hshift : bytes (copiedBack m metadataPageIdx 8) superblkStart magicString.length =
      bytes m swapPageStart magicString.length := by
    refine bytes_shift fun i hi => ?_
    have hi' : i < 16 := hi
    rw [superblkStart, Nat.zero_add]
    exact copiedBack_metadata_apply (by omega)
  rw [HasMagic, hshift, SwapMagic]

theorem slfsMount_swapMagic (htail : word v.mem swapPageTailStart = metadataPageIdx)
    (hmagic : SwapMagic v.mem) :
    (stateAfter (slfsMount uninit v)).mem = copiedBack v.mem metadataPageIdx 8 := by
  obtain ⟨u, hrec, hmem⟩ := recoverAny_metadata htail
  rw [slfsMount_mem hrec, hmem, if_pos (hasMagic_copiedBack.mpr hmagic)]

theorem slfsMount_no_swapMagic (htail : word v.mem swapPageTailStart = metadataPageIdx)
    (hmagic : ¬ SwapMagic v.mem) : ∃ m, (stateAfter (slfsMount uninit v)).mem = formatted uninit m := by
  obtain ⟨u, hrec, hmem⟩ := recoverAny_metadata htail
  rw [slfsMount_mem hrec, hmem, if_neg (mt hasMagic_copiedBack.mp hmagic)]
  exact ⟨_, rfl⟩

/-- With the mark of the metadata page left in the swap page a later change of an inode is lost. -/
theorem not_rollsNothingBack (hmagic : SwapMagic m)
    (htail : word m swapPageTailStart = metadataPageIdx) : ¬ RollsNothingBack m := by
  intro h
  obtain ⟨b, hb⟩ : ∃ b : UInt8, b ≠ m (swapPageStart + inodeTabStart) := by
    by_cases h0 : m (swapPageStart + inodeTabStart) = 0
    · exact ⟨1, by rw [h0]; decide⟩
    · exact ⟨0, fun he => h0 he.symm⟩
  obtain ⟨m', hm'⟩ : ∃ m', m' = put m inodeTabStart [b] := ⟨_, rfl⟩
  have hoff (x : ℕ) (hx : x ≠ inodeTabStart) : m' x = m x := by
    rw [hm']
    refine put_of_notMem ?_
    rw [List.length_singleton]
    omega
  have hgt {x : ℕ} (hx : swapPageStart ≤ x) : x ≠ inodeTabStart :=
    Nat.ne_of_gt (lt_of_lt_of_le (by decide) hx)
  have htail' : word m' swapPageTailStart = metadataPageIdx :=
    (word_congr fun x hx _ => hoff x (hgt (le_trans (by decide) hx))).trans htail
  have hmagic' : SwapMagic m' := (bytes_congr fun x hx _ => hoff x (hgt hx)).trans hmagic
  have hkeep := h { erasedFs with mem := m' }
    (fun x hx => hoff x (by rintro rfl; exact absurd hx (by decide))) zeroUninit
  rw [slfsMount_swapMagic htail' hmagic'] at hkeep
  have hbyte : copiedBack m' metadataPageIdx 8 inodeTabStart = m' inodeTabStart :=
    congrFun hkeep inodeTabStart
  have hput : m' (inodeTabStart + 0) = b := by
    rw [hm', put_add]
    rfl
  rw [copiedBack_metadata_apply (by decide), hoff _ (by decide)] at hbyte
  exact hb (hput.symm.trans hbyte.symm)

theorem formatted_of_ge {x : ℕ} (hlo : 56 ≤ x) (hhi : x < ramdiskSize) :
    formatted uninit m x = 0xFF := by
  rw [formatted, put_of_ge, eraseRamdiskChip, if_pos hhi]
  rwa [superblkStart, bytes_length, Nat.zero_add]

theorem quiet_formatted : Quiet (formatted uninit m) := by
  have hword {a : ℕ} (hlo : 56 ≤ a) (hhi : a + 4 ≤ ramdiskSize) : word (formatted uninit m) a = minusOne :=
    word_eq_max.mpr fun i hi => formatted_of_ge (hlo.trans (Nat.le_add_right a i))
      ((Nat.add_lt_add_left hi a).trans_le hhi)
  refine ⟨?_, ?_, hword (by decide) (by decide)⟩
  · have hall : bytes (formatted uninit m) superblkStart 56 =
        bytes (put uninit.superblk 0 (magicString ++ superblkFields)) 0 56 := by
      have hput : bytes (put (eraseRamdiskChip m) superblkStart
          (bytes (put uninit.superblk 0 (magicString ++ superblkFields)) 0 56)) superblkStart
          (bytes (put uninit.superblk 0 (magicString ++ superblkFields)) 0 56).length = _ := bytes_put_self
      rwa [bytes_length] at hput
    have htake := congrArg (List.take 16) hall
    rw [take_bytes (by decide), take_bytes (by decide)] at htake
    have hput : bytes (put uninit.superblk 0 (magicString ++ superblkFields)) 0
        (magicString ++ superblkFields).length = _ := bytes_put_self
    have hhead := congrArg (List.take 16) hput
    have hmagic : (magicString ++ superblkFields).take 16 = magicString := List.take_left' rfl
    rw [take_bytes (by decide), hmagic] at hhead
    exact htake.trans hhead
  · rw [hword (by decide) (by decide)]
    decide

/-- Nothing is on the device but, if anything, page `p`, and that was erased or is rewritten with all
ones. -/
def Blank (m img : Mem) (p : ℕ) : Prop :=
  (∀ q, 0 < q → q < swapPageIdx → q ≠ p → ErasedAt m (q * 4096)) ∧
    (ErasedAt m (p * 4096) ∨ ErasedAt img 0)

theorem restored_formatted_iff {old img : Mem} (hp : p < ramdiskPageNum) (h0 : p ≠ metadataPageIdx) :
    Restored p old img (formatted uninit m) ↔ Blank old img p := by
  have hp' : p < 1024 := hp
  have h0' : 0 < p := Nat.pos_of_ne_zero h0
  have herased {q : ℕ} (hq : 0 < q) (hq' : q < 1024) {i : ℕ} (hi : i < 4096) :
      formatted uninit m (q * 4096 + i) = 0xFF :=
    formatted_of_ge (by omega) (by simp only [ramdiskSize]; omega)
  constructor
  · intro h
    refine ⟨fun q hq hq' hne i hi => ?_, ?_⟩
    · rw [← h.others q hq hq' hne i hi]
      exact herased hq (hq'.trans (by decide)) hi
    · have hpage := h.page
      rw [if_neg h0] at hpage
      refine hpage.imp (fun hold i hi => ?_) fun hnew i hi => ?_
      · rw [← hold i hi]
        exact herased h0' hp' hi
      · rw [Nat.zero_add, ← hnew i hi]
        exact herased h0' hp' hi
  · rintro ⟨hothers, hpage⟩
    refine ⟨?_, fun q hq hq' hne i hi => ?_, quiet_formatted.rollsNothingBack⟩
    · rw [if_neg h0]
      refine hpage.imp (fun hold i hi => ?_) fun hnew i hi => ?_
      · rw [hold i hi]
        exact herased h0' hp' hi
      · have hi' := hnew i hi
        rw [Nat.zero_add] at hi'
        rw [hi']
        exact herased h0' hp' hi
    · rw [hothers q hq hq' hne i hi]
      exact herased hq (hq'.trans (by decide)) hi

theorem swapTail_eq_of_held {img : Mem} (hswap : ∀ i < 4096, m (swapPageStart + i) = img i) :
    word m swapPageTailStart = word img 4092 := by
  refine word_shift fun i hi => ?_
  rw [swapTail_eq, Nat.add_assoc]
  exact hswap (4092 + i) (by omega)

theorem swapMagic_of_held {img : Mem} (hswap : ∀ i < 4096, m (swapPageStart + i) = img i) :
    SwapMagic m ↔ HasMagic img := by
  have hshift : bytes m swapPageStart magicString.length = bytes img superblkStart magicString.length := by
    refine bytes_shift fun i hi => ?_
    have hi' : i < 16 := hi
    rw [superblkStart, Nat.zero_add]
    exact hswap i (by omega)
  rw [SwapMagic, hshift, HasMagic]

/-- A mount that finds the mark of the metadata page leaves it in the swap page. -/
theorem not_restored_of_mark {old img : Mem} (htail : word v.mem swapPageTailStart = metadataPageIdx)
    (hmagic : SwapMagic v.mem) : ¬ Restored p old img (stateAfter (slfsMount uninit v)).mem := by
  intro h
  have hrolls := h.rolls
  rw [slfsMount_swapMagic htail hmagic] at hrolls
  have hswap : ∀ x, swapPageStart ≤ x → copiedBack v.mem metadataPageIdx 8 x = v.mem x := fun x hx =>
    copiedBack_metadata_of_ge (le_trans (by decide) hx)
  refine not_rollsNothingBack ?_ ?_ hrolls
  · exact (bytes_congr fun x hx _ => hswap x hx).trans hmagic
  · exact (word_congr fun x hx _ => hswap x (le_trans (by decide) hx)).trans htail

/-- The swap page holds an image whose last word is that of the metadata page. -/
theorem restored_tail_zero_iff {old img : Mem} (hp : p < ramdiskPageNum) (h0 : p ≠ metadataPageIdx)
    (hswap : ∀ i < 4096, v.mem (swapPageStart + i) = img i) (htail : word img 4092 = metadataPageIdx) :
    Restored p old img (stateAfter (slfsMount uninit v)).mem ↔ ¬ HasMagic img ∧ Blank old img p := by
  have htail' := (swapTail_eq_of_held hswap).trans htail
  by_cases hmagic : HasMagic img
  · exact iff_of_false (not_restored_of_mark htail' ((swapMagic_of_held hswap).mpr hmagic))
      fun h => h.1 hmagic
  · obtain ⟨m, hmem⟩ := slfsMount_no_swapMagic htail'
      (mt (swapMagic_of_held hswap).mp hmagic)
    rw [hmem, restored_formatted_iff hp h0]
    exact (and_iff_right hmagic).symm

/-- The device while a data page that is recorded is rewritten; `held` says whether the swap page holds
the image. -/
structure CutData (p : ℕ) (old img : Mem) (held : Prop) (m : Mem) : Prop where
  magic : HasMagic m
  recorded : word m garbagePageTabStart = p * ramdiskPageSize
  image : held → ∀ i < 4096, m (swapPageStart + i) = img i
  gone : ¬ held → ErasedAt m swapPageStart
  others : ∀ q, 0 < q → q < swapPageIdx → q ≠ p → ∀ i < 4096, m (q * 4096 + i) = old (q * 4096 + i)

theorem dataRecovered_of_other {x : ℕ} (hlo : 4096 ≤ x)
    (hswap : ¬ (swapPageStart ≤ x ∧ x < swapPageStart + 4096))
    (hpage : ¬ (p * 4096 ≤ x ∧ x < p * 4096 + 4096)) : dataRecovered m p x = m x := by
  have htab : garbagePageTabStart = 1984 := rfl
  rw [dataRecovered, if_neg hswap, if_neg hpage, if_neg (by omega), if_neg (by rw [htab]; omega)]

theorem dataRecovered_of_lt {x : ℕ} (h0 : 0 < p) (hx : x < garbagePageTabStart) :
    dataRecovered m p x = m x := by
  have hx' : x < 1984 := hx
  have hstart : swapPageStart = 4190208 := rfl
  have htab : garbagePageTabStart = 1984 := rfl
  rw [dataRecovered, hstart, htab, if_neg (by omega), if_neg (by omega), if_neg (by omega),
    if_neg (by omega)]

theorem dataRecovered_quiet (h0 : 0 < p) (hmagic : HasMagic m) : Quiet (dataRecovered m p) := by
  have htab : garbagePageTabStart = 1984 := rfl
  have hstart : swapPageStart = 4190208 := rfl
  have hswap {i : ℕ} (hi : i < 4096) : dataRecovered m p (swapPageStart + i) = 0xFF :=
    if_pos ⟨Nat.le_add_right _ i, Nat.add_lt_add_left hi _⟩
  refine ⟨hmagic.congr fun x hx => dataRecovered_of_lt h0 (hx.trans (by decide)), ?_,
    word_eq_max.mpr fun i hi => ?_⟩
  · have htail : word (dataRecovered m p) swapPageTailStart = minusOne := by
      refine word_eq_max.mpr fun i hi => ?_
      rw [swapTail_eq, Nat.add_assoc]
      exact hswap (by omega)
    rw [htail]
    decide
  · rw [dataRecovered, htab, hstart, if_neg (by omega), if_neg (by omega), if_neg (by omega),
      if_pos (by omega)]

theorem dataRecovered_page {i : ℕ} (hp : p < swapPageIdx) (hi : i < 4096) :
    dataRecovered m p (p * 4096 + i) = m (swapPageStart + i) := by
  have hp' : p < 1023 := hp
  have hstart : swapPageStart = 4190208 := rfl
  rw [dataRecovered, if_neg (by rw [hstart]; omega), if_pos (by omega), Nat.add_sub_cancel_left]

/-- Pages 256, 512 and 768: the recovery erases the metadata page. -/
theorem not_hasMagic_recovered (h0 : 0 < p) (hin : p % 256 = 0) :
    ¬ HasMagic (dataRecovered (eraseRamdiskPage m (p * ramdiskPageSize)) p) := by
  intro h
  have hfirst : dataRecovered (eraseRamdiskPage m (p * ramdiskPageSize)) p (superblkStart + 0) = 0xFF := by
    rw [eraseRamdiskPage_in hin, superblkStart, dataRecovered_of_lt h0 (by decide), pageErased_apply]
    exact if_pos (by decide)
  have hbyte : (bytes (dataRecovered (eraseRamdiskPage m (p * ramdiskPageSize)) p) superblkStart
      magicString.length)[0]? = some _ := getElem?_bytes (by decide)
  rw [h, hfirst] at hbyte
  exact absurd hbyte (by decide)

theorem CutData.restored_iff_blank {old img : Mem} {held : Prop} (hc : CutData p old img held v.mem)
    (hp : p < ramdiskPageNum) (h0 : p ≠ metadataPageIdx) (hin : p % 256 = 0)
    (htail : word v.mem swapPageTailStart ≠ metadataPageIdx) :
    Restored p old img (stateAfter (slfsMount uninit v)).mem ↔ Blank old img p := by
  obtain ⟨u, hrec, hmem⟩ := recoverAny_data hp h0 htail hc.recorded
  have hmagic := not_hasMagic_recovered (m := v.mem) (Nat.pos_of_ne_zero h0) hin
  rw [slfsMount_mem hrec, hmem, if_neg hmagic, restored_formatted_iff hp h0]

theorem CutData.restored_iff {old img : Mem} {held : Prop} (hc : CutData p old img held v.mem)
    (hp : p < ramdiskPageNum) (h0 : p ≠ metadataPageIdx) (hout : p % 256 ≠ 0)
    (hold : p = swapPageIdx → ErasedAt old (p * 4096))
    (htail : word v.mem swapPageTailStart ≠ metadataPageIdx) :
    Restored p old img (stateAfter (slfsMount uninit v)).mem ↔
      held ∨ ErasedAt old (p * 4096) ∨ ErasedAt img 0 := by
  obtain ⟨u, hrec, hmem⟩ := recoverAny_data hp h0 htail hc.recorded
  have hp' : p < 1024 := hp
  have h0' : 0 < p := Nat.pos_of_ne_zero h0
  have hstart : swapPageStart = 4190208 := rfl
  have hout' {x : ℕ} (hx : x < ramdiskSize) :
      eraseRamdiskPage v.mem (p * ramdiskPageSize) x = v.mem x := eraseRamdiskPage_out hout hx
  have hmagic : HasMagic (eraseRamdiskPage v.mem (p * ramdiskPageSize)) :=
    hc.magic.congr fun x hx => hout' (hx.trans (by decide))
  have hquiet : Quiet u.mem := hmem ▸ dataRecovered_quiet h0' hmagic
  have hothers : ∀ q, 0 < q → q < swapPageIdx → q ≠ p → ∀ i < 4096,
      u.mem (q * 4096 + i) = old (q * 4096 + i) := by
    intro q hq hq' hne i hi
    have hq'' : q < 1023 := hq'
    rw [hmem, dataRecovered_of_other (by omega) (by rw [hstart]; omega) (by omega),
      hout' (by simp only [ramdiskSize]; omega)]
    exact hc.others q hq hq' hne i hi
  rw [slfsMount_mem hrec, if_pos hquiet.magic]
  by_cases hswap : p = swapPageIdx
  · have herased := hold hswap
    refine iff_of_true ⟨Or.inl ?_, hothers, hquiet.rollsNothingBack⟩ (Or.inr (Or.inl herased))
    rw [if_neg h0]
    intro i hi
    rw [herased i hi, hmem, hswap]
    exact if_pos ⟨Nat.le_add_right _ i, Nat.add_lt_add_left hi _⟩
  · have hlt : p < 1023 := by
      have hne : p ≠ 1023 := hswap
      omega
    have hpage : ∀ i < 4096, u.mem (p * 4096 + i) = v.mem (swapPageStart + i) := by
      intro i hi
      rw [hmem, dataRecovered_page hlt hi]
      exact hout' (by rw [hstart]; simp only [ramdiskSize]; omega)
    by_cases hheld : held
    · refine iff_of_true ⟨Or.inr ?_, hothers, hquiet.rollsNothingBack⟩ (Or.inl hheld)
      rw [if_neg h0]
      exact fun i hi => (hpage i hi).trans (hc.image hheld i hi)
    · have hff : ∀ i < 4096, u.mem (p * 4096 + i) = 0xFF := fun i hi =>
        (hpage i hi).trans (hc.gone hheld i hi)
      rw [or_iff_right hheld]
      constructor
      · intro h
        have hres := h.page
        rw [if_neg h0] at hres
        refine hres.imp (fun h i hi => (h i hi).symm.trans (hff i hi)) fun h i hi => ?_
        rw [Nat.zero_add]
        exact (h i hi).symm.trans (hff i hi)
      · intro h
        refine ⟨?_, hothers, hquiet.rollsNothingBack⟩
        rw [if_neg h0]
        refine h.imp (fun h i hi => (hff i hi).trans (h i hi).symm) fun h i hi => ?_
        have hi' := h i hi
        rw [Nat.zero_add] at hi'
        exact (hff i hi).trans hi'.symm

theorem restored_of_quiet {old img : Mem} (hquiet : Quiet v.mem)
    (hpage : (∀ i < if p = metadataPageIdx then 4092 else 4096, v.mem (p * 4096 + i) = old (p * 4096 + i)) ∨
      ∀ i < if p = metadataPageIdx then 4092 else 4096, v.mem (p * 4096 + i) = img i)
    (hothers : ∀ q, 0 < q → q < swapPageIdx → q ≠ p → ∀ i < 4096,
      v.mem (q * 4096 + i) = old (q * 4096 + i)) :
    Restored p old img (stateAfter (slfsMount uninit v)).mem := by
  rw [slfsMount_quiet hquiet]
  exact ⟨hpage, hothers, hquiet.rollsNothingBack⟩

theorem CutData.update {old img m' : Mem} {held held' : Prop} (hc : CutData p old img held m)
    (h0 : 0 < p) (heq : ∀ x, x < swapPageStart → ¬ (p * 4096 ≤ x ∧ x < p * 4096 + 4096) → m' x = m x)
    (hheld : held' → ∀ i < 4096, m' (swapPageStart + i) = img i)
    (herased : ¬ held' → ErasedAt m' swapPageStart) : CutData p old img held' m' := by
  have hstart : swapPageStart = 4190208 := rfl
  have htab : garbagePageTabStart = 1984 := rfl
  refine ⟨hc.magic.congr fun x hx => heq x (by rw [hstart]; omega) (by omega), ?_, hheld, herased,
    fun q hq hq' hne i hi => ?_⟩
  · rw [← hc.recorded]
    exact word_congr fun x _ hx => heq x (by rw [hstart]; omega) (by omega)
  · have hq'' : q < 1023 := hq'
    rw [← hc.others q hq hq' hne i hi]
    exact heq _ (by rw [hstart]; omega) (by omega)

/-- The image is in the swap page and the page is recorded. -/
theorem cutData_recorded {old img : Mem} (hold : Settled old) (hp : p < ramdiskPageNum) (h0 : 0 < p) :
    CutData p old img True (pageRecorded (swapWritten old img) p) := by
  have hp' : p < 1024 := hp
  have hstart : swapPageStart = 4190208 := rfl
  have htab : garbagePageTabStart = 1984 := rfl
  have hoff {x : ℕ} (hx : x < 1984 ∨ 1988 ≤ x) :
      pageRecorded (swapWritten old img) p x = swapWritten old img x := by
    refine put_of_notMem ?_
    rwa [htab, wordBytes_length]
  refine ⟨hold.magic.congr fun x hx => ?_, word_put_wordBytes ?_, fun _ i hi => ?_,
    fun h => absurd trivial h, fun q hq hq' _ i hi => ?_⟩
  · rw [hoff (by omega), swapWritten_of_lt (by rw [hstart]; omega)]
  · simp only [ramdiskPageSize]
    unfold size
    omega
  · rw [hoff (by rw [hstart]; omega), swapWritten_apply, if_pos ⟨Nat.le_add_right _ i, Nat.add_lt_add_left hi _⟩,
      Nat.add_sub_cancel_left]
  · have hq'' : q < 1023 := hq'
    rw [hoff (by omega), swapWritten_of_lt (by rw [hstart]; omega)]

theorem swapErased_of_lt {x : ℕ} (hx : x < swapPageStart) : swapErased m x = m x := put_of_lt hx

theorem erasedAt_swapErased : ErasedAt (swapErased m) swapPageStart := fun i hi => by
  rw [swapErased_apply]
  exact if_pos ⟨Nat.le_add_right _ i, Nat.add_lt_add_left hi _⟩

theorem CutData.copiedBack {old img : Mem} {j : ℕ} (hc : CutData p old img True m) (h0 : 0 < p)
    (hp : p < swapPageIdx) (hj : j ≤ 8) : CutData p old img True (copiedBack m p j) := by
  have hp' : p < 1023 := hp
  have hstart : swapPageStart = 4190208 := rfl
  refine hc.update h0 (fun x _ hx => ?_) (fun _ i hi => ?_) fun h => absurd trivial h
  · rw [copiedBack_apply hp hj, if_neg hx]
  · rw [copiedBack_apply hp hj, if_neg (by rw [hstart]; omega)]
    exact hc.image trivial i hi

theorem CutData.swapErased {old img : Mem} {held : Prop} (hc : CutData p old img held m) (h0 : 0 < p) :
    CutData p old img False (swapErased m) :=
  hc.update h0 (fun _ hx _ => swapErased_of_lt hx) False.elim fun _ => erasedAt_swapErased

/-- The number of device operations after which the swap page no longer holds the image. -/
def heldUntil (p : ℕ) : ℕ := if p = swapPageIdx then 3 else 12

/-- When the power may be lost while data page `p` is rewritten: `k` is the number of device operations
done. -/
def Survivable (old img : Mem) (p k : ℕ) : Prop :=
  if k ≤ 1 then True
  else if k ≤ heldUntil p ∧ word img 4092 = metadataPageIdx then ¬ HasMagic img ∧ Blank old img p
  else if k = 2 then True
  else if p % 256 = 0 then Blank old img p
  else k ≤ heldUntil p ∨ ErasedAt old (p * 4096) ∨ ErasedAt img 0

theorem survivable_start {old img : Mem} {k : ℕ} (hk : k ≤ 1) : Survivable old img p k := by
  rw [Survivable, if_pos hk]
  trivial

theorem survivable_iff_of_mark {old img : Mem} {k : ℕ} (hk : 1 < k) (hheld : k ≤ heldUntil p)
    (htail : word img 4092 = metadataPageIdx) :
    Survivable old img p k ↔ ¬ HasMagic img ∧ Blank old img p := by
  rw [Survivable, if_neg (Nat.not_le.mpr hk), if_pos ⟨hheld, htail⟩]

theorem survivable_iff_of_no_mark {old img : Mem} {k : ℕ} (hk : 2 < k)
    (hmark : ¬ (k ≤ heldUntil p ∧ word img 4092 = metadataPageIdx)) :
    Survivable old img p k ↔ if p % 256 = 0 then Blank old img p
      else k ≤ heldUntil p ∨ ErasedAt old (p * 4096) ∨ ErasedAt img 0 := by
  rw [Survivable, if_neg (by omega), if_neg hmark, if_neg (by omega)]

/-- From the record on. -/
theorem CutData.restored_iff_survivable {old img : Mem} {k : ℕ}
    (hc : CutData p old img (k ≤ heldUntil p) v.mem) (hk : 2 < k) (hp : p < ramdiskPageNum)
    (h0 : p ≠ metadataPageIdx) (hold : p = swapPageIdx → ErasedAt old (p * 4096)) :
    Restored p old img (stateAfter (slfsMount uninit v)).mem ↔ Survivable old img p k := by
  by_cases hmark : k ≤ heldUntil p ∧ word img 4092 = metadataPageIdx
  · rw [survivable_iff_of_mark (by omega) hmark.1 hmark.2]
    exact restored_tail_zero_iff hp h0 (hc.image hmark.1) hmark.2
  · have htail : word v.mem swapPageTailStart ≠ metadataPageIdx := by
      by_cases hheld : k ≤ heldUntil p
      · rw [swapTail_eq_of_held (hc.image hheld)]
        exact fun h => hmark ⟨hheld, h⟩
      · rw [swapTail_eq, (hc.gone hheld).word_eq le_rfl]
        decide
    rw [survivable_iff_of_no_mark hk hmark]
    by_cases hin : p % 256 = 0
    · rw [if_pos hin]
      exact hc.restored_iff_blank hp h0 hin htail
    · rw [if_neg hin]
      exact hc.restored_iff hp h0 hin hold htail

theorem Settled.quiet_of_swap {old : Mem} (hold : Settled old)
    (heq : ∀ x, x < swapPageStart → m x = old x) (htail : word m swapPageTailStart ≠ metadataPageIdx) :
    Quiet m := by
  have hstart : swapPageStart = 4190208 := rfl
  have htab : garbagePageTabStart = 1984 := rfl
  refine ⟨hold.magic.congr fun x hx => heq x (by rw [hstart]; omega), htail, ?_⟩
  rw [← hold.noGarbage]
  exact word_congr fun x _ hx => heq x (by rw [hstart]; omega)

theorem erased_tail_ne (h : ErasedAt m swapPageStart) : word m swapPageTailStart ≠ metadataPageIdx := by
  rw [swapTail_eq, h.word_eq le_rfl]
  decide

theorem dataPage_lt {q i : ℕ} (hq : q < swapPageIdx) (hi : i < 4096) : q * 4096 + i < swapPageStart := by
  have hq' : q < 1023 := hq
  have hstart : swapPageStart = 4190208 := rfl
  omega

/-- The swap page is erased, and nothing else has changed. -/
theorem restored_swapErased {old img : Mem} (hold : Settled old) (hp : p < ramdiskPageNum)
    (hv : v.mem = swapErased old) : Restored p old img (stateAfter (slfsMount uninit v)).mem := by
  have hp' : p < 1024 := hp
  have hoff : ∀ x, x < swapPageStart → v.mem x = old x := fun x hx => hv ▸ swapErased_of_lt hx
  have herased : ErasedAt v.mem swapPageStart := hv ▸ erasedAt_swapErased
  refine restored_of_quiet (hold.quiet_of_swap hoff (erased_tail_ne herased)) (Or.inl fun i hi => ?_)
    fun q _ hq' _ i hi => hoff _ (dataPage_lt hq' hi)
  have hi' : i < 4096 := hi.trans_le (by split <;> decide)
  by_cases hswap : p = swapPageIdx
  · rw [hswap]
    exact (herased i hi').trans (hold.swapErased i hi').symm
  · have hne : p ≠ 1023 := hswap
    exact hoff _ (dataPage_lt (by simp; omega) hi')

/-- The image is in the swap page, and nothing else has changed. -/
theorem restored_swapWritten_iff {old img : Mem} (hold : Settled old) (hp : p < ramdiskPageNum)
    (h0 : p ≠ metadataPageIdx) (hv : v.mem = swapWritten old img) :
    Restored p old img (stateAfter (slfsMount uninit v)).mem ↔ Survivable old img p 2 := by
  have hp' : p < 1024 := hp
  have hheld : 2 ≤ heldUntil p := by
    unfold heldUntil
    split <;> decide
  have himg : ∀ i < 4096, v.mem (swapPageStart + i) = img i := fun i hi => by
    rw [hv, swapWritten_apply, if_pos ⟨Nat.le_add_right _ i, Nat.add_lt_add_left hi _⟩,
      Nat.add_sub_cancel_left]
  by_cases htail : word img 4092 = metadataPageIdx
  · rw [survivable_iff_of_mark (by decide) hheld htail]
    exact restored_tail_zero_iff hp h0 himg htail
  · have hsurvive : Survivable old img p 2 := by
      rw [Survivable, if_neg (by decide), if_neg fun h => htail h.2, if_pos rfl]
      trivial
    have hoff : ∀ x, x < swapPageStart → v.mem x = old x := fun x hx => hv ▸ swapWritten_of_lt hx
    have hquiet := hold.quiet_of_swap hoff (by rwa [swapTail_eq_of_held himg])
    refine iff_of_true (restored_of_quiet hquiet ?_ fun q _ hq' _ i hi => hoff _ (dataPage_lt hq' hi))
      hsurvive
    rw [if_neg h0]
    by_cases hswap : p = swapPageIdx
    · rw [hswap]
      exact Or.inr himg
    · have hne : p ≠ 1023 := hswap
      exact Or.inl fun i hi => hoff _ (dataPage_lt (by simp; omega) hi)

/-- The stages of the copy and the end, four operations after the start. -/
theorem CutData.copies {old img c : Mem} {k : ℕ} (hc : CutData p old img True c) (h0 : 0 < p)
    (hp : p < ramdiskPageNum)
    (hm : (k < 9 ∧ m = Slfs.copiedBack c p k) ∨ (k = 9 ∧ m = Slfs.swapErased (Slfs.copiedBack c p 8))) :
    CutData p old img (k + 1 + 1 + 1 + 1 ≤ heldUntil p) m := by
  have hp' : p < 1024 := hp
  have hweaken {held held' : Prop} (hiff : held ↔ held') (h : CutData p old img held m) :
      CutData p old img held' m :=
    h.update h0 (fun _ _ _ => rfl) (fun h' => h.image (hiff.mpr h')) fun h' => h.gone (mt hiff.mp h')
  by_cases hswap : p = swapPageIdx
  · have huntil : heldUntil p = 3 := if_pos hswap
    have hgone : m = Slfs.swapErased (Slfs.swapErased c) ∨ m = Slfs.swapErased c := by
      rcases hm with ⟨-, hm⟩ | ⟨-, hm⟩
      · exact Or.inr (hm.trans (hswap ▸ copiedBack_swap))
      · exact Or.inl (hm.trans (congrArg Slfs.swapErased (hswap ▸ copiedBack_swap)))
    have hfalse : False ↔ k + 1 + 1 + 1 + 1 ≤ heldUntil p := by
      refine iff_of_false id ?_
      rw [huntil]
      omega
    rcases hgone with rfl | rfl
    · exact hweaken hfalse ((hc.swapErased h0).swapErased h0)
    · exact hweaken hfalse (hc.swapErased h0)
  · have hne : p ≠ 1023 := hswap
    have hlt' : p < 1023 := by omega
    have hlt : p < swapPageIdx := hlt'
    have huntil : heldUntil p = 12 := if_neg hswap
    rcases hm with ⟨hk, rfl⟩ | ⟨rfl, rfl⟩
    · refine hweaken (iff_of_true trivial ?_) (hc.copiedBack h0 hlt (by omega))
      rw [huntil]
      omega
    · refine hweaken (iff_of_false id ?_) ((hc.copiedBack h0 hlt le_rfl).swapErased h0)
      rw [huntil]
      decide

/-- What the callers put into the metadata page: the magic string stays and no page is recorded. -/
structure MetadataImage (img : Mem) : Prop where
  magic : HasMagic img
  noGarbage : word img garbagePageTabStart = minusOne

/-- While the swap page holds the new metadata page. -/
structure Marked (m : Mem) : Prop where
  swapMagic : SwapMagic m
  tail : word m swapPageTailStart = metadataPageIdx

/-- The metadata page is back, its last word aside. -/
structure MetadataStored (old img m : Mem) : Prop where
  page : ∀ x < 4092, m x = img x
  swapErased : ErasedAt m swapPageStart
  others : ∀ x, 4096 ≤ x → x < swapPageStart → m x = old x

theorem metadata_cut {k : ℕ} (hcut : (devices (storePage metadataPageIdx) w)[k]? = some m) :
    (k = 0 ∧ m = w.mem) ∨ (k = 1 ∧ m = swapErased w.mem) ∨
      (2 ≤ k ∧ k < 12 ∧ (HasMagic w.page → Marked m)) ∨ (k = 12 ∧ MetadataStored w.mem w.page m) := by
  obtain ⟨img, himg⟩ : ∃ img, put w.page 4092 (wordBytes 0) = img := ⟨_, rfl⟩
  obtain ⟨c, hc⟩ : ∃ c, swapWritten w.mem img = c := ⟨_, rfl⟩
  have hbody : ∀ x < 4092, img x = w.page x := fun x hx => himg ▸ put_of_lt hx
  have hmark {m : Mem} (hm : ∀ i < 4096, m (swapPageStart + i) = img i) (hmagic : HasMagic w.page) :
      Marked m :=
    ⟨(swapMagic_of_held hm).mpr (hmagic.congr fun x hx => hbody x (by omega)),
      (swapTail_eq_of_held hm).trans (himg ▸ word_put_wordBytes (by decide))⟩
  have hheld : ∀ i < 4096, c (swapPageStart + i) = img i := fun i hi => by
    rw [← hc, swapWritten_apply, if_pos ⟨Nat.le_add_right _ i, Nat.add_lt_add_left hi _⟩,
      Nat.add_sub_cancel_left]
  have hheld' : ∀ j ≤ 8, ∀ i < 4096, copiedBack c metadataPageIdx j (swapPageStart + i) = img i := by
    intro j hj i hi
    rw [copiedBack_apply (by decide) hj, if_neg]
    · exact hheld i hi
    · have hstart : swapPageStart = 4190208 := rfl
      rw [hstart, metadataPageIdx]
      omega
  rw [devices_metadata himg hc] at hcut
  rcases k with _ | _ | _ | k
  · exact Or.inl ⟨rfl, (Option.some.inj hcut).symm⟩
  · exact Or.inr (Or.inl ⟨rfl, (Option.some.inj hcut).symm⟩)
  · have hm : c = m := Option.some.inj hcut
    exact Or.inr (Or.inr (Or.inl ⟨by decide, by decide, hmark (hm ▸ hheld)⟩))
  · rw [List.getElem?_append_right (Nat.le_add_left 3 k)] at hcut
    rcases getElem?_copies hcut with ⟨hk, hm⟩ | ⟨hk, hm⟩
    · have hk' : k < 9 := hk
      exact Or.inr (Or.inr (Or.inl ⟨by omega, by omega,
        hmark (hm ▸ hheld' k (Nat.le_of_lt_succ hk'))⟩))
    · have hk' : k = 9 := hk
      refine Or.inr (Or.inr (Or.inr ⟨by omega, fun x hx => ?_, hm ▸ erasedAt_swapErased, fun x hlo hhi => ?_⟩))
      · rw [hm, swapErased_of_lt (hx.trans (by decide)), copiedBack_metadata_apply (by omega),
          hheld x (by omega), hbody x hx]
      · rw [hm, swapErased_of_lt hhi, copiedBack_metadata_of_ge hlo, ← hc, swapWritten_of_lt hhi]

theorem word_record_congr {m m' : Mem} (h : ∀ x < 4092, m x = m' x) :
    word m garbagePageTabStart = word m' garbagePageTabStart := by
  refine word_congr fun x _ hx => h x ?_
  have hx' : x < 1988 := hx
  omega

theorem MetadataStored.restored {old img : Mem} (h : MetadataStored old img v.mem)
    (himg : MetadataImage img) : Restored metadataPageIdx old img (stateAfter (slfsMount uninit v)).mem := by
  have hquiet : Quiet v.mem := ⟨himg.magic.congr fun x hx => h.page x (by omega),
    erased_tail_ne h.swapErased, (word_record_congr h.page).trans himg.noGarbage⟩
  refine restored_of_quiet hquiet (Or.inr fun i hi => ?_) fun q hq hq' _ i hi => ?_
  · have hi' : i < 4092 := hi
    rw [metadataPageIdx, Nat.zero_mul, Nat.zero_add, h.page i hi']
  · exact h.others _ (by omega) (dataPage_lt hq' hi)

theorem restored_data_iff {k : ℕ} (hold : Settled w.mem) (hp : p < ramdiskPageNum)
    (h0 : p ≠ metadataPageIdx) (hcut : (devices (storePage p) w)[k]? = some v.mem) :
    Restored p w.mem w.page (stateAfter (slfsMount uninit v)).mem ↔ Survivable w.mem w.page p k := by
  have h0' : 0 < p := Nat.pos_of_ne_zero h0
  have hp' : p < 1024 := hp
  obtain ⟨c, hc⟩ : ∃ c, pageRecorded (swapWritten w.mem w.page) p = c := ⟨_, rfl⟩
  have hrec : CutData p w.mem w.page True c := hc ▸ cutData_recorded hold hp h0'
  rw [devices_data hp h0 hold.noGarbage hc] at hcut
  have holdErased : p = swapPageIdx → ErasedAt w.mem (p * 4096) := by
    rintro rfl
    exact hold.swapErased
  rcases k with _ | _ | _ | _ | k
  · have hv : w.mem = v.mem := Option.some.inj hcut
    refine iff_of_true ?_ (survivable_start (Nat.zero_le 1))
    rw [hv] at hold ⊢
    exact restored_of_quiet hold.quiet (Or.inl fun _ _ => rfl) fun _ _ _ _ _ _ => rfl
  · have hv : swapErased w.mem = v.mem := Option.some.inj hcut
    exact iff_of_true (restored_swapErased hold hp hv.symm) (survivable_start le_rfl)
  · have hv : swapWritten w.mem w.page = v.mem := Option.some.inj hcut
    exact restored_swapWritten_iff hold hp h0 hv.symm
  · have hv : c = v.mem := Option.some.inj hcut
    have hheld : 3 ≤ heldUntil p := by
      unfold heldUntil
      split <;> decide
    have hcd : CutData p w.mem w.page (3 ≤ heldUntil p) v.mem := by
      rw [← hv]
      exact hrec.update h0' (fun _ _ _ => rfl) (fun _ => hrec.image trivial) fun h => absurd hheld h
    exact hcd.restored_iff_survivable (by decide) hp h0 holdErased
  · rw [List.getElem?_append_right (Nat.le_add_left 4 k)] at hcut
    exact (hrec.copies h0' hp (getElem?_copies hcut)).restored_iff_survivable (by omega) hp h0 holdErased

/-- A device that has just been formatted, with its first page in the page buffer. -/
def freshFs : Fs :=
  { erasedFs with
    mem := formatted zeroUninit erasedFs.mem
    page := formatted zeroUninit erasedFs.mem }

theorem freshFs_settled : Settled freshFs.mem :=
  ⟨quiet_formatted.magic, fun i hi => formatted_of_ge (le_trans (by decide) (Nat.le_add_right _ i))
    (lt_of_lt_of_le (Nat.add_lt_add_left hi _) (by decide)), quiet_formatted.noGarbage⟩

theorem freshFs_image : MetadataImage freshFs.page :=
  ⟨quiet_formatted.magic, quiet_formatted.noGarbage⟩

/-- The garbage page table of `m` still names another data page than `p`, which `old` has not erased and
which does not hold the image. -/
def StaleRecord (m old img : Mem) (p : ℕ) : Prop :=
  ∃ q, 0 < q ∧ q < swapPageIdx ∧ q ≠ p ∧ word m garbagePageTabStart = q * ramdiskPageSize ∧
    ¬ ErasedAt old (q * 4096) ∧ (p ≠ metadataPageIdx → ¬ ∀ i < 4096, old (q * 4096 + i) = img i)

/-- The mount copies the swap page over the page that is recorded, or formats the device. -/
theorem StaleRecord.not_restored {old img : Mem} (h : StaleRecord v.mem old img p) (hmagic : HasMagic v.mem)
    (hswap : ErasedAt v.mem swapPageStart ∨
      p ≠ metadataPageIdx ∧ ∀ i < 4096, v.mem (swapPageStart + i) = img i) :
    ¬ Restored p old img (stateAfter (slfsMount uninit v)).mem := by
  obtain ⟨q, h0, hlt, hne, hrec, hfull, hother⟩ := h
  have hlt' : q < 1023 := hlt
  have hq : q < ramdiskPageNum := hlt.trans (by decide)
  intro hres
  have hformat (hmem : ∃ m, (stateAfter (slfsMount uninit v)).mem = formatted uninit m) : False := by
    obtain ⟨m, hmem⟩ := hmem
    refine hfull fun i hi => ?_
    rw [← hres.others q h0 hlt hne i hi, hmem]
    exact formatted_of_ge (by omega) (by simp only [ramdiskSize]; omega)
  by_cases htail : word v.mem swapPageTailStart = metadataPageIdx
  · by_cases hmark : SwapMagic v.mem
    · exact not_restored_of_mark htail hmark hres
    · exact hformat (slfsMount_no_swapMagic htail hmark)
  · obtain ⟨u, hrun, hmem⟩ := recoverAny_data hq (Nat.ne_of_gt h0) htail hrec
    by_cases hin : q % 256 = 0
    · refine hformat ⟨u.mem, ?_⟩
      rw [slfsMount_mem hrun, if_neg (hmem ▸ not_hasMagic_recovered h0 hin)]
    · have hout {x : ℕ} (hx : x < ramdiskSize) : eraseRamdiskPage v.mem (q * ramdiskPageSize) x = v.mem x :=
        eraseRamdiskPage_out hin hx
      have hquiet : Quiet u.mem :=
        hmem ▸ dataRecovered_quiet h0 (hmagic.congr fun x hx => hout (hx.trans (by decide)))
      have hpage : ∀ i < 4096, old (q * 4096 + i) = v.mem (swapPageStart + i) := by
        intro i hi
        have hstart : swapPageStart = 4190208 := rfl
        have hsame := hres.others q h0 hlt hne i hi
        rw [slfsMount_mem hrun, if_pos hquiet.magic, hmem, dataRecovered_page hlt hi,
          hout (by rw [hstart]; simp only [ramdiskSize]; omega)] at hsame
        exact hsame.symm
      rcases hswap with hff | ⟨hp, himg⟩
      · exact hfull fun i hi => (hpage i hi).trans (hff i hi)
      · exact hother hp fun i hi => (hpage i hi).trans (himg i hi)

/-- While a data page is rewritten under the record of another one. -/
theorem full_cut {k : ℕ} (hp : p < ramdiskPageNum) (h0 : p ≠ metadataPageIdx)
    (htab : word w.mem garbagePageTabStart ≠ minusOne) (herased : ErasedAt w.mem swapPageStart)
    (hcut : (devices (storePage p) w)[k]? = some m) : (∀ x < 4096, m x = w.mem x) ∧
      (ErasedAt m swapPageStart ∨ ∀ i < 4096, m (swapPageStart + i) = w.page i) := by
  have hp' : p < 1024 := hp
  have h0' : 0 < p := Nat.pos_of_ne_zero h0
  have hstart : swapPageStart = 4190208 := rfl
  obtain ⟨c, hc⟩ : ∃ c, swapWritten w.mem w.page = c := ⟨_, rfl⟩
  have hfirst : ∀ x < 4096, c x = w.mem x := fun x hx => by
    rw [← hc, swapWritten_of_lt (by rw [hstart]; omega)]
  have hback : ∀ j ≤ 8, ∀ x < 4096, copiedBack c p j x = w.mem x := by
    intro j hj x hx
    by_cases hswap : p = swapPageIdx
    · rw [hswap, copiedBack_swap, swapErased_of_lt (by rw [hstart]; omega), hfirst x hx]
    · have hne : p ≠ 1023 := hswap
      have hlt : p < swapPageIdx := lt_of_le_of_ne (Nat.le_of_lt_succ hp') hne
      rw [copiedBack_apply hlt hj, if_neg (by omega), hfirst x hx]
  have hheld : ∀ i < 4096, c (swapPageStart + i) = w.page i := fun i hi => by
    rw [← hc, swapWritten_apply, if_pos ⟨Nat.le_add_right _ i, Nat.add_lt_add_left hi _⟩,
      Nat.add_sub_cancel_left]
  rw [devices_full hp h0 htab hc] at hcut
  rcases k with _ | _ | _ | k
  · obtain rfl : w.mem = m := Option.some.inj hcut
    exact ⟨fun _ _ => rfl, Or.inl herased⟩
  · obtain rfl : swapErased w.mem = m := Option.some.inj hcut
    exact ⟨fun x hx => swapErased_of_lt (by rw [hstart]; omega), Or.inl erasedAt_swapErased⟩
  · obtain rfl : c = m := Option.some.inj hcut
    exact ⟨hfirst, Or.inr hheld⟩
  · rw [List.getElem?_append_right (Nat.le_add_left 3 k)] at hcut
    rcases getElem?_copies hcut with ⟨hk, rfl⟩ | ⟨-, rfl⟩
    · have hk' : k < 9 := hk
      refine ⟨hback k (Nat.le_of_lt_succ hk'), ?_⟩
      by_cases hswap : p = swapPageIdx
      · rw [hswap, copiedBack_swap]
        exact Or.inl erasedAt_swapErased
      · have hne : p ≠ 1023 := hswap
        have hlt : p < swapPageIdx := lt_of_le_of_ne (Nat.le_of_lt_succ hp') hne
        have hlt' : p < 1023 := hlt
        refine Or.inr fun i hi => ?_
        exact (copiedBack_apply hlt (Nat.le_of_lt_succ hk') _).trans
          ((if_neg (by rw [hstart]; omega)).trans (hheld i hi))
    · refine ⟨fun x hx => ?_, Or.inl erasedAt_swapErased⟩
      rw [swapErased_of_lt (by rw [hstart]; omega), hback 8 le_rfl x hx]

/-- When a power loss is made good: a data page needs a device without a record of another update, the
metadata page an image without one. -/
def Survives (old img : Mem) (p k : ℕ) : Prop :=
  if p = metadataPageIdx then Settled old ∧ k ≤ 1 ∨ MetadataImage img ∧ k = 12
  else Settled old ∧ Survivable old img p k

/-- What page updates that ran to their ends leave, and what their callers put into the metadata page. -/
structure Mounted (old img : Mem) (p : ℕ) : Prop where
  magic : HasMagic old
  swapErased : ErasedAt old swapPageStart
  record : word old garbagePageTabStart = minusOne ∨ StaleRecord old old img p
  imageMagic : p = metadataPageIdx → HasMagic img
  imageRecord : p = metadataPageIdx → word img garbagePageTabStart = minusOne ∨ StaleRecord img old img p

theorem StaleRecord.congr {m' old img : Mem} (h : StaleRecord m old img p) (heq : ∀ x < 4092, m' x = m x) :
    StaleRecord m' old img p := by
  obtain ⟨q, h0, hlt, hne, hrec, hrest⟩ := h
  exact ⟨q, h0, hlt, hne, (word_record_congr heq).trans hrec, hrest⟩

theorem StaleRecord.ne_minusOne {old img : Mem} (h : StaleRecord m old img p) :
    word m garbagePageTabStart ≠ minusOne := by
  obtain ⟨q, -, -, -, hrec, -⟩ := h
  rw [hrec]
  change q * 4096 ≠ 4294967295
  omega

theorem restored_of_survives {k : ℕ} (hp : p < ramdiskPageNum)
    (hcut : (devices (storePage p) w)[k]? = some v.mem) (h : Survives w.mem w.page p k) :
    Restored p w.mem w.page (stateAfter (slfsMount uninit v)).mem := by
  rw [Survives] at h
  split at h
  · rename_i h0
    subst h0
    rcases metadata_cut hcut with ⟨rfl, hv⟩ | ⟨rfl, hv⟩ | ⟨hlo, hhi, -⟩ | ⟨rfl, hstored⟩
    · have hold := h.resolve_right fun h => absurd h.2 (by decide)
      rw [← hv] at hold ⊢
      exact restored_of_quiet hold.1.quiet (Or.inl fun _ _ => rfl) fun _ _ _ _ _ _ => rfl
    · have hold := h.resolve_right fun h => absurd h.2 (by decide)
      exact restored_swapErased hold.1 hp hv
    · omega
    · exact hstored.restored (h.resolve_left fun h => absurd h.2 (by decide)).1
  · rename_i h0
    exact (restored_data_iff h.1 hp h0 hcut).mpr h.2

theorem Mounted.survives_of_restored {k : ℕ} (hm : Mounted w.mem w.page p) (hp : p < ramdiskPageNum)
    (hcut : (devices (storePage p) w)[k]? = some v.mem)
    (h : Restored p w.mem w.page (stateAfter (slfsMount uninit v)).mem) : Survives w.mem w.page p k := by
  have hsettled (hfirst : StaleRecord w.mem w.mem w.page p → ∀ x < 4096, v.mem x = w.mem x)
      (hswap : StaleRecord w.mem w.mem w.page p → ErasedAt v.mem swapPageStart ∨
        p ≠ metadataPageIdx ∧ ∀ i < 4096, v.mem (swapPageStart + i) = w.page i) : Settled w.mem := by
    refine ⟨hm.magic, hm.swapErased, hm.record.resolve_right fun hstale => ?_⟩
    have hkeep := hfirst hstale
    exact (hstale.congr fun x hx => hkeep x (by omega)).not_restored
      (hm.magic.congr fun x hx => hkeep x (by omega)) (hswap hstale) h
  rw [Survives]
  split
  · rename_i h0
    subst h0
    rcases metadata_cut hcut with ⟨rfl, hv⟩ | ⟨rfl, hv⟩ | ⟨-, -, hmark⟩ | ⟨rfl, hstored⟩
    · exact Or.inl ⟨hsettled (fun _ x _ => congrFun hv x) fun _ => Or.inl (hv ▸ hm.swapErased), Nat.zero_le 1⟩
    · refine Or.inl ⟨hsettled (fun _ x hx => ?_) fun _ => Or.inl (hv ▸ erasedAt_swapErased), le_rfl⟩
      rw [hv, swapErased_of_lt (hx.trans (by decide))]
    · have hmarked := hmark (hm.imageMagic rfl)
      exact absurd h (not_restored_of_mark hmarked.tail hmarked.swapMagic)
    · have hmagic := hm.imageMagic rfl
      refine Or.inr ⟨⟨hmagic, (hm.imageRecord rfl).resolve_right fun hstale => ?_⟩, rfl⟩
      exact (hstale.congr hstored.page).not_restored (hmagic.congr fun x hx => hstored.page x (by omega))
        (Or.inl hstored.swapErased) h
  · rename_i h0
    have hold : Settled w.mem := by
      refine hsettled (fun hstale => ?_) fun hstale => ?_
      · exact (full_cut hp h0 hstale.ne_minusOne hm.swapErased hcut).1
      · exact (full_cut hp h0 hstale.ne_minusOne hm.swapErased hcut).2.imp_right fun himg => ⟨h0, himg⟩
    exact ⟨hold, (restored_data_iff hold hp h0 hcut).mp h⟩

/-- A data page that is rewritten to the end stays recorded. -/
theorem Settled.mounted_of_stored {u : Fs} {img : Mem} {q : ℕ} (hold : Settled w.mem) (h0 : 0 < q)
    (hq : q < swapPageIdx) (hrun : storePage q w = .ok () u) (hne : q ≠ p) (hp : p ≠ metadataPageIdx)
    (hfull : ¬ ErasedAt w.page 0) (hother : ¬ ∀ i < 4096, w.page i = img i) : Mounted u.mem img p := by
  have hq' : q < 1023 := hq
  have hnum : q < ramdiskPageNum := hq.trans (by decide)
  have hstart : swapPageStart = 4190208 := rfl
  obtain ⟨c, hc⟩ : ∃ c, pageRecorded (swapWritten w.mem w.page) q = c := ⟨_, rfl⟩
  have hrec : CutData q w.mem w.page True c := hc ▸ cutData_recorded hold hnum h0
  have hmem : u.mem = Slfs.swapErased (copiedBack c q 8) := by
    rw [storePage_data_run hnum (Nat.ne_of_gt h0) hold.noGarbage] at hrun
    rw [← hc]
    cases hrun
    rfl
  have hcut := (hrec.copiedBack h0 hq le_rfl).swapErased h0
  have hpage : ∀ i < 4096, u.mem (q * 4096 + i) = w.page i := by
    intro i hi
    rw [hmem, swapErased_of_lt (by rw [hstart]; omega), copiedBack_apply hq le_rfl, if_pos (by omega),
      if_pos (by omega), Nat.add_sub_cancel_left]
    exact hrec.image trivial i hi
  rw [← hmem] at hcut
  refine ⟨hcut.magic, hcut.gone id, Or.inr ⟨q, h0, hq, hne, hcut.recorded, fun h => hfull fun i hi => ?_,
    fun _ h => hother fun i hi => ?_⟩, fun h => absurd h hp, fun h => absurd h hp⟩
  · rw [Nat.zero_add, ← hpage i hi, h i hi]
  · rw [← hpage i hi, h i hi]

/-- The power is lost once page 1 is recorded. -/
def recordedFs : Fs :=
  { freshFs with mem := pageRecorded (swapWritten freshFs.mem freshFs.page) 1 }

/-- The power is lost once the metadata page is in the swap page. -/
def markedFs : Fs := { freshFs with mem := swapWritten freshFs.mem (put freshFs.page 4092 (wordBytes 0)) }

end Slos.Slfs
