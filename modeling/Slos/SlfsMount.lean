import Slos.SlfsRecovery

/-!
# Mounting

`slfs_mount` on a device on which no page update is pending, and `fs_mount`. The functions below return 0
when they succeed; `init_metadata` and `load_superblk` test for the opposite, so a new superblock is reported
as an error and the stored one is not read.
-/

namespace Slos.Slfs
open Word ByteMemory Ramdisk

variable {v w : Fs} {uninit uninit' : Uninit}

def eraseChip : FsM Unit := fun w => .ok () (w.store (eraseRamdiskChip w.mem))

/-- `fs_mount(SLFS_FILE_SYSTEM)`. -/
def fsMount (uninit uninit' : Uninit) : FsM Unit := do
  eraseChip
  tryCatch (slfsMount uninit) fun e =>
    if e = .hang then throw e else do
      slfsFormat
      ignoreErr (slfsMount uninit')

/-- The swap page tail and the garbage page table are erased. -/
structure NonePending (m : Mem) : Prop where
  swapTail : word m swapPageTailStart = minusOne
  noGarbage : word m garbagePageTabStart = minusOne

/-- The superblock in memory has the fields of the stored one and is marked mounted. -/
structure Loaded (w : Fs) : Prop where
  fields : bytes w.superblk 0 52 = bytes w.mem superblkStart 52
  bmounted : w.superblk 52 = 1

/-- The whole device is erased but for a superblock with the magic string. -/
structure Reset (m : Mem) : Prop where
  magic : HasMagic m
  erased : ∀ x, 56 ≤ x → x < ramdiskSize → m x = 0xFF

/-- `uninit` holds the locals of the mount, `uninit'` those of the next one. -/
structure MountLaw (uninit uninit' : Uninit) (w : Fs) : Prop where
  returns : succeeded (slfsMount uninit w) = true
  present : HasMagic w.mem → Loaded (stateAfter (slfsMount uninit w)) ∧ (stateAfter (slfsMount uninit w)).mem = w.mem
  absent : ¬ HasMagic w.mem → Reset (stateAfter (slfsMount uninit w)).mem
  again : succeeded (slfsMount uninit w) = true →
    succeeded (slfsMount uninit' (stateAfter (slfsMount uninit w))) = true ∧
      (stateAfter (slfsMount uninit' (stateAfter (slfsMount uninit w)))).mem = (stateAfter (slfsMount uninit w)).mem
  fsMount : succeeded (fsMount uninit uninit' w) = true → Loaded (stateAfter (fsMount uninit uninit' w))

/-- The superblock in memory holds what is to be read: the stored one before, and marked as mounted the one of a
new device. -/
structure InMemory (uninit : Uninit) (w : Fs) : Prop where
  stored : bytes w.superblk 0 52 = bytes w.mem superblkStart 52
  new : bytes w.superblk 0 52 = bytes (put uninit.superblk 0 (magicString ++ superblkFields)) 0 52
  bmounted : w.superblk 52 = 1

theorem NonePending.recoverAny_run (h : NonePending w.mem) :
    ∃ u, recoverAny w = .ok () u ∧ u.mem = w.mem ∧ u.superblk = w.superblk := by
  have htail : word w.mem swapPageTailStart ≠ metadataPageIdx := by
    rw [h.swapTail]
    decide
  refine ⟨{ w with page := loadedPage w metadataPageIdx }, ?_, rfl, rfl⟩
  rw [recoverAny_of_tail htail, if_pos (Or.inl h.noGarbage), pure_run]

/-- A device without a superblock gets one, which is reported as an error. -/
theorem NonePending.mount_absent (h : NonePending w.mem) (uninit : Uninit) (hmagic : ¬ HasMagic w.mem) :
    ∃ u, slfsMount uninit w = .error .io u ∧ u.mem = formatted uninit w.mem ∧ u.superblk = w.superblk := by
  obtain ⟨v, hrec, hmem, hsuperblk⟩ := h.recoverAny_run
  rw [slfsMount_run hrec, hmem, if_neg hmagic]
  exact ⟨_, rfl, rfl, hsuperblk⟩

theorem NonePending.mount_present (h : NonePending w.mem) (uninit : Uninit) (hmagic : HasMagic w.mem) :
    ∃ u, slfsMount uninit w = loadSuperblk u ∧ u.mem = w.mem ∧ u.superblk = w.superblk := by
  obtain ⟨v, hrec, hmem, hsuperblk⟩ := h.recoverAny_run
  rw [slfsMount_run hrec, hmem, if_pos hmagic]
  exact ⟨v, rfl, hmem, hsuperblk⟩

theorem slfsMount_loaded (h : NonePending w.mem) (uninit : Uninit) (hmagic : HasMagic w.mem)
    (hmem : bytes w.superblk 0 magicString.length = magicString) :
    ∃ u, slfsMount uninit w = .ok () u ∧ u.mem = w.mem ∧ u.superblk = put w.superblk 52 [1] := by
  obtain ⟨v, hrun, hvmem, hsuperblk⟩ := h.mount_present uninit hmagic
  rw [hrun, loadSuperblk_run, hsuperblk, if_pos hmem]
  exact ⟨_, rfl, hvmem, rfl⟩

/-- The error codes are the wrong way round: a mount returns without an error only if the superblock in memory has
the magic string before it is loaded. -/
theorem slfsMount_succeeds_iff (h : NonePending w.mem) : succeeded (slfsMount uninit w) = true ↔
    HasMagic w.mem ∧ bytes w.superblk 0 magicString.length = magicString := by
  by_cases hmagic : HasMagic w.mem
  · by_cases hmem : bytes w.superblk 0 magicString.length = magicString
    · obtain ⟨u, hrun, -⟩ := slfsMount_loaded h uninit hmagic hmem
      rw [hrun]
      exact iff_of_true rfl ⟨hmagic, hmem⟩
    · obtain ⟨u, hrun, -, hsuperblk⟩ := h.mount_present uninit hmagic
      rw [hrun, loadSuperblk_run, hsuperblk, if_neg hmem]
      exact iff_of_false Bool.false_ne_true fun h => hmem h.2
  · obtain ⟨u, hrun, -⟩ := h.mount_absent uninit hmagic
    rw [hrun]
    exact iff_of_false Bool.false_ne_true fun h => hmagic h.1

theorem erased_nonePending (m : Mem) : NonePending (eraseRamdiskChip m) ∧ ¬ HasMagic (eraseRamdiskChip m) := by
  have herased (x : ℕ) (hx : x < ramdiskSize) : eraseRamdiskChip m x = 0xFF := if_pos hx
  constructor
  · constructor
    · exact word_eq_max.mpr fun i hi => herased _ (by simp; omega)
    · exact word_eq_max.mpr fun i hi => herased _ (by simp; omega)
  · intro hmagic
    have hfirst := congrArg (fun bs => bs[0]?) hmagic
    have hbyte : (bytes (eraseRamdiskChip m) superblkStart magicString.length)[0]? = some 0xFF := by
      rw [getElem?_bytes (by decide), herased _ (by decide)]
    exact absurd (hbyte.symm.trans hfirst) (by decide)

theorem slfsMount_erased (uninit : Uninit) (m : Mem) (hw : w.mem = eraseRamdiskChip m) :
    ∃ u, slfsMount uninit w = .error .io u ∧ u.mem = formatted uninit w.mem ∧ u.superblk = w.superblk := by
  obtain ⟨hnone, hmagic⟩ := erased_nonePending m
  rw [← hw] at hnone hmagic
  exact hnone.mount_absent uninit hmagic

/-- `fs_mount` returns without an error whatever its mounts return, and loads no superblock. -/
theorem fsMount_run (uninit uninit' : Uninit) (w : Fs) : ∃ m u, fsMount uninit uninit' w = .ok () u ∧ u.mem = formatted uninit' m ∧
    u.superblk = w.superblk := by
  obtain ⟨w₁, hw₁⟩ : ∃ w₁, w₁ = w.store (eraseRamdiskChip w.mem) := ⟨_, rfl⟩
  have herase : eraseChip w = .ok () w₁ := by rw [hw₁]; rfl
  obtain ⟨u, hmount, -, hsuperblk⟩ := slfsMount_erased uninit w.mem (by rw [hw₁]; rfl : w₁.mem = eraseRamdiskChip w.mem)
  have hformat : slfsFormat u = .ok () (u.store (eraseRamdiskChip u.mem)) := rfl
  obtain ⟨u', hmount', hmem', hsuperblk'⟩ := slfsMount_erased uninit' u.mem
    (rfl : (u.store (eraseRamdiskChip u.mem)).mem = eraseRamdiskChip u.mem)
  have hignore : ignoreErr (slfsMount uninit') (u.store (eraseRamdiskChip u.mem)) = .ok () u' := by
    simp only [ignoreErr, tryCatch, tryCatchThe, MonadExceptOf.tryCatch, EStateM.tryCatch, hmount']
    rfl
  refine ⟨_, u', ?_, hmem', ?_⟩
  · rw [fsMount, bind_ok herase]
    simp only [tryCatch, tryCatchThe, MonadExceptOf.tryCatch, EStateM.tryCatch, hmount]
    exact (bind_ok hformat).trans hignore
  · rw [hsuperblk']
    exact hsuperblk.trans (by rw [hw₁]; rfl)

theorem formatted_bytes {n : ℕ} (h : n ≤ 56) (m : Mem) : bytes (formatted uninit m) superblkStart n =
    bytes (put uninit.superblk 0 (magicString ++ superblkFields)) 0 n := by
  have hall : bytes (formatted uninit m) superblkStart 56 =
      bytes (put uninit.superblk 0 (magicString ++ superblkFields)) 0 56 := bytes_put_self
  rw [← take_bytes h, hall, take_bytes h]

theorem fsMount_loaded_iff : Loaded (stateAfter (fsMount uninit uninit' w)) ↔
    bytes w.superblk 0 52 = bytes (put uninit'.superblk 0 (magicString ++ superblkFields)) 0 52 ∧ w.superblk 52 = 1 := by
  obtain ⟨m, u, hrun, hmem, hsuperblk⟩ := fsMount_run uninit uninit' w
  rw [hrun]
  constructor
  · intro h
    have hfields : bytes u.superblk 0 52 = bytes u.mem superblkStart 52 := h.fields
    rw [hsuperblk, hmem, formatted_bytes (by decide)] at hfields
    exact ⟨hfields, hsuperblk ▸ h.bmounted⟩
  · rintro ⟨hfields, hmounted⟩
    constructor
    · change bytes u.superblk 0 52 = bytes u.mem superblkStart 52
      rw [hsuperblk, hmem, formatted_bytes (by decide), hfields]
    · change u.superblk 52 = 1
      rw [hsuperblk, hmounted]

theorem InMemory.magic (h : InMemory uninit w) :
    HasMagic w.mem ∧ bytes w.superblk 0 magicString.length = magicString := by
  have hnew : bytes (put uninit.superblk 0 (magicString ++ superblkFields)) 0 magicString.length = magicString := by
    rw [put_append, bytes_congr fun x _ hx => put_of_lt hx, bytes_put_self]
  have hmem : bytes w.superblk 0 magicString.length = magicString := by
    have htake := congrArg (List.take magicString.length) h.new
    rw [take_bytes (by decide), take_bytes (by decide), hnew] at htake
    exact htake
  refine ⟨?_, hmem⟩
  have htake := congrArg (List.take magicString.length) h.stored
  rw [take_bytes (by decide), take_bytes (by decide), hmem] at htake
  exact htake.symm

/-- The mark stands behind the fields. -/
theorem superblk_marked (w : Fs) {n : ℕ} (h : n ≤ 52) :
    bytes (put w.superblk 52 [1]) 0 n = bytes w.superblk 0 n :=
  bytes_congr fun x _ hx => put_of_lt (by omega)

/-- Mounting meets its law exactly when there is nothing left to load. -/
theorem mount_law_iff (h : NonePending w.mem) : MountLaw uninit uninit' w ↔ InMemory uninit' w := by
  constructor
  · intro hlaw
    obtain ⟨hmagic, hmem⟩ := (slfsMount_succeeds_iff h).mp hlaw.returns
    obtain ⟨hnew, hmounted⟩ := fsMount_loaded_iff.mp (hlaw.fsMount (by
      obtain ⟨m, u, hrun, -⟩ := fsMount_run uninit uninit' w
      rw [hrun]
      rfl))
    refine ⟨?_, hnew, hmounted⟩
    obtain ⟨u, hrun, humem, hsuperblk⟩ := slfsMount_loaded h uninit hmagic hmem
    have hload := (hlaw.present hmagic).1
    rw [hrun, stateAfter] at hload
    rw [← humem, ← hload.fields, hsuperblk]
    exact (superblk_marked w (by decide)).symm
  · intro hin
    obtain ⟨hmagic, hmem⟩ := hin.magic
    obtain ⟨u, hrun, humem, hsuperblk⟩ := slfsMount_loaded h uninit hmagic hmem
    constructor
    · exact (slfsMount_succeeds_iff h).mpr ⟨hmagic, hmem⟩
    · intro _
      rw [hrun, stateAfter]
      refine ⟨⟨?_, ?_⟩, humem⟩
      · rw [hsuperblk, superblk_marked w (by decide), humem]
        exact hin.stored
      · rw [hsuperblk]
        exact put_add (i := 0)
    · exact fun habsent => absurd hmagic habsent
    · intro _
      rw [hrun, stateAfter]
      obtain ⟨u', hrun', humem', -⟩ := slfsMount_loaded (humem ▸ h : NonePending u.mem) uninit' (humem ▸ hmagic)
        (by rw [hsuperblk, superblk_marked w (by decide), hmem])
      rw [hrun']
      exact ⟨rfl, humem'⟩
    · exact fun _ => fsMount_loaded_iff.mpr ⟨hin.new, hin.bmounted⟩

theorem formatted_nonePending (m : Mem) : NonePending (formatted uninit m) := by
  have hword {a : ℕ} (hlo : 56 ≤ a) (hhi : a + 4 ≤ ramdiskSize) : word (formatted uninit m) a = minusOne :=
    word_eq_max.mpr fun i hi => formatted_of_ge (hlo.trans (Nat.le_add_right a i))
      ((Nat.add_lt_add_left hi a).trans_le hhi)
  constructor
  · exact hword (by decide) (by decide)
  · exact hword (by decide) (by decide)

/-- A formatted device at boot, when the superblock in memory holds zeros. -/
def formattedFs : Fs := { erasedFs with mem := formatted zeroUninit erasedFs.mem }

/-- The superblock in memory is that of the device already. -/
def loadedFs : Fs := { formattedFs with superblk := put (formatted zeroUninit erasedFs.mem) 52 [1] }

theorem mount_law_loaded : MountLaw zeroUninit zeroUninit loadedFs :=
  (mount_law_iff (formatted_nonePending erasedFs.mem)).mpr
    ⟨by decide +kernel, by decide +kernel, by decide +kernel⟩

/-- At boot neither a formatted nor an erased device is mounted, and `fs_mount` reports that it is. -/
theorem mount_fails_at_boot : NonePending formattedFs.mem ∧ HasMagic formattedFs.mem ∧
    ¬ MountLaw zeroUninit zeroUninit formattedFs ∧ NonePending erasedFs.mem ∧ ¬ HasMagic erasedFs.mem ∧
    ¬ MountLaw zeroUninit zeroUninit erasedFs ∧ ¬ Loaded (stateAfter (fsMount zeroUninit zeroUninit formattedFs)) := by
  have hformatted : NonePending formattedFs.mem := formatted_nonePending erasedFs.mem
  have herased : NonePending erasedFs.mem := by
    constructor
    · decide +kernel
    · decide +kernel
  have hfails (w : Fs) (h : NonePending w.mem) (hw : w.superblk = erasedFs.superblk) :
      ¬ MountLaw zeroUninit zeroUninit w := by
    intro hlaw
    have hmem := ((slfsMount_succeeds_iff h).mp hlaw.returns).2
    rw [hw] at hmem
    exact absurd hmem (by decide)
  refine ⟨hformatted, quiet_formatted.magic, hfails _ hformatted rfl, herased, by decide, hfails _ herased rfl, ?_⟩
  intro hloaded
  have hmounted := (fsMount_loaded_iff.mp hloaded).2
  exact absurd hmounted (by decide)

end Slos.Slfs
