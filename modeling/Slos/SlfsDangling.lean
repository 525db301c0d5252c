import Slos.SlfsFullTable

/-!
# Collecting a dangling inode

The first pass of `collect_garbage` may rewrite any page, following what it takes for a chain of blocks.
Through all of it an erased word of the inode table stays erased, so a collection that returns has erased
every dangling inode, and a call finds no inode only where none was free or dangling before.
-/

namespace Slos.Slfs
open Word ByteMemory Ramdisk

variable {m : Mem} {i p : ℕ} {v w : Fs} {uninit : Uninit} {P : Fs → Prop}

section Errors

/-- Hangs or fails with an I/O error. -/
def IoOrHang (e : FsErr) : Prop := e = .io ∨ e = .hang

theorem orIoErr_within {x : FsM Unit} (h : Within P (fun _ => True) x) : Within P IoOrHang (orIoErr x) :=
  h.tryCatch fun e => Within.throw (by
    by_cases he : e = .hang
    · rw [if_pos he]
      exact Or.inr rfl
    · rw [if_neg he]
      exact Or.inl rfl)

theorem ignoreErr_within {x : FsM Unit} (h : Within P (fun _ => True) x) : Within P IoOrHang (ignoreErr x) := by
  refine h.tryCatch fun e => ?_
  split
  · exact Within.throw (Or.inr rfl)
  · exact Within.pure ()

theorem lastDatablk_readOnly (fuel a cur : ℕ) : ReadOnly (lastDatablk fuel a cur) := by
  induction fuel generalizing a cur with
  | zero => exact ReadOnly.throw _
  | succ fuel ih =>
      rw [lastDatablk]
      split
      · exact ReadOnly.pure _
      · have hread (addr : ℕ) : ReadOnly (cpuRead addr) := fun _ => rfl
        refine (hread _).bind fun next => (hread _).bind fun prev => ?_
        split
        · exact ReadOnly.throw _
        · exact ih _ _

theorem collectObsolete_within (hdel : ∀ inode, Within P (fun _ => True) (deleteDatablks inode uninit))
    (is : List ℕ) (deleted : List (ℕ × ℕ)) (last : SlfsInode) :
    Within P IoOrHang (collectObsolete uninit is deleted last) := by
  induction is generalizing deleted last with
  | nil => exact Within.pure _
  | cons i is ih =>
      rw [collectObsolete]
      refine (readOrErr_within _ _ (Or.inl rfl)).bind fun b => ?_
      dsimp only
      split
      · exact ih _ _
      · split
        · exact (ignoreErr_within (hdel _)).bind fun _ => ih _ _
        · split
          · exact ih _ _
          · exact ih _ _

theorem deleteFiles_within (deleted : List (ℕ × ℕ)) (last : SlfsInode) :
    Within P IoOrHang (deleteFiles uninit deleted last) := by
  intro w hw
  rcases deleteFiles_cases deleted last with herr | ⟨hok, -⟩
  · rw [herr]
    exact ⟨hw, fun e u h => by cases h; exact Or.inl rfl⟩
  · rw [hok]
    exact ⟨hw, fun e u h => by cases h⟩

/-- A property of the handle and the memory outside the page buffer and the device. -/
structure DeviceFree (P : Fs → Prop) : Prop where
  store : ∀ w m, P w → P (w.store m)
  page : ∀ w page, P w → P { w with page := page }

theorem loadPage_within (h : DeviceFree P) : Within P (fun _ => True) (loadPage p) := by
  rw [loadPage]
  split
  · exact Within.throw trivial
  · intro w hw
    rw [ioRead_bind]
    cases readRamdisk w.mem (p <<< ramdiskPageSizeShift) ramdiskPageSize with
    | none => exact ⟨hw, fun _ _ _ => trivial⟩
    | some bs => exact ⟨h.page _ _ hw, fun _ _ _ => trivial⟩

theorem copyFlashToFlash_within (h : DeviceFree P) (dst src fuel len offset : ℕ) :
    Within P (fun _ => True) (copyFlashToFlash dst src fuel len offset) := by
  induction fuel generalizing len offset with
  | zero => exact Within.pure ()
  | succ fuel ih =>
      rw [copyFlashToFlash]
      split
      · exact Within.pure ()
      · refine (readOrErr_within _ _ trivial).bind fun b => ?_
        exact (writeOrErr_within trivial fun w m hw _ => h.store w m hw).bind fun _ => ih _ _

theorem storePage_within (h : DeviceFree P) : Within P (fun _ => True) (storePage p) := by
  have herase (k : ℕ) : Within P (fun _ => True) (erasePage k) := erasePage_within fun w hw => h.store w _ hw
  have hwrite (a : ℕ) (bs : List UInt8) : Within P (fun _ => True) (writeOrErr a bs) :=
    writeOrErr_within trivial fun w m hw _ => h.store w m hw
  have hrecord : Within P (fun _ => True) (recordGarbagePage p) := by
    rw [recordGarbagePage]
    refine (readOrErr_within _ _ trivial).bind fun b => ?_
    dsimp only
    split
    · exact Within.pure ()
    · exact hwrite _ _
  have hget : Within P (fun _ => True) getPage := getPage_readOnly.within fun _ _ _ _ => trivial
  have hback : Within P (fun _ => True) (do
      erasePage p
      copyFlashToFlash (p <<< ramdiskPageSizeShift) swapPageStart ramdiskPageSize ramdiskPageSize 0
      erasePage swapPageIdx) :=
    (herase p).bind fun _ => (copyFlashToFlash_within h _ _ _ _ _).bind fun _ => herase _
  rw [storePage]
  split
  · exact Within.throw trivial
  · refine (herase _).bind fun _ => ?_
    by_cases hmeta : p = metadataPageIdx
    · simp only [ne_eq, if_pos hmeta, if_neg (not_not_intro hmeta)]
      refine (modifyPage_within fun w hw => h.page w _ hw).bind fun _ => ?_
      exact hget.bind fun page => (hwrite _ _).bind fun _ => hback
    · simp only [ne_eq, if_neg hmeta, if_pos hmeta]
      exact hget.bind fun page => (hwrite _ _).bind fun _ => hrecord.bind fun _ => hback

theorem eraseInPage_within (h : DeviceFree P) (fuel cur : ℕ) : Within P (fun _ => True) (eraseInPage p fuel cur) := by
  induction fuel generalizing cur with
  | zero => exact Within.throw trivial
  | succ fuel ih =>
      have hread (addr : ℕ) : ReadOnly (cpuRead addr) := fun _ => rfl
      rw [eraseInPage]
      refine ((hread _).within fun _ _ _ _ => trivial).bind fun prev => ?_
      refine (modifyPage_within fun w hw => h.page w _ hw).bind fun _ => ?_
      split
      · exact ih prev
      · exact Within.pure prev

theorem deleteDatablks_within (h : DeviceFree P) (inode : SlfsInode) :
    Within P (fun _ => True) (deleteDatablks inode uninit) := by
  rw [deleteDatablks]
  refine ((lastDatablk_readOnly _ _ _).within fun _ _ _ _ => trivial).bind fun cur => ?_
  have herase (fuel cur : ℕ) : Within P (fun _ => True) (eraseDatablks fuel cur) := by
    induction fuel generalizing cur with
    | zero => exact Within.throw trivial
    | succ fuel ih =>
        rw [eraseDatablks]
        refine ((orIoErr_within (loadPage_within h)).mono fun _ _ => trivial).bind fun _ => ?_
        refine (eraseInPage_within h _ _).bind fun prev => ?_
        refine ((orIoErr_within (storePage_within h)).mono fun _ _ => trivial).bind fun _ => ?_
        split
        · exact ih prev
        · exact Within.pure ()
  exact herase _ cur

/-- A collection leaves the handle and fails with an I/O error or hangs. -/
theorem collectGarbage_within (h : DeviceFree P) : Within P IoOrHang (collectGarbage uninit) := by
  rw [collectGarbage]
  refine (collectObsolete_within (deleteDatablks_within h) _ _ _).bind fun r => ?_
  refine (deleteFiles_within _ _).bind fun _ => ?_
  refine (orIoErr_within (loadPage_within h)).bind fun _ => ?_
  refine (modifyPage_within fun w hw => h.page w _ hw).bind fun _ => ?_
  refine (modifyPage_within fun w hw => h.page w _ hw).bind fun _ => ?_
  exact orIoErr_within (storePage_within h)

end Errors

section Erased

variable {A : Set ℕ}

/-- Addresses of the inode table. -/
def InTable (A : Set ℕ) : Prop := ∀ x ∈ A, inodeTabStart ≤ x ∧ x < garbagePageTabStart

def ErasedOn (A : Set ℕ) (m : Mem) : Prop := ∀ x ∈ A, m x = 0xFF

/-- The page buffer too, when it holds the metadata page. -/
structure ErasedIn (A : Set ℕ) (p : ℕ) (w : Fs) : Prop where
  mem : ErasedOn A w.mem
  page : p = metadataPageIdx → ErasedOn A w.page

theorem loadPage_erased (hA : InTable A) (h : ErasedOn A w.mem) :
    ErasedOn A (stateAfter (loadPage p w)).mem ∧
      ∀ a u, loadPage p w = .ok a u → ErasedIn A p u := by
  by_cases hp : p < ramdiskPageNum
  · rw [loadPage_of_lt hp]
    dsimp only [stateAfter]
    refine ⟨h, fun a u hu => ?_⟩
    cases hu
    refine ⟨h, fun hmeta x hx => ?_⟩
    have htab : garbagePageTabStart = 1984 := rfl
    have hx' := (hA x hx).2
    subst hmeta
    have hload : loadedPage w metadataPageIdx x = w.mem x := loadedPage_apply (by omega)
    dsimp only
    rw [hload]
    exact h x hx
  · rw [loadPage, if_pos (Nat.not_lt.mp hp)]
    exact ⟨h, fun a u hu => by cases hu⟩

theorem eraseInPage_erased (fuel cur : ℕ) : Within (ErasedIn A p) (fun _ => True) (eraseInPage p fuel cur) := by
  induction fuel generalizing cur with
  | zero => exact Within.throw trivial
  | succ fuel ih =>
      have hread (addr : ℕ) : ReadOnly (cpuRead addr) := fun _ => rfl
      rw [eraseInPage]
      refine ((hread _).within fun _ _ _ _ => trivial).bind fun prev => ?_
      have herase : Within (ErasedIn A p) (fun _ => True) (modifyPage fun page =>
          put page (usub cur (pageAddr cur)) (List.replicate 128 0xFF)) := by
        refine modifyPage_within fun w hw => ⟨hw.mem, fun hmeta x hx => ?_⟩
        change put w.page (usub cur (pageAddr cur)) (List.replicate 128 0xFF) x = 0xFF
        rw [put_replicate]
        split
        · rfl
        · exact hw.page hmeta x hx
      refine herase.bind fun _ => ?_
      split
      · exact ih prev
      · exact Within.pure prev

theorem storePage_erased (hA : InTable A) (h : ErasedIn A p w) : ErasedOn A (stateAfter (storePage p w)).mem := by
  have htab : garbagePageTabStart = 1984 := rfl
  have hstart : swapPageStart = 4190208 := rfl
  by_cases hmeta : p = metadataPageIdx
  · subst hmeta
    intro x hx
    have hx' := (hA x hx).2
    rw [storePage_metadata_run]
    dsimp only [stateAfter]
    rw [metadataStored_apply, if_neg (by omega), if_pos (by omega), put_of_lt (by omega)]
    exact h.page rfl x hx
  · have hsame := storePage_elsewhere (m := w.mem) (p := p) w fun _ _ => rfl
    intro x hx
    obtain ⟨hlo, hx'⟩ := hA x hx
    have hpos : 0 < p := Nat.pos_of_ne_zero hmeta
    have hpage : x < p * ramdiskPageSize := by
      change x < p * 4096
      omega
    rw [hsame.1 x ⟨Or.inl hx', by omega, Or.inl hpage⟩]
    exact h.mem x hx

theorem orIoErr_stateAfter (x : FsM Unit) (w : Fs) : stateAfter (orIoErr x w) = stateAfter (x w) := by
  cases hrun : x w with
  | ok a u =>
      rw [orIoErr_ok hrun]
  | error e u =>
      simp only [orIoErr, tryCatch, tryCatchThe, MonadExceptOf.tryCatch, EStateM.tryCatch, hrun]
      rfl

theorem orIoErr_eq_ok {x : FsM Unit} {a : Unit} {u : Fs} (h : orIoErr x w = .ok a u) : x w = .ok a u := by
  cases hrun : x w with
  | ok b v => exact (orIoErr_ok hrun).symm.trans h
  | error e v =>
      simp only [orIoErr, tryCatch, tryCatchThe, MonadExceptOf.tryCatch, EStateM.tryCatch, hrun] at h
      cases h

theorem eraseDatablks_erased (hA : InTable A) (fuel cur : ℕ) :
    Within (fun w => ErasedOn A w.mem) (fun _ => True) (eraseDatablks fuel cur) := by
  induction fuel generalizing cur with
  | zero => exact Within.throw trivial
  | succ fuel ih =>
      intro w hw
      refine ⟨?_, fun _ _ _ => trivial⟩
      rw [eraseDatablks]
      obtain ⟨hload, hloaded⟩ := loadPage_erased (p := pageIdxOf cur) hA hw
      rw [← orIoErr_stateAfter] at hload
      cases hrun : orIoErr (loadPage (pageIdxOf cur)) w with
      | error e u =>
          rw [hrun] at hload
          rw [bind_error hrun]
          exact hload
      | ok a u =>
          have hu := hloaded a u (orIoErr_eq_ok hrun)
          rw [bind_ok hrun]
          obtain ⟨herase, -⟩ := eraseInPage_erased Word.size cur u hu
          cases hrun' : eraseInPage (pageIdxOf cur) Word.size cur u with
          | error e v =>
              rw [hrun'] at herase
              rw [bind_error hrun']
              exact herase.mem
          | ok prev v =>
              rw [hrun'] at herase
              rw [bind_ok hrun']
              have hstore := storePage_erased hA herase
              rw [← orIoErr_stateAfter] at hstore
              change ErasedOn A (stateAfter (orIoErr (storePage (pageIdxOf cur)) v)).mem at hstore
              cases hrun'' : orIoErr (storePage (pageIdxOf cur)) v with
              | error e x =>
                  rw [hrun''] at hstore
                  rw [bind_error hrun'']
                  exact hstore
              | ok b x =>
                  rw [hrun''] at hstore
                  rw [bind_ok hrun'']
                  split
                  · exact (ih prev x hstore).1
                  · exact hstore

theorem deleteDatablks_erased (hA : InTable A) (inode : SlfsInode) :
    Within (fun w => ErasedOn A w.mem) (fun _ => True) (deleteDatablks inode uninit) := by
  rw [deleteDatablks]
  refine ((lastDatablk_readOnly _ _ _).within fun _ _ _ _ => trivial).bind fun cur => ?_
  exact eraseDatablks_erased hA _ cur

end Erased

section LastPass

variable {deleted : List (ℕ × ℕ)} {page : Mem}

theorem eraseInode_cases (page : Mem) (i x : ℕ) : eraseInode page i x = page x ∨ eraseInode page i x = 0xFF := by
  rw [eraseInode, put_replicate]
  split
  · exact Or.inr rfl
  · exact Or.inl rfl

/-- The last pass only erases. -/
theorem cleanInode_erased {x : ℕ} (h : page x = 0xFF) : cleanInode deleted page i x = 0xFF := by
  have herase (q : Mem) (hq : q x = 0xFF) : eraseInode q i x = 0xFF :=
    (eraseInode_cases q i x).elim (fun heq => heq.trans hq) id
  rw [cleanInode]
  split
  · split
    · exact herase _ (herase page h)
    · exact herase page h
  · split
    · exact herase page h
    · exact h

theorem eraseInode_slot (hi : i < inodeMaxCnt) : ∀ x < 56, eraseInode page i (inodeAddr i + x) = 0xFF := by
  intro x hx
  rw [eraseInode, slotAddr_eq hi, put_replicate]
  exact if_pos ⟨Nat.le_add_right _ _, Nat.add_lt_add_left hx _⟩

theorem cleanInode_dangling (hi : i < inodeMaxCnt) (hcnt : word page (inodeAddr i + 4) = minusOne) :
    ∀ x < 56, cleanInode deleted page i (inodeAddr i + x) = 0xFF := by
  intro x hx
  have hslot : eraseInode page i (inodeAddr i + x) = 0xFF := eraseInode_slot hi x hx
  rw [← slotAddr_eq hi] at hcnt
  rw [cleanInode]
  simp only [if_pos hcnt]
  split
  · exact eraseInode_slot hi x hx
  · exact hslot

theorem foldl_cleanInode_erased {is : List ℕ} {x : ℕ} (h : page x = 0xFF) :
    is.foldl (cleanInode deleted) page x = 0xFF := by
  induction is generalizing page with
  | nil => exact h
  | cons i is ih => exact ih (cleanInode_erased h)

theorem foldl_cleanInode_dangling {is : List ℕ} (hi : i < inodeMaxCnt) (his : i ∈ is)
    (hcnt : ∀ x, 4 ≤ x → x < 8 → page (inodeAddr i + x) = 0xFF) :
    ∀ x < 56, is.foldl (cleanInode deleted) page (inodeAddr i + x) = 0xFF := by
  induction is generalizing page with
  | nil => cases his
  | cons j is ih =>
      intro x hx
      rw [List.foldl_cons]
      by_cases hij : i = j
      · subst hij
        have hword : word page (inodeAddr i + 4) = minusOne := by
          refine word_eq_max.mpr fun k hk => ?_
          rw [Nat.add_assoc]
          exact hcnt (4 + k) (by omega) (by omega)
        exact foldl_cleanInode_erased (cleanInode_dangling hi hword x hx)
      · have hrest : i ∈ is := (List.mem_cons.mp his).resolve_left hij
        exact ih hrest (fun y hlo hhi => cleanInode_erased (hcnt y hlo hhi)) x hx

/-- A collection that returns has freed a dangling inode. -/
theorem collectGarbage_dangling (hi : i < inodeMaxCnt) (hcnt : (inodeAt v.mem i).updateCnt = minusOne)
    (hrun : collectGarbage uninit v = .ok () w) : freeInode w.mem ≠ none := by
  have hi' : i < 32 := hi
  have haddr := inodeAddr_eq hi
  have htab : garbagePageTabStart = 1984 := rfl
  have hstart : swapPageStart = 4190208 := rfl
  obtain ⟨A, hA⟩ : ∃ A : Set ℕ, A = { x | inodeAddr i + 4 ≤ x ∧ x < inodeAddr i + 8 } := ⟨_, rfl⟩
  have hmem {x : ℕ} : x ∈ A ↔ inodeAddr i + 4 ≤ x ∧ x < inodeAddr i + 8 := by rw [hA]; exact Iff.rfl
  have hin : InTable A := fun x hx => by
    have hx' := hmem.mp hx
    have hfirst : inodeTabStart = 192 := rfl
    omega
  have hdangling : ErasedOn A v.mem := fun x hx => by
    obtain ⟨hlo, hhi⟩ := hmem.mp hx
    have hbyte := word_eq_max.mp hcnt (x - (inodeAddr i + 4)) (by omega)
    rwa [Nat.add_sub_cancel' hlo] at hbyte
  rw [collectGarbage] at hrun
  obtain ⟨⟨deleted, last⟩, v₁, hobs, hrun₁⟩ := bind_eq_ok hrun
  have herased : ErasedOn A v₁.mem := by
    have hdels (inode : SlfsInode) : Within (fun w => ErasedOn A w.mem) (fun _ => True)
      (deleteDatablks inode uninit) := deleteDatablks_erased hin inode
    have hkeep := collectObsolete_within hdels (List.range inodeMaxCnt) [] uninit.inode v hdangling
    rw [hobs] at hkeep
    exact hkeep.1
  obtain ⟨_, v₂, hdel, hrun₂⟩ := bind_eq_ok hrun₁
  obtain rfl : v₂ = v₁ := by
    have hcases : deleteFiles uninit deleted last v₁ = .error .io v₁ ∨ _ := deleteFiles_cases deleted last
    rcases hcases with herr | ⟨hok, -⟩
    · rw [herr] at hdel
      cases hdel
    · rw [hok] at hdel
      cases hdel
      rfl
  rw [bind_ok loadMetadata_run, modifyPage_bind, modifyPage_bind] at hrun₂
  obtain ⟨page, hpage⟩ : ∃ page, page = put (loadedPage v₂ metadataPageIdx) garbagePageTabStart
    (List.replicate garbagePageTabSize 0xFF) := ⟨_, rfl⟩
  dsimp only at hrun₂
  rw [← hpage] at hrun₂
  have hstore := orIoErr_eq_ok hrun₂
  rw [storePage_metadata_run] at hstore
  cases hstore
  intro hnone
  have hused := freeInode_eq_none.mp hnone i hi
  rw [slotAddr_eq hi] at hused
  refine hused (word_eq_max.mpr fun k hk => ?_)
  dsimp only
  rw [metadataStored_apply, if_neg (by omega), if_pos (by omega), put_of_lt (by omega), Nat.add_assoc]
  refine foldl_cleanInode_dangling hi (List.mem_range.mpr hi) (fun x hlo hhi => ?_) (8 + k) (by omega)
  rw [hpage, put_of_lt (by omega), loadedPage_apply (by omega)]
  exact herased _ (hmem.mpr (by omega))

end LastPass

theorem freeInode_ne_none (hi : i < inodeMaxCnt) (h : (inodeAt m i).fileSize = minusOne) : freeInode m ≠ none := by
  intro hnone
  have hused := freeInode_eq_none.mp hnone i hi
  rw [slotAddr_eq hi] at hused
  exact hused h

/-- No inode is free, and none is after a collection: every slot holds a completed version. -/
theorem takeInode_noInode (h : takeInode uninit w = .error .noInode v) : FullTable w.mem := by
  cases hfree : freeInode w.mem with
  | some i =>
      obtain ⟨u, hok, -⟩ : ∃ u, takeInode uninit w = .ok () u ∧ _ := takeInode_of_some hfree
      rw [hok] at h
      cases h
  | none =>
      intro i hi
      have hsize : (inodeAt w.mem i).fileSize ≠ minusOne := fun hsize => freeInode_ne_none hi hsize hfree
      refine ⟨hsize, fun hcnt => ?_⟩
      rw [takeInode_of_none hfree] at h
      cases hrun : collectGarbage uninit { w with page := loadedPage w metadataPageIdx } with
      | error e u =>
          rw [bind_error hrun] at h
          cases h
          have hP : DeviceFree fun _ => True := ⟨fun _ _ _ => trivial, fun _ _ _ => trivial⟩
          rcases (collectGarbage_within hP _ trivial).2 _ _ hrun with hio | hhang
          · cases hio
          · cases hhang
      | ok a u =>
          have hsome := collectGarbage_dangling (v := { w with page := loadedPage w metadataPageIdx }) hi hcnt hrun
          obtain ⟨j, hj⟩ := Option.ne_none_iff_exists'.mp hsome
          rw [bind_ok hrun, updateFp_of_some hj] at h
          cases h

end Slos.Slfs
