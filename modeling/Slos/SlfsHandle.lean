import Slos.Machine
import Slos.SlfsAtomic
import Slos.SlfsNextFile

/-!
# The position of a handle

Sequences of the calls on one handle. Each leaves the position within the file and a seek goes where it is
told, but for two: the sum of a `SEEK_CUR` may wrap, and is then always in the file, and
`slfs_get_next_file` puts another file into the handle at the position it had.
-/

namespace Slos.Slfs
open Word ByteMemory Ramdisk

variable {w v : Fs} {P : Fs → Prop} {E : FsErr → Prop} {pbuf : Mem} {len n offset : ℕ} {whence : SeekWhence}
  {uninit : Uninit}

inductive FileCall
  | slfsOpen (pname : ℕ → UInt8)
  | slfsSeek (offset : ℕ) (whence : SeekWhence)
  | slfsRead (n : ℕ)
  | slfsWrite (pbuf : Mem) (n : ℕ) (uninit : Uninit)
  /-- `garbage` is what the array of ids holds at first. -/
  | slfsGetNextFile (garbage : ℕ → ℕ) (inodeLoc : ℕ)
  | slfsClose

def FileCall.run : FileCall → FsM Unit
  | .slfsOpen pname => Slfs.slfsOpen pname
  | .slfsSeek offset whence => Slfs.slfsSeek offset whence
  | .slfsRead n => Slfs.slfsRead n
  | .slfsWrite pbuf n uninit => Slfs.slfsWrite pbuf n uninit
  | .slfsGetNextFile garbage inodeLoc => Slfs.slfsGetNextFile garbage inodeLoc >>= fun _ => pure ()
  | .slfsClose => Slfs.slfsClose >>= fun _ => pure ()

/-- A call that does not return has no state after it. -/
def fileStep (w : Fs) (c : FileCall) : Option Fs :=
  match c.run w with
  | .error .hang _ => none
  | r => some (stateAfter r)

/-- The arguments are 32-bit words. -/
def FileCall.Words : FileCall → Prop
  | .slfsSeek offset _ => offset < size
  | .slfsWrite _ n _ => n < size
  | _ => True

/-- Where a seek is told to go, which may be outside the file. -/
def seekTarget (pf : SlfsFile) (offset : ℕ) : SeekWhence → ℤ
  | .seekSet => offset
  | .seekCur => pf.pos + offset
  | .seekEnd => pf.fileSize - offset

/-- What one call has to do. -/
structure CallLaw (w : Fs) (c : FileCall) : Prop where
  inside : ∀ v, fileStep w c = some v → v.file.pos ≤ v.file.fileSize
  refused : ∀ offset whence, c = .slfsSeek offset whence → ∀ e v, slfsSeek offset whence w = .error e v →
    v.file = w.file
  moved : ∀ offset whence, c = .slfsSeek offset whence → ∀ v, slfsSeek offset whence w = .ok () v →
    (v.file.pos : ℤ) = seekTarget w.file offset whence

/-- The sum of a `SEEK_CUR` on an open file does not wrap, and the first inode that `slfs_get_next_file`
shows is of a file that reaches to the position. -/
def Fitting (w : Fs) : FileCall → Prop
  | .slfsSeek offset .seekCur => w.file.openCnt ≠ 0 → w.file.pos + offset < size
  | .slfsGetNextFile garbage inodeLoc => ∀ i < inodeMaxCnt, inodeLoc ≤ i → Shown (descOf garbage w.mem) w.mem i →
      (∀ j < i, inodeLoc ≤ j → ¬ Shown (descOf garbage w.mem) w.mem j) → w.file.pos ≤ (inodeAt w.mem i).fileSize
  | _ => True

structure Positioned (w : Fs) : Prop where
  pos : w.file.pos ≤ w.file.fileSize
  fileSize : w.file.fileSize < size

/-- The handle has its position in a file, or is opened first. -/
def Begins (w : Fs) : List FileCall → Prop
  | .slfsOpen _ :: _ => True
  | _ => Positioned w

section Calls

theorem positioned_growing : Growing Positioned := by
  constructor
  · constructor
    · exact fun w m h => ⟨h.pos, h.fileSize⟩
    · exact fun w page h => ⟨h.pos, h.fileSize⟩
  · exact fun w a h => ⟨h.pos, h.fileSize⟩
  · exact fun w k h => ⟨h.pos, h.fileSize⟩
  · exact fun w k h hle hlt => ⟨h.pos.trans hle, hlt⟩

theorem updateFp_within (hP : DeviceFree P) (hfile : ∀ w i, P w → P { w with file := takenInode w.file i }) :
    Within P (fun _ => True) updateFp := by
  intro w hw
  cases hfree : freeInode w.mem with
  | none =>
      rw [updateFp_of_none hfree]
      exact ⟨hP.page w _ hw, fun _ _ _ => trivial⟩
  | some i =>
      obtain ⟨page, hpage⟩ : ∃ page, page = loadedPage w metadataPageIdx := ⟨_, rfl⟩
      rw [updateFp_of_some hfree, ← hpage]
      exact ⟨hfile { w with page := page } i (hP.page w page hw), fun _ _ _ => trivial⟩

theorem takeInode_within (hP : DeviceFree P) (hfile : ∀ w i, P w → P { w with file := takenInode w.file i }) :
    Within P (fun _ => True) (takeInode uninit) := by
  refine (updateFp_within hP hfile).tryCatch fun e => ?_
  split
  · have hcollect : Within P (fun _ => True) (collectGarbage uninit) :=
      (collectGarbage_within hP).mono fun _ _ => trivial
    exact hcollect.bind fun _ => updateFp_within hP hfile
  · exact Within.throw trivial

theorem Positioned.grown (h : Positioned w) (hlen : len < size) :
    Positioned { w with file := { w.file with fileSize := grownSize w.file len } } := by
  have hpos := h.pos
  have hsize := h.fileSize
  have hsum := u32_lt (w.file.pos + len)
  constructor
  · change w.file.pos ≤ grownSize w.file len
    unfold grownSize
    split_ifs <;> omega
  · change grownSize w.file len < size
    unfold grownSize
    split_ifs <;> omega

theorem Positioned.slfsWrite (h : Positioned w) (hlen : len < size) :
    Positioned (stateAfter (slfsWrite pbuf len uninit w)) := by
  by_cases hopen : w.file.openCnt = 0
  · rw [Slfs.slfsWrite, getFile_bind, if_pos hopen]
    exact h
  · rcases Nat.eq_zero_or_pos len with hzero | hpos
    · rw [Slfs.slfsWrite, getFile_bind, if_neg hopen, if_pos hzero]
      exact h
    · have hfree : DeviceFree Positioned := positioned_growing.toDeviceFree
      have htake : Within Positioned (fun _ => True) (takeInode uninit) :=
        takeInode_within hfree fun w i h => ⟨h.pos, h.fileSize⟩
      rw [slfsWrite_steps hopen hpos]
      refine ((htake.bind fun _ => (takeDatablks_within positioned_growing).bind fun _ => ?_) _ (h.grown hlen)).1
      exact (rest_within hfree).mono fun _ _ => trivial

theorem slfsRead_file : (stateAfter (slfsRead n w)).file = w.file := by
  have hinto (a k b : ℕ) : Within (fun v => v.file = w.file) (fun _ => True) (readInto a k b) := by
    intro v hv
    rw [readInto]
    split
    · exact ⟨hv, fun _ _ _ => trivial⟩
    · exact ⟨hv, fun _ _ _ => trivial⟩
  have hblks (fuel a b k : ℕ) : Within (fun v => v.file = w.file) (fun _ => True) (readBlks fuel a b k) := by
    induction fuel generalizing a b k with
    | zero => exact Within.pure ()
    | succ fuel ih =>
        rw [readBlks]
        split
        · exact Within.pure ()
        · exact (readWord_within _ trivial).bind fun next => (hinto _ _ _).bind fun _ => ih _ _ _
  have hloop (idx a : ℕ) : Within (fun v => v.file = w.file) (fun _ => True) (getDatablkAddrLoop idx a) := by
    induction idx generalizing a with
    | zero => exact Within.pure a
    | succ idx ih =>
        rw [getDatablkAddrLoop]
        split
        · exact Within.pure a
        · exact (readWord_within _ trivial).bind fun next => ih next
  have haddr (idx : ℕ) : Within (fun v => v.file = w.file) (fun _ => True) (getDatablkAddr idx) := by
    rw [getDatablkAddr]
    refine getFile_within.bind fun pf => ?_
    split
    · exact Within.throw trivial
    · refine (hloop _ _).bind fun cur => ?_
      split
      · exact Within.throw trivial
      · exact Within.pure cur
  have hread : Within (fun v => v.file = w.file) (fun _ => True) (slfsRead n) := by
    rw [slfsRead]
    refine getFile_within.bind fun pf => ?_
    split
    · exact Within.throw trivial
    · dsimp only
      exact (haddr _).bind fun a => (hinto _ _ _).bind fun _ => hblks _ _ _ _
  exact (hread w rfl).1

theorem slfsOpen_positioned (pname : ℕ → UInt8) (w : Fs) : Positioned (stateAfter (slfsOpen pname w)) := by
  have hpos : (stateAfter (slfsOpen pname w)).file.pos = 0 := slfsOpen_pos
  constructor
  · rw [hpos]
    exact Nat.zero_le _
  · have hcases : (stateAfter (slfsOpen pname w)).file = openNew w.file pname ∨ _ := slfsOpen_cases
    rcases hcases with hfile | ⟨i, num, -, hfile⟩
    · rw [hfile]
      exact (by decide : 0 < size)
    · rw [hfile]
      exact word_lt _ _

end Calls

section Seek

/-- The position a seek computes. -/
def seekPos (pf : SlfsFile) (offset : ℕ) : SeekWhence → ℕ
  | .seekSet => offset
  | .seekCur => u32 (pf.pos + offset)
  | .seekEnd => usub pf.fileSize offset

theorem slfsSeek_run : slfsSeek offset whence w =
    if w.file.openCnt = 0 ∨ w.file.fileSize < seekPos w.file offset whence then .error .fileParam w
    else .ok () { w with file := { w.file with pos := seekPos w.file offset whence } } := by
  rw [slfsSeek, getFile_bind]
  by_cases hopen : w.file.openCnt = 0
  · rw [if_pos hopen, if_pos (Or.inl hopen), throw_run]
  · rw [if_neg hopen]
    by_cases hpos : w.file.fileSize < seekPos w.file offset whence
    · rw [if_pos (Or.inr hpos)]
      cases whence <;> exact congrFun (if_pos hpos) w
    · rw [if_neg (not_or.mpr ⟨hopen, hpos⟩)]
      cases whence <;> exact congrFun (if_neg hpos) w

/-- A sum that wraps is below the position. -/
theorem seekPos_iff (h : Positioned w) (hoffset : offset < size) :
    (seekPos w.file offset whence ≤ w.file.fileSize →
      (seekPos w.file offset whence : ℤ) = seekTarget w.file offset whence) ↔
        (whence = .seekCur → w.file.pos + offset < size) := by
  have hpos := h.pos
  have hsize := h.fileSize
  cases whence with
  | seekSet => exact iff_of_true (fun _ => rfl) (fun hw => by cases hw)
  | seekCur =>
      change (u32 (w.file.pos + offset) ≤ w.file.fileSize →
        (u32 (w.file.pos + offset) : ℤ) = w.file.pos + offset) ↔ _
      unfold u32 size at *
      constructor
      · intro hmoved _
        by_contra hwrap
        have hmod : (w.file.pos + offset) % 4294967296 = w.file.pos + offset - 4294967296 := by omega
        have hinside : (w.file.pos + offset) % 4294967296 ≤ w.file.fileSize := by omega
        have := hmoved hinside
        omega
      · intro hlt _
        have := hlt rfl
        omega
  | seekEnd =>
      refine iff_of_true (fun hinside => ?_) (fun hw => by cases hw)
      change (usub w.file.fileSize offset : ℤ) = w.file.fileSize - offset
      change usub w.file.fileSize offset ≤ w.file.fileSize at hinside
      unfold usub size at *
      omega

end Seek

section Law

theorem fileStep_eq {c : FileCall} (h : fileStep w c = some v) : v = stateAfter (c.run w) := by
  rw [fileStep] at h
  split at h
  · cases h
  · exact (Option.some.inj h).symm

/-- Only a seek is judged by more than the position it leaves. -/
theorem callLaw_of_positioned {c : FileCall} (hc : ∀ offset whence, c ≠ .slfsSeek offset whence)
    (h : Positioned (stateAfter (c.run w))) : CallLaw w c := by
  constructor
  · intro v hv
    rw [fileStep_eq hv]
    exact h.pos
  · intro offset whence he
    exact absurd he (hc offset whence)
  · intro offset whence he
    exact absurd he (hc offset whence)

theorem seek_callLaw_iff (h : Positioned w) (hoffset : offset < size) :
    CallLaw w (.slfsSeek offset whence) ↔ Fitting w (.slfsSeek offset whence) := by
  have hfitting : Fitting w (.slfsSeek offset whence) ↔
      (w.file.openCnt ≠ 0 → whence = .seekCur → w.file.pos + offset < size) := by
    cases whence with
    | seekCur =>
        constructor
        · exact fun hfit hopen _ => hfit hopen
        · exact fun hfit hopen => hfit hopen rfl
    | seekSet => exact iff_of_true trivial fun _ hw => by cases hw
    | seekEnd => exact iff_of_true trivial fun _ hw => by cases hw
  rw [hfitting, ← forall_congr' fun _ => seekPos_iff h hoffset]
  constructor
  · intro hlaw hopen hinside
    exact hlaw.moved offset whence rfl _ (slfsSeek_run.trans (if_neg (not_or.mpr ⟨hopen, Nat.not_lt.mpr hinside⟩)))
  · intro hmoved
    have hcases : (∃ e, slfsSeek offset whence w = .error e w) ∨ w.file.openCnt ≠ 0 ∧
        seekPos w.file offset whence ≤ w.file.fileSize ∧ slfsSeek offset whence w =
          .ok () { w with file := { w.file with pos := seekPos w.file offset whence } } := by
      rw [slfsSeek_run]
      by_cases hrefused : w.file.openCnt = 0 ∨ w.file.fileSize < seekPos w.file offset whence
      · rw [if_pos hrefused]
        exact Or.inl ⟨_, rfl⟩
      · rw [if_neg hrefused]
        obtain ⟨hopen, hinside⟩ := not_or.mp hrefused
        exact Or.inr ⟨hopen, Nat.not_lt.mp hinside, rfl⟩
    constructor
    · intro v hv
      rw [fileStep_eq hv]
      change (stateAfter (slfsSeek offset whence w)).file.pos ≤ (stateAfter (slfsSeek offset whence w)).file.fileSize
      rcases hcases with ⟨e, herror⟩ | ⟨-, hinside, hok⟩
      · rw [herror]
        exact h.pos
      · rw [hok]
        exact hinside
    · rintro _ _ ⟨⟩ e v hrun
      rcases hcases with ⟨e', herror⟩ | ⟨-, -, hok⟩
      · rw [herror] at hrun
        cases hrun
        rfl
      · rw [hok] at hrun
        cases hrun
    · rintro _ _ ⟨⟩ v hrun
      rcases hcases with ⟨e', herror⟩ | ⟨hopen, hinside, hok⟩
      · rw [herror] at hrun
        cases hrun
      · rw [hok] at hrun
        cases hrun
        exact hmoved hopen hinside

theorem next_callLaw_iff (h : Positioned w) {garbage : ℕ → ℕ} {loc : ℕ} :
    CallLaw w (.slfsGetNextFile garbage loc) ↔ Fitting w (.slfsGetNextFile garbage loc) := by
  have hrun : (FileCall.slfsGetNextFile garbage loc).run w =
      (slfsGetNextFile garbage loc >>= fun _ => pure ()) w := rfl
  have hnot : ∀ offset whence, FileCall.slfsGetNextFile garbage loc ≠ .slfsSeek offset whence := by
    intro offset whence he
    cases he
  cases hnext : nextShown garbage w.mem loc with
  | none =>
      apply iff_of_true
      · apply callLaw_of_positioned hnot
        rw [hrun, bind_ok (slfsGetNextFile_none hnext)]
        exact h
      · intro i hi hle hshown hbefore
        rw [nextShown_eq_some.mpr ⟨⟨hi, hle⟩, hshown, hbefore⟩] at hnext
        cases hnext
  | some i =>
      obtain ⟨⟨hi, hle⟩, hshown, hbefore⟩ := nextShown_eq_some.mp hnext
      rw [bind_ok (slfsGetNextFile_some hnext)] at hrun
      have hsize : (nextFile w.file (readInode w.mem i)).fileSize = (inodeAt w.mem i).fileSize := readInode_fileSize
      constructor
      · intro hlaw j hj hlej hshownj hbeforej
        have hsame := nextShown_eq_some.mpr ⟨⟨hj, hlej⟩, hshownj, hbeforej⟩
        obtain rfl := Option.some.inj (hnext.symm.trans hsame)
        have hstep : fileStep w (.slfsGetNextFile garbage loc) =
            some { w with file := nextFile w.file (readInode w.mem i) } := by
          rw [fileStep, hrun]
          rfl
        have hinside := hlaw.inside _ hstep
        rwa [hsize] at hinside
      · intro hfit
        apply callLaw_of_positioned hnot
        rw [hrun]
        constructor
        · change w.file.pos ≤ (nextFile w.file (readInode w.mem i)).fileSize
          rw [hsize]
          exact hfit i hi hle hshown hbefore
        · change (nextFile w.file (readInode w.mem i)).fileSize < size
          rw [hsize]
          exact word_lt _ _

theorem closed_positioned (h : Positioned w) : Positioned (stateAfter (FileCall.slfsClose.run w)) := by
  have hrun : FileCall.slfsClose.run w = (slfsClose >>= fun _ => pure ()) w := rfl
  by_cases hfd : w.file.fd = minusOne
  · have hclose : slfsClose w = .ok .nullPtrErr w := by
      rw [slfsClose, getFile_bind, if_pos hfd, pure_run]
    rw [hrun, bind_ok hclose]
    exact h
  · have hclose : slfsClose w = .ok .noErr { w with file := closedFile w.file } := by
      rw [slfsClose, getFile_bind, if_neg hfd, modifyFile_bind, pure_run]
    rw [hrun, bind_ok hclose]
    exact ⟨le_rfl, (by decide : 0 < size)⟩

theorem read_positioned (h : Positioned w) : Positioned (stateAfter (slfsRead n w)) := by
  have hfile : (stateAfter (slfsRead n w)).file = w.file := slfsRead_file
  constructor
  · rw [hfile]
    exact h.pos
  · rw [hfile]
    exact h.fileSize

theorem callLaw_iff (h : Positioned w) {c : FileCall} (hc : c.Words) : CallLaw w c ↔ Fitting w c := by
  cases c with
  | slfsOpen pname =>
      exact iff_of_true (callLaw_of_positioned (fun _ _ => nofun) (slfsOpen_positioned pname w)) trivial
  | slfsSeek offset whence => exact seek_callLaw_iff h hc
  | slfsRead n => exact iff_of_true (callLaw_of_positioned (fun _ _ => nofun) (read_positioned h)) trivial
  | slfsWrite pbuf n uninit =>
      exact iff_of_true (callLaw_of_positioned (fun _ _ => nofun) (h.slfsWrite hc)) trivial
  | slfsGetNextFile garbage loc => exact next_callLaw_iff h
  | slfsClose => exact iff_of_true (callLaw_of_positioned (fun _ _ => nofun) (closed_positioned h)) trivial

/-- No call puts more than 32 bits into the size. -/
theorem step_positioned (h : Positioned w) {c : FileCall} (hc : c.Words) (hlaw : CallLaw w c)
    (hstep : fileStep w c = some v) : Positioned v := by
  refine ⟨hlaw.inside v hstep, ?_⟩
  rw [fileStep_eq hstep]
  cases c with
  | slfsOpen pname => exact (slfsOpen_positioned pname w).fileSize
  | slfsSeek offset whence =>
      change (stateAfter (slfsSeek offset whence w)).file.fileSize < size
      rw [slfsSeek_run]
      split
      · exact h.fileSize
      · exact h.fileSize
  | slfsRead n => exact (read_positioned h).fileSize
  | slfsWrite pbuf n uninit => exact (h.slfsWrite hc).fileSize
  | slfsGetNextFile garbage loc =>
      change (stateAfter ((slfsGetNextFile garbage loc >>= fun _ => pure ()) w)).file.fileSize < size
      cases hnext : nextShown garbage w.mem loc with
      | none =>
          rw [bind_ok (slfsGetNextFile_none hnext)]
          exact h.fileSize
      | some i =>
          rw [bind_ok (slfsGetNextFile_some hnext)]
          exact word_lt _ _
  | slfsClose => exact (closed_positioned h).fileSize

theorem positioned_run_iff {calls : List FileCall} (h : Positioned w) (hwords : ∀ c ∈ calls, c.Words) :
    Machine.StepsMeet fileStep CallLaw w calls ↔ Machine.StepsMeet fileStep Fitting w calls := by
  induction calls generalizing w with
  | nil => exact iff_of_true trivial trivial
  | cons c cs ih =>
      have hc := hwords c List.mem_cons_self
      have hcs : ∀ d ∈ cs, d.Words := fun d hd => hwords d (List.mem_cons_of_mem _ hd)
      constructor
      · intro hlaw v hv
        obtain ⟨hcall, hrest⟩ := hlaw v hv
        exact ⟨(callLaw_iff h hc).mp hcall, (ih (step_positioned h hc hcall hv) hcs).mp hrest⟩
      · intro hfit v hv
        obtain ⟨hcall, hrest⟩ := hfit v hv
        have hlaw := (callLaw_iff h hc).mpr hcall
        exact ⟨hlaw, (ih (step_positioned h hc hlaw hv) hcs).mpr hrest⟩

/-- In every sequence of calls, all of them do what they have to exactly when all are fitting. -/
theorem handle_law_iff {calls : List FileCall} (hstart : Begins w calls) (hwords : ∀ c ∈ calls, c.Words) :
    Machine.StepsMeet fileStep CallLaw w calls ↔ Machine.StepsMeet fileStep Fitting w calls := by
  match calls, hstart with
  | [], _ => exact iff_of_true trivial trivial
  | .slfsOpen pname :: cs, _ =>
      have hcs : ∀ d ∈ cs, d.Words := fun d hd => hwords d (List.mem_cons_of_mem _ hd)
      have hopened := slfsOpen_positioned pname w
      have hlaw : CallLaw w (.slfsOpen pname) := callLaw_of_positioned (fun _ _ => nofun) hopened
      have hrest {v : Fs} (hv : fileStep w (.slfsOpen pname) = some v) := positioned_run_iff (fileStep_eq hv ▸ hopened) hcs
      constructor
      · intro h v hv
        exact ⟨trivial, (hrest hv).mp (h v hv).2⟩
      · intro h v hv
        exact ⟨hlaw, (hrest hv).mpr (h v hv).2⟩
  | .slfsSeek offset whence :: cs, h => exact positioned_run_iff h hwords
  | .slfsRead n :: cs, h => exact positioned_run_iff h hwords
  | .slfsWrite pbuf n uninit :: cs, h => exact positioned_run_iff h hwords
  | .slfsGetNextFile garbage loc :: cs, h => exact positioned_run_iff h hwords
  | .slfsClose :: cs, h => exact positioned_run_iff h hwords

theorem fitting_next {garbage : ℕ → ℕ} {loc i : ℕ} (hnext : nextShown garbage w.mem loc = some i)
    (hpos : w.file.pos ≤ (inodeAt w.mem i).fileSize) : Fitting w (.slfsGetNextFile garbage loc) := by
  intro j hj hle hshown hbefore
  have hsame : nextShown garbage w.mem loc = some j := nextShown_eq_some.mpr ⟨⟨hj, hle⟩, hshown, hbefore⟩
  cases hnext.symm.trans hsame
  exact hpos

/-- Two files, the shorter one opened again and at its end, and the longer one as the next. -/
def shorterFirst : List FileCall :=
  [.slfsOpen (letter 97), .slfsWrite (fun _ => 42) 1 zeroUninit, .slfsOpen (letter 98),
    .slfsWrite (fun _ => 43) 2 zeroUninit, .slfsOpen (letter 97), .slfsSeek 0 .seekEnd, .slfsGetNextFile (fun _ => 5) 1]

theorem stepsMeet_cons {C : Fs → FileCall → Prop} {c : FileCall} {cs : List FileCall} (hc : C w c)
    (hcs : Machine.StepsMeet fileStep C (stateAfter (c.run w)) cs) : Machine.StepsMeet fileStep C w (c :: cs) :=
  fun _ hv => ⟨hc, fileStep_eq hv ▸ hcs⟩

theorem handle_law_shorterFirst : Machine.StepsMeet fileStep CallLaw erasedFs shorterFirst := by
  have hwords : ∀ c ∈ shorterFirst, c.Words := by simp [shorterFirst, FileCall.Words, size]
  apply (handle_law_iff (show Begins erasedFs shorterFirst from trivial) hwords).mpr
  apply stepsMeet_cons trivial
  apply stepsMeet_cons trivial
  apply stepsMeet_cons trivial
  apply stepsMeet_cons trivial
  apply stepsMeet_cons trivial
  apply stepsMeet_cons trivial
  apply stepsMeet_cons
  · exact fitting_next (by decide +kernel : nextShown _ _ _ = some 1) (by decide +kernel)
  · trivial

/-- Two files, and the longer one opened again and at its end. -/
def twoFiles : List FileCall :=
  [.slfsOpen (letter 97), .slfsWrite (fun _ => 42) 2 zeroUninit, .slfsOpen (letter 98),
    .slfsWrite (fun _ => 43) 1 zeroUninit, .slfsOpen (letter 97), .slfsSeek 0 .seekEnd]

/-- The next file is the shorter one, and the position is behind its end. -/
theorem next_file_shorter :
    ¬ Machine.StepsMeet fileStep CallLaw erasedFs (twoFiles ++ [.slfsGetNextFile (fun _ => 5) 1]) := by
  intro h
  have hrun : (Machine.exec fileStep erasedFs twoFiles).any (fun w =>
      (fileStep w (.slfsGetNextFile (fun _ => 5) 1)).any fun v => v.file.fileSize < v.file.pos) = true := by
    decide +kernel
  obtain ⟨w, hw, hnext⟩ := (Option.any_eq_true ..).mp hrun
  obtain ⟨v, hv, hshorter⟩ := (Option.any_eq_true ..).mp hnext
  have hinside := (h.of_exec hw hv).inside v hv
  exact absurd (of_decide_eq_true hshorter) (Nat.not_lt.mpr hinside)

/-- A seek by 2^32 - 1 from position 1 goes back by one. -/
example : (slfsSeek 0xFFFFFFFF .seekCur { erasedFs with file := ⟨0, 1, 2, 1, 0x1000, 0, 1, 1, letter 97⟩ }) =
    .ok () { erasedFs with file := ⟨0, 0, 2, 1, 0x1000, 0, 1, 1, letter 97⟩ } := rfl

end Law

end Slos.Slfs
