import Mathlib.Data.Finset.Max
import Mathlib.Data.Finset.Range
import Slos.SlfsNextFile

/-!
# Enumerating the files

`slfs_get_next_file` called from location 0 and then behind each location it returns. The loop compares the
file id with an entry of the array of deleted ids, not with all of them, and never asks for a newer version:
the files are listed right exactly where every other inode has the one id that all of the array holds.
-/

namespace Slos.Slfs
open Word ByteMemory Ramdisk

variable {m : Mem} {w : Fs} {i j k loc fuel : ℕ} {is : List ℕ}

section Select

/-- Selection by a test that depends on how many have been selected. -/
def selectFrom {α : Type} (p : ℕ → α → Prop) [∀ k, DecidablePred (p k)] : ℕ → List α → List α
  | _, [] => []
  | k, a :: as => if p k a then a :: selectFrom p (k + 1) as else selectFrom p k as

variable {α : Type} {p : ℕ → α → Prop} [∀ k, DecidablePred (p k)] {q : α → Prop} [DecidablePred q] {a : α}
  {as bs : List α}

theorem selectFrom_sublist : (selectFrom p k as).Sublist as := by
  induction as generalizing k with
  | nil => exact List.Sublist.slnil
  | cons a as ih =>
      rw [selectFrom]
      split
      · exact ih.cons_cons a
      · exact ih.cons a

theorem selectFrom_append (h : ∀ a ∈ as, ¬ p k a) : selectFrom p k (as ++ bs) = selectFrom p k bs := by
  induction as with
  | nil => rfl
  | cons a as ih =>
      rw [List.cons_append, selectFrom, if_neg (h a List.mem_cons_self)]
      exact ih fun b hb => h b (List.mem_cons_of_mem _ hb)

/-- It selects what `q` holds of exactly when the test agrees with `q` at every element, given as many before it
as `q` holds of. -/
theorem selectFrom_eq_filter_iff (hnd : as.Nodup) : selectFrom p k as = as.filter (q ·) ↔
    ∀ bs a cs, as = bs ++ a :: cs → (p (k + (bs.filter (q ·)).length) a ↔ q a) := by
  induction as generalizing k with
  | nil =>
      apply iff_of_true rfl
      intro bs a cs h
      cases bs <;> cases h
  | cons a as ih =>
      obtain ⟨hnot, hnd⟩ := List.nodup_cons.mp hnd
      have hfirst : (p k a ↔ q a) → (selectFrom p k (a :: as) = (a :: as).filter (q ·) ↔
          selectFrom p (if q a then k + 1 else k) as = as.filter (q ·)) := by
        intro hpq
        rw [selectFrom, List.filter_cons]
        by_cases hq : q a
        · rw [if_pos (hpq.mpr hq), if_pos (decide_eq_true hq), if_pos hq, List.cons_inj_right]
        · rw [if_neg (mt hpq.mp hq), if_neg (by rwa [decide_eq_true_iff]), if_neg hq]
      have hcount (bs : List α) : k + ((a :: bs).filter (q ·)).length =
          (if q a then k + 1 else k) + (bs.filter (q ·)).length := by
        rw [List.filter_cons]
        by_cases hq : q a
        · rw [if_pos (decide_eq_true hq), if_pos hq, List.length_cons, Nat.add_assoc, Nat.add_comm 1]
        · rw [if_neg (by rwa [decide_eq_true_iff]), if_neg hq]
      constructor
      · intro hsel
        have hpq : p k a ↔ q a := by
          have hmem : a ∈ selectFrom p k (a :: as) ↔ p k a := by
            rw [selectFrom]
            split
            · exact iff_of_true List.mem_cons_self ‹_›
            · exact iff_of_false (fun h => hnot (selectFrom_sublist.subset h)) ‹_›
          rw [← hmem, hsel, List.mem_filter, decide_eq_true_iff, and_iff_right List.mem_cons_self]
        have hrest := (ih hnd).mp ((hfirst hpq).mp hsel)
        intro bs b cs hsplit
        cases bs with
        | nil =>
            cases hsplit
            exact hpq
        | cons c bs =>
            cases hsplit
            rw [hcount]
            exact hrest bs b cs rfl
      · intro hall
        have hpq : p k a ↔ q a := hall [] a as rfl
        apply (hfirst hpq).mpr
        apply (ih hnd).mpr
        intro bs b cs hsplit
        rw [← hcount]
        exact hall (a :: bs) b cs (by rw [hsplit, List.cons_append])

end Select

section Names

variable {a b c : ℕ → UInt8}

/-- The bytes of a name that a handle holds. -/
def fileName (a : ℕ → UInt8) : ℕ → UInt8 := fun j => if j < slfsFnameLen then a j else 0

def SameFile (a b : ℕ → UInt8) : Prop := SameName (fileName a) (fileName b)

theorem SameFile.symm (h : SameFile a b) : SameFile b a := SameName.symm h

theorem SameFile.trans (h : SameFile a b) (h' : SameFile b c) : SameFile a c := SameName.trans h h'

theorem sameFile_of_eq (h : ∀ j < slfsFnameLen, (∀ k < j, a k ≠ 0) → a j = b j) : SameFile a b := by
  intro j hj
  unfold fileName at *
  by_cases hlt : j < slfsFnameLen
  · rw [if_pos hlt, if_pos hlt]
    apply h j hlt
    intro k hk
    have hne := hj k hk
    rwa [if_pos (hk.trans hlt)] at hne
  · rw [if_neg hlt, if_neg hlt]

theorem copyName_sameFile (dst src : ℕ → UInt8) : SameFile (copyName dst src) src := by
  apply SameFile.symm
  apply sameFile_of_eq
  intro j hj hne
  rw [copyName, if_pos ⟨hj, hne⟩]

theorem readInode_sameFile : SameFile (readInode m i).name (inodeAt m i).name := by
  apply sameFile_of_eq
  intro j hj _
  have hj' : j < 32 := Nat.lt_of_lt_of_le hj (by decide)
  exact (atAddr_ofBytes (m := m) (a := inodeAddr i)).2.2.2 j hj'

end Names

section History

inductive FileEvent
  | written
  | deleted

/-- The writes and deletes that returned no error, the last one first, with the name of the handle. -/
abbrev History := List ((ℕ → UInt8) × FileEvent)

/-- The last event on the name is a write. -/
def Existing : History → (ℕ → UInt8) → Prop
  | [], _ => False
  | (a, e) :: log, n => (SameFile a n ∧ e = .written) ∨ (¬ SameFile a n ∧ Existing log n)

def record (s : SlfsSys) (log : History) : SlfsCall → History
  | .slfsOpen _ _ => log
  | .slfsWrite h pbuf len uninit =>
      if succeeded (slfsWrite pbuf len uninit { s.fs with file := s.handles h }) ∧ len ≠ 0 then
        ((s.handles h).name, .written) :: log
      else log
  | .slfsDelete h uninit =>
      if succeeded (slfsDelete uninit { s.fs with file := s.handles h }) then ((s.handles h).name, .deleted) :: log
      else log

/-- The file system with the history beside it. -/
def recordStep (r : SlfsSys × History) (c : SlfsCall) : Option (SlfsSys × History) :=
  (slfsStep r.1 c).map fun t => (t, record r.1 r.2 c)

theorem Existing.same {log : History} {a b : ℕ → UInt8} (h : Existing log a) (hab : SameFile a b) : Existing log b := by
  induction log with
  | nil => exact h
  | cons e log ih =>
      rcases h with ⟨hsame, hwritten⟩ | ⟨hother, hrest⟩
      · exact Or.inl ⟨hsame.trans hab, hwritten⟩
      · exact Or.inr ⟨fun hsame => hother (hsame.trans hab.symm), ih hrest⟩

end History

section Table

/-- A completed version of the same file is newer, or as new and in an earlier slot. -/
def Superseded (m : Mem) (i : ℕ) : Prop :=
  ∃ j < inodeMaxCnt, Completed m j ∧ SameFile (inodeAt m j).name (inodeAt m i).name ∧
    ((inodeAt m i).updateCnt < (inodeAt m j).updateCnt ∨
      (inodeAt m j).updateCnt = (inodeAt m i).updateCnt ∧ j < i)

/-- The newest completed version of a file of which `E` holds. -/
structure Current (E : (ℕ → UInt8) → Prop) (m : Mem) (i : ℕ) : Prop where
  lt : i < inodeMaxCnt
  completed : Completed m i
  newest : ¬ Superseded m i
  existing : E (inodeAt m i).name

variable {E : (ℕ → UInt8) → Prop}

theorem Current.unique (h : Current E m i) (h' : Current E m j)
    (hsame : SameFile (inodeAt m i).name (inodeAt m j).name) : i = j := by
  by_contra hne
  rcases Nat.lt_trichotomy (inodeAt m i).updateCnt (inodeAt m j).updateCnt with hlt | heq | hgt
  · exact h.newest ⟨j, h'.lt, h'.completed, hsame.symm, Or.inl hlt⟩
  · rcases Nat.lt_or_gt_of_ne hne with hij | hji
    · exact h'.newest ⟨i, h.lt, h.completed, hsame, Or.inr ⟨heq, hij⟩⟩
    · exact h.newest ⟨j, h'.lt, h'.completed, hsame.symm, Or.inr ⟨heq.symm, hji⟩⟩
  · exact h'.newest ⟨i, h.lt, h.completed, hsame, Or.inl hgt⟩

open Classical in
/-- A file with a completed version has a newest one. -/
theorem exists_newest {n : ℕ → UInt8} (h : ∃ i < inodeMaxCnt, Completed m i ∧ SameFile n (inodeAt m i).name) :
    ∃ i < inodeMaxCnt, Completed m i ∧ SameFile n (inodeAt m i).name ∧ ¬ Superseded m i := by
  let slots := (Finset.range inodeMaxCnt).filter fun i => Completed m i ∧ SameFile n (inodeAt m i).name
  have hmem {i : ℕ} : i ∈ slots ↔ i < inodeMaxCnt ∧ Completed m i ∧ SameFile n (inodeAt m i).name := by
    rw [Finset.mem_filter, Finset.mem_range]
  obtain ⟨i₀, hi₀⟩ := h
  -- the greatest update count, and of those the first slot
  obtain ⟨i, hi, hmax⟩ := Finset.exists_max_image slots (fun i => 32 * (inodeAt m i).updateCnt + (31 - i))
    ⟨i₀, hmem.mpr hi₀⟩
  obtain ⟨hlt, hcompleted, hname⟩ := hmem.mp hi
  refine ⟨i, hlt, hcompleted, hname, ?_⟩
  rintro ⟨j, hj, hcompleted', hsame, hnewer⟩
  have hle := hmax j (hmem.mpr ⟨hj, hcompleted', hname.trans hsame.symm⟩)
  have hj32 : j < 32 := hj
  have hi32 : i < 32 := hlt
  omega

/-- Every existing file has its newest completed version. -/
theorem current_of_recorded (hE : ∀ a b, E a → SameFile a b → E b) {n : ℕ → UInt8} (hn : E n)
    (h : ∃ i < inodeMaxCnt, Completed m i ∧ SameFile n (inodeAt m i).name) :
    ∃ i, Current E m i ∧ SameFile n (inodeAt m i).name := by
  obtain ⟨i, hlt, hcompleted, hname, hnewest⟩ := exists_newest h
  exact ⟨i, ⟨hlt, hcompleted, hnewest, hE n _ hn hname⟩, hname⟩

end Table

section Enumerate

/-- What a call leaves: the location, and the file in the handle. -/
structure Entry where
  loc : ℕ
  name : ℕ → UInt8
  fileSize : ℕ
  datablkAddr : ℕ

/-- The calls from the location on until there is no next file, `fuel` of them at most. The stack of call number
`k` holds `garbage k`. -/
def listFiles (garbage : ℕ → ℕ → ℕ) : (fuel k loc : ℕ) → FsM (Option (List Entry))
  | 0, _, _ => pure none
  | fuel + 1, k, loc => do
      let (ret, i) ← slfsGetNextFile (garbage k) loc
      if ret = .inodeLastErr then pure (some [])
      else
        let pf ← getFile
        let rest ← listFiles garbage fuel (k + 1) (i + 1)
        pure (rest.map (⟨i, pf.name, pf.fileSize, pf.datablkAddr⟩ :: ·))

/-- The name, the size and the block address of the inode in its slot. -/
structure Entry.Of (m : Mem) (y : Entry) : Prop where
  name : SameFile y.name (inodeAt m y.loc).name
  fileSize : y.fileSize = (inodeAt m y.loc).fileSize
  datablkAddr : y.datablkAddr = (inodeAt m y.loc).datablkAddr

/-- Every existing file once, by its newest completed version, and no other. -/
structure ListLaw (E : (ℕ → UInt8) → Prop) (m : Mem) (ys : List Entry) : Prop where
  shows : ∀ y ∈ ys, Current E m y.loc ∧ y.Of m
  once : ys.Pairwise fun y z => ¬ SameFile y.name z.name
  all : ∀ n, E n → ∃ y ∈ ys, SameFile n y.name

/-- The calls come to an end and list the files. -/
def Enumerates (garbage : ℕ → ℕ → ℕ) (E : (ℕ → UInt8) → Prop) (w : Fs) : Prop :=
  ∀ fuel, inodeMaxCnt < fuel → ∃ ys v, listFiles garbage fuel 0 0 w = .ok (some ys) v ∧ ListLaw E w.mem ys

variable {garbage : ℕ → ℕ → ℕ} {E : (ℕ → UInt8) → Prop} {ys : List Entry}

/-- The slots listed among some: those that are shown by the call at hand. -/
def listed (garbage : ℕ → ℕ → ℕ) (m : Mem) : ℕ → List ℕ → List ℕ :=
  selectFrom fun k i => Shown (descOf (garbage k) m) m i

theorem listed_of_none (h : nextShown (garbage k) m loc = none) :
    listed garbage m k (List.range' loc (inodeMaxCnt - loc)) = [] := by
  have hnone := List.find?_eq_none.mp h
  rw [listed, ← List.append_nil (List.range' _ _), selectFrom_append]
  · rfl
  · intro i hi hshown
    exact hnone i hi (decide_eq_true hshown)

theorem listed_of_some (h : nextShown (garbage k) m loc = some i) :
    listed garbage m k (List.range' loc (inodeMaxCnt - loc)) =
      i :: listed garbage m (k + 1) (List.range' (i + 1) (inodeMaxCnt - (i + 1))) := by
  obtain ⟨⟨hlt, hle⟩, hshown, hbefore⟩ := nextShown_eq_some.mp h
  have hsplit : List.range' loc (inodeMaxCnt - loc) =
      List.range' loc (i - loc) ++ i :: List.range' (i + 1) (inodeMaxCnt - (i + 1)) := by
    have hlen : inodeMaxCnt - loc = (i - loc) + (inodeMaxCnt - (i + 1) + 1) := by omega
    have hstart : loc + 1 * (i - loc) = i := by omega
    rw [hlen, ← List.range'_append, hstart, List.range'_succ]
  rw [listed, hsplit, selectFrom_append, selectFrom, if_pos hshown]
  intro j hj
  have hbound := List.mem_range'_1.mp hj
  exact hbefore j (by omega) hbound.1

theorem listFiles_run (hloc : loc ≤ inodeMaxCnt) (hfuel : inodeMaxCnt - loc < fuel) :
    ∃ ys v, listFiles garbage fuel k loc w = .ok (some ys) v ∧
      ys.map Entry.loc = listed garbage w.mem k (List.range' loc (inodeMaxCnt - loc)) ∧ ∀ y ∈ ys, y.Of w.mem := by
  induction fuel generalizing k loc w with
  | zero => exact absurd hfuel (Nat.not_lt_zero _)
  | succ fuel ih =>
      cases hnext : nextShown (garbage k) w.mem loc with
      | none =>
          have hrun := slfsGetNextFile_none hnext
          rw [if_pos hloc] at hrun
          refine ⟨[], w, ?_, (listed_of_none hnext).symm, fun y hy => absurd hy List.not_mem_nil⟩
          rw [listFiles, bind_ok hrun]
          rfl
      | some i =>
          obtain ⟨⟨hlt, hle⟩, -⟩ := nextShown_eq_some.mp hnext
          obtain ⟨u, hu⟩ : ∃ u, u = { w with file := nextFile w.file (readInode w.mem i) } := ⟨_, rfl⟩
          have hmem : u.mem = w.mem := by rw [hu]
          have hfile : u.file = nextFile w.file (readInode w.mem i) := by rw [hu]
          have hrun := slfsGetNextFile_some hnext
          rw [← hu] at hrun
          obtain ⟨ys, v, hrest, hmap, hof⟩ : ∃ ys v, listFiles garbage fuel (k + 1) (i + 1) u = .ok (some ys) v ∧ _ :=
            ih (by omega) (by omega)
          rw [hmem] at hmap hof
          have hfirst : Entry.Of w.mem ⟨i, u.file.name, u.file.fileSize, u.file.datablkAddr⟩ := by
            rw [hfile]
            constructor
            · exact (copyName_sameFile _ _).trans readInode_sameFile
            · exact readInode_fileSize
            · exact readInode_datablkAddr
          refine ⟨⟨i, u.file.name, u.file.fileSize, u.file.datablkAddr⟩ :: ys, v, ?_, ?_, ?_⟩
          · rw [listFiles, bind_ok hrun]
            change (getFile >>= fun pf => listFiles garbage fuel (k + 1) (i + 1) >>= fun rest =>
              pure (rest.map (⟨i, pf.name, pf.fileSize, pf.datablkAddr⟩ :: ·))) u = _
            rw [getFile_bind, bind_ok hrest]
            rfl
          · rw [List.map_cons, hmap, listed_of_some hnext]
          · exact List.forall_mem_cons.mpr ⟨hfirst, hof⟩

section Condition

open Classical in
/-- How many files are listed before a slot, where all is right. -/
noncomputable def currentBefore (E : (ℕ → UInt8) → Prop) (m : Mem) (i : ℕ) : ℕ :=
  ((List.range i).filter (Current E m ·)).length

/-- Every existing file has a completed version, its newest one has an index, and of the inodes with an index and an
update count the others are exactly those whose file id is all that the array holds at the call that comes to
them. -/
structure Distinguished (garbage : ℕ → ℕ → ℕ) (E : (ℕ → UInt8) → Prop) (m : Mem) : Prop where
  recorded : ∀ n, E n → ∃ i < inodeMaxCnt, Completed m i ∧ SameFile n (inodeAt m i).name
  indexed : ∀ i, Current E m i → (inodeAt m i).inodeIdx ≠ minusOne
  masked : ∀ i < inodeMaxCnt, (inodeAt m i).inodeIdx ≠ minusOne → (inodeAt m i).updateCnt ≠ minusOne →
    (¬ Current E m i ↔ ∀ j < inodeMaxCnt, descOf (garbage (currentBefore E m i)) m j = (inodeAt m i).fileId)

theorem range_eq_append {n : ℕ} {bs cs : List ℕ} (h : List.range n = bs ++ i :: cs) : bs = List.range i ∧ i < n := by
  have hlen : bs.length < n := by
    have htotal := congrArg List.length h
    rw [List.length_range, List.length_append, List.length_cons] at htotal
    omega
  have hget : (List.range n)[bs.length]? = some i := by
    rw [h, List.getElem?_append_right le_rfl, Nat.sub_self, List.getElem?_cons_zero]
  rw [List.getElem?_range hlen] at hget
  obtain rfl := Option.some.inj hget
  have htake : (List.range n).take bs.length = bs := by rw [h, List.take_left]
  rw [List.take_range, Nat.min_eq_left hlen.le] at htake
  exact ⟨htake.symm, hlen⟩

open Classical in
theorem listed_eq_filter_iff : listed garbage m 0 (List.range inodeMaxCnt) =
    (List.range inodeMaxCnt).filter (Current E m ·) ↔
      ∀ i < inodeMaxCnt, Shown (descOf (garbage (currentBefore E m i)) m) m i ↔ Current E m i := by
  rw [listed, selectFrom_eq_filter_iff List.nodup_range]
  constructor
  · intro h i hi
    have hsplit : List.range inodeMaxCnt = List.range i ++ i :: List.range' (i + 1) (inodeMaxCnt - (i + 1)) := by
      have hlen : inodeMaxCnt = i + (inodeMaxCnt - (i + 1) + 1) := by omega
      have hstart : 0 + 1 * i = i := by omega
      rw [List.range_eq_range', List.range_eq_range', ← List.range'_succ, hlen, ← List.range'_append, hstart, ← hlen]
    have hi' := h _ _ _ hsplit
    rwa [Nat.zero_add] at hi'
  · intro h bs i cs hsplit
    obtain ⟨rfl, hi⟩ := range_eq_append hsplit
    rw [Nat.zero_add]
    exact h i hi

theorem distinguished_iff : Distinguished garbage E m ↔
    (∀ n, E n → ∃ i < inodeMaxCnt, Completed m i ∧ SameFile n (inodeAt m i).name) ∧
      ∀ i < inodeMaxCnt, Shown (descOf (garbage (currentBefore E m i)) m) m i ↔ Current E m i := by
  have hall (desc : ℕ → ℕ) (i : ℕ) : (∀ j < inodeMaxCnt, desc j = (inodeAt m i).fileId) ↔
      ¬ ∃ j < inodeMaxCnt, desc j ≠ (inodeAt m i).fileId := by
    push Not
    rfl
  constructor
  · intro h
    refine ⟨h.recorded, fun i hi => ?_⟩
    constructor
    · rintro ⟨hidx, hcnt, hother⟩
      by_contra hnot
      exact (hall _ i).mp ((h.masked i hi hidx hcnt).mp hnot) hother
    · intro hcurrent
      have hidx := h.indexed i hcurrent
      have hcnt := hcurrent.completed.updateCnt
      refine ⟨hidx, hcnt, ?_⟩
      by_contra hnone
      exact (h.masked i hi hidx hcnt).mpr ((hall _ i).mpr hnone) hcurrent
  · rintro ⟨hrecorded, hshown⟩
    constructor
    · exact hrecorded
    · exact fun i hi => ((hshown i hi.lt).mpr hi).1
    · intro i hi hidx hcnt
      rw [hall, not_iff_not, ← hshown i hi, Shown, and_iff_right hidx, and_iff_right hcnt]

theorem listLaw_iff (hE : ∀ a b, E a → SameFile a b → E b)
    (hlocs : ys.map Entry.loc = listed garbage m 0 (List.range inodeMaxCnt)) (hof : ∀ y ∈ ys, y.Of m) :
    ListLaw E m ys ↔ Distinguished garbage E m := by
  classical
  have hsorted : (ys.map Entry.loc).Pairwise (· < ·) := by
    rw [hlocs]
    exact List.pairwise_lt_range.sublist selectFrom_sublist
  rw [distinguished_iff, ← listed_eq_filter_iff, ← hlocs]
  constructor
  · intro h
    have hrecorded : ∀ n, E n → ∃ i < inodeMaxCnt, Completed m i ∧ SameFile n (inodeAt m i).name := by
      intro n hn
      obtain ⟨y, hy, hname⟩ := h.all n hn
      obtain ⟨hcurrent, hofy⟩ := h.shows y hy
      exact ⟨y.loc, hcurrent.lt, hcurrent.completed, hname.trans hofy.name⟩
    refine ⟨hrecorded, ?_⟩
    have hmem (i : ℕ) : i ∈ ys.map Entry.loc ↔ i ∈ (List.range inodeMaxCnt).filter (Current E m ·) := by
      rw [List.mem_filter, decide_eq_true_iff, List.mem_range, List.mem_map]
      constructor
      · rintro ⟨y, hy, rfl⟩
        have hcurrent := (h.shows y hy).1
        exact ⟨hcurrent.lt, hcurrent⟩
      · rintro ⟨-, hcurrent⟩
        obtain ⟨y, hy, hname⟩ := h.all _ hcurrent.existing
        obtain ⟨hcurrent', hofy⟩ := h.shows y hy
        exact ⟨y, hy, hcurrent'.unique hcurrent (hname.trans hofy.name).symm⟩
    have hnodup : (ys.map Entry.loc).Nodup := hsorted.imp Nat.ne_of_lt
    have hperm := (List.perm_ext_iff_of_nodup hnodup (List.nodup_range.filter _)).mpr hmem
    exact hperm.eq_of_pairwise (fun a b _ _ hab hba => absurd hab (Nat.lt_asymm hba)) hsorted
      (List.pairwise_lt_range.filter _)
  · rintro ⟨hrecorded, hfilter⟩
    have hcurrent (y : Entry) (hy : y ∈ ys) : Current E m y.loc := by
      have hloc : y.loc ∈ ys.map Entry.loc := List.mem_map_of_mem hy
      rw [hfilter, List.mem_filter, decide_eq_true_iff] at hloc
      exact hloc.2
    constructor
    · exact fun y hy => ⟨hcurrent y hy, hof y hy⟩
    · have hlocs' := List.pairwise_map.mp hsorted
      apply hlocs'.imp_of_mem
      intro y z hy hz hlt hsame
      have hnames := ((hof y hy).name.symm.trans hsame).trans (hof z hz).name
      exact hlt.ne ((hcurrent y hy).unique (hcurrent z hz) hnames)
    · intro n hn
      obtain ⟨i, hi, hname⟩ := current_of_recorded hE hn (hrecorded n hn)
      have hmem : i ∈ ys.map Entry.loc := by
        rw [hfilter, List.mem_filter, decide_eq_true_iff, List.mem_range]
        exact ⟨hi.lt, hi⟩
      obtain ⟨y, hy, rfl⟩ := List.mem_map.mp hmem
      exact ⟨y, hy, hname.trans (hof y hy).name.symm⟩

theorem enumerates_iff (hE : ∀ a b, E a → SameFile a b → E b) :
    Enumerates garbage E w ↔ Distinguished garbage E w.mem := by
  have hrun {fuel : ℕ} (hfuel : inodeMaxCnt < fuel) : ∃ ys v, listFiles garbage fuel 0 0 w = .ok (some ys) v ∧
      (ListLaw E w.mem ys ↔ Distinguished garbage E w.mem) := by
    obtain ⟨ys, v, hlist, hlocs, hof⟩ : ∃ ys v, listFiles garbage fuel 0 0 w = .ok (some ys) v ∧ _ :=
      listFiles_run (Nat.zero_le _) hfuel
    rw [Nat.sub_zero, ← List.range_eq_range'] at hlocs
    exact ⟨ys, v, hlist, listLaw_iff hE hlocs hof⟩
  constructor
  · intro h
    obtain ⟨ys, v, hlist, hiff⟩ := hrun (Nat.lt_succ_self inodeMaxCnt)
    obtain ⟨ys', v', hlist', hlaw⟩ := h _ (Nat.lt_succ_self inodeMaxCnt)
    rw [hlist] at hlist'
    cases hlist'
    exact hiff.mp hlaw
  · intro h fuel hfuel
    obtain ⟨ys, v, hlist, hiff⟩ := hrun hfuel
    exact ⟨ys, v, hlist, hiff.mpr h⟩

/-- Where the array of each call holds a word other than the id of an inode, for each inode with an index, none is
passed over. -/
theorem distinguished_iff_of_others (hothers : ∀ k, ∀ i < inodeMaxCnt, (inodeAt m i).inodeIdx ≠ minusOne →
    ∃ j < inodeMaxCnt, descOf (garbage k) m j ≠ (inodeAt m i).fileId) : Distinguished garbage E m ↔
      (∀ n, E n → ∃ i < inodeMaxCnt, Completed m i ∧ SameFile n (inodeAt m i).name) ∧ ∀ i < inodeMaxCnt,
        (inodeAt m i).inodeIdx ≠ minusOne ∧ (inodeAt m i).updateCnt ≠ minusOne ↔ Current E m i := by
  have hshown (k : ℕ) {i : ℕ} (hi : i < inodeMaxCnt) : Shown (descOf (garbage k) m) m i ↔
      (inodeAt m i).inodeIdx ≠ minusOne ∧ (inodeAt m i).updateCnt ≠ minusOne := by
    constructor
    · exact fun h => ⟨h.1, h.2.1⟩
    · rintro ⟨hidx, hcnt⟩
      exact ⟨hidx, hcnt, hothers k i hi hidx⟩
  rw [distinguished_iff]
  exact and_congr_right' (forall₂_congr fun i hi => iff_congr (hshown _ hi) Iff.rfl)

end Condition

/-- Written and then deleted, and the name has one letter. -/
def deletedHistory : History → Bool
  | [(a, .deleted), (b, .written)] => a 0 == b 0 && a 1 == 0 && b 1 == 0
  | _ => false

theorem not_existing_of_deletedHistory {log : History} (h : deletedHistory log = true) (n : ℕ → UInt8) :
    ¬ Existing log n := by
  unfold deletedHistory at h
  split at h
  · rename_i a b
    obtain ⟨hab, hb⟩ := (Bool.and_eq_true ..).mp h
    obtain ⟨hab, ha⟩ := (Bool.and_eq_true ..).mp hab
    have hsame : SameFile b a := by
      apply sameFile_of_eq
      intro j _ hne
      match j with
      | 0 => exact (eq_of_beq hab).symm
      | 1 => exact (eq_of_beq hb).trans (eq_of_beq ha).symm
      | j + 2 => exact absurd (eq_of_beq hb) (hne 1 (by omega))
    rintro (⟨-, hwritten⟩ | ⟨hother, ⟨hsame', -⟩ | ⟨-, hfalse⟩⟩)
    · cases hwritten
    · exact hother (hsame.symm.trans hsame')
    · exact hfalse
  · cases h

def someListed : EStateM.Result FsErr Fs (Option (List Entry)) → Bool
  | .ok (some (_ :: _)) _ => true
  | _ => false

/-- The file that was deleted is listed. -/
theorem deleted_file_listed :
    ¬ Machine.Always recordStep (fun t => Enumerates (fun _ _ => 5) (Existing t.2) t.1.fs) (erasedSys, [])
      (createA ++ [.slfsDelete 0 zeroUninit]) := by
  intro h
  have hrun : (Machine.exec recordStep (erasedSys, []) (createA ++ [.slfsDelete 0 zeroUninit])).any (fun t =>
      deletedHistory t.2 && someListed (listFiles (fun _ _ => 5) (inodeMaxCnt + 1) 0 0 t.1.fs)) = true := by
    decide +kernel
  obtain ⟨t, ht, hend⟩ := (Option.any_eq_true ..).mp hrun
  obtain ⟨hhistory, hlisted⟩ := (Bool.and_eq_true ..).mp hend
  have hstate := Machine.always_iff_exec.mp h _ List.prefix_rfl t ht
  obtain ⟨ys, v, hlist, hlaw⟩ := hstate (inodeMaxCnt + 1) (Nat.lt_succ_self _)
  rw [hlist] at hlisted
  cases ys with
  | nil => cases hlisted
  | cons y ys =>
      have hcurrent := (hlaw.shows y List.mem_cons_self).1
      exact not_existing_of_deletedHistory hhistory _ hcurrent.existing

end Enumerate

end Slos.Slfs
