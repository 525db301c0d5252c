import Slos.SlfsListing

/-!
# Enumerating files of one version

Runs in which every write that succeeds is the first one of its file and no delete succeeds. Then every used
slot holds the one version of an existing file, and `slfs_get_next_file` lists the files right.
-/

namespace Slos.Slfs
open Word ByteMemory Ramdisk

variable {m m' : Mem} {files : ℕ → Option (List ℕ)} {log : History} {i k : ℕ} {n : ℕ → UInt8} {ps : List ℕ}
  {r t : SlfsSys × History} {c : SlfsCall}

/-- A write that gets an inode creates a file that does not exist; a delete finds no inode for its mark. -/
def AddsFile (r : SlfsSys × History) : SlfsCall → Prop
  | .slfsOpen _ _ => True
  | .slfsWrite h _ len _ => (r.1.handles h).openCnt = 0 ∨ len = 0 ∨ freeInode r.1.fs.mem = none ∨
      Creates r.1.fs.mem (r.1.handles h) len ∧ ¬ Existing r.2 (r.1.handles h).name
  | .slfsDelete _ _ => freeInode r.1.fs.mem = none

/-- The used slots are those of the existing files, one for each. -/
structure Listed (m : Mem) (files : ℕ → Option (List ℕ)) (log : History) : Prop where
  tidy : Tidy m files
  indexed : ∀ i < inodeMaxCnt, files i ≠ none → (inodeAt m i).inodeIdx ≠ minusOne
  distinct : ∀ i < inodeMaxCnt, ∀ j < inodeMaxCnt, files i ≠ none → files j ≠ none →
    SameFile (inodeAt m i).name (inodeAt m j).name → i = j
  existing : ∀ n, Existing log n ↔ ∃ i < inodeMaxCnt, files i ≠ none ∧ SameFile n (inodeAt m i).name

theorem listed_of_erased (h : ∀ x, 192 ≤ x → x < ramdiskSize → m x = 0xFF) : Listed m (fun _ => none) [] := by
  refine ⟨tidy_of_erased h, fun i _ hused => absurd rfl hused, fun i _ j _ hused => absurd rfl hused, fun n => ?_⟩
  constructor
  · exact False.elim
  · rintro ⟨i, -, hused, -⟩
    exact hused rfl

theorem SameFile.of_names {a b a' b' : ℕ → UInt8} (h : SameFile a b) (ha : ∀ j < 16, a' j = a j)
    (hb : ∀ j < 16, b' j = b j) : SameFile a' b' :=
  ((sameFile_of_eq fun j hj _ => ha j hj).trans h).trans (sameFile_of_eq fun j hj _ => (hb j hj).symm)

/-- A call that leaves the slots and records nothing. -/
theorem Listed.of_slots (h : Listed m files log) (htidy : Tidy m' files)
    (hslots : ∀ i < inodeMaxCnt, ∀ x < 56, m' (inodeAddr i + x) = m (inodeAddr i + x)) : Listed m' files log := by
  have hname {i : ℕ} (hi : i < inodeMaxCnt) : ∀ j < 16, (inodeAt m i).name j = (inodeAt m' i).name j :=
    fun j hj => ((inodeAt_congr (hslots i hi)).2.2.2 j (by omega)).symm
  refine ⟨htidy, fun i hi hused => ?_, fun i hi j hj hsi hsj hsame => ?_, fun n => ?_⟩
  · rw [(inodeAt_ids_congr (hslots i hi)).1]
    exact h.indexed i hi hused
  · exact h.distinct i hi j hj hsi hsj (hsame.of_names (hname hi) (hname hj))
  · rw [h.existing]
    constructor
    · rintro ⟨i, hi, hused, hsame⟩
      exact ⟨i, hi, hused, hsame.of_names (fun _ _ => rfl) fun j hj => (hname hi j hj).symm⟩
    · rintro ⟨i, hi, hused, hsame⟩
      exact ⟨i, hi, hused, hsame.of_names (fun _ _ => rfl) (hname hi)⟩

/-- The first write of a file that does not exist. -/
theorem Listed.create (h : Listed m files log) (hi : freeInode m = some i) (hnew : ¬ Existing log n)
    (htidy : Tidy m' (Function.update files i (some ps)))
    (hslots : ∀ j < inodeMaxCnt, j ≠ i → ∀ x < 56, m' (inodeAddr j + x) = m (inodeAddr j + x))
    (hidx : (inodeAt m' i).inodeIdx = i) (hname : ∀ j < 16, (inodeAt m' i).name j = n j) :
    Listed m' (Function.update files i (some ps)) ((n, .written) :: log) := by
  have hlt : i < 32 := freeInode_lt hi
  have hnone := h.tidy.freeInode_none hi
  have hold {j : ℕ} (hj : j < inodeMaxCnt) (hji : j ≠ i) : ∀ x < 16, (inodeAt m j).name x = (inodeAt m' j).name x :=
    fun x hx => ((inodeAt_congr (hslots j hj hji)).2.2.2 x (by omega)).symm
  have hself : SameFile (inodeAt m' i).name n := sameFile_of_eq fun j hj _ => hname j hj
  have hother {j : ℕ} (hj : j < inodeMaxCnt) (hji : j ≠ i) (hused : files j ≠ none) :
      ¬ SameFile n (inodeAt m' j).name := by
    intro hsame
    exact hnew ((h.existing n).mpr ⟨j, hj, hused, hsame.of_names (fun _ _ => rfl) (hold hj hji)⟩)
  refine ⟨htidy, fun j hj hused => ?_, fun j hj k hk hsj hsk hsame => ?_, fun n' => ?_⟩
  · by_cases hji : j = i
    · subst hji
      rw [hidx]
      change j ≠ 4294967295
      omega
    · rw [Function.update_of_ne hji] at hused
      rw [(inodeAt_ids_congr (hslots j hj hji)).1]
      exact h.indexed j hj hused
  · by_cases hji : j = i
    · by_cases hki : k = i
      · exact hji.trans hki.symm
      · rw [Function.update_of_ne hki] at hsk
        subst hji
        exact absurd (hself.symm.trans hsame) (hother hk hki hsk)
    · rw [Function.update_of_ne hji] at hsj
      by_cases hki : k = i
      · subst hki
        exact absurd (hself.symm.trans hsame.symm) (hother hj hji hsj)
      · rw [Function.update_of_ne hki] at hsk
        exact h.distinct j hj k hk hsj hsk (hsame.of_names (hold hj hji) (hold hk hki))
  · constructor
    · rintro (⟨hsame, -⟩ | ⟨-, hrest⟩)
      · refine ⟨i, hlt, ?_, (hself.trans hsame).symm⟩
        rw [Function.update_self]
        exact Option.some_ne_none ps
      · obtain ⟨j, hj, hused, hsame⟩ := (h.existing n').mp hrest
        have hji : j ≠ i := by
          rintro rfl
          exact hused hnone
        refine ⟨j, hj, ?_, hsame.of_names (fun _ _ => rfl) fun x hx => (hold hj hji x hx).symm⟩
        rwa [Function.update_of_ne hji]
    · rintro ⟨j, hj, hused, hsame⟩
      by_cases hji : j = i
      · subst hji
        exact Or.inl ⟨hself.symm.trans hsame.symm, rfl⟩
      · rw [Function.update_of_ne hji] at hused
        refine Or.inr ⟨fun hn => hother hj hji hused (hn.trans hsame), (h.existing n').mpr ⟨j, hj, hused, ?_⟩⟩
        exact hsame.of_names (fun _ _ => rfl) (hold hj hji)

/-- Every used slot holds the newest version of an existing file, and no other slot has an index. -/
theorem Listed.current_iff (h : Listed m files log) (hi : i < inodeMaxCnt) :
    (inodeAt m i).inodeIdx ≠ minusOne ∧ (inodeAt m i).updateCnt ≠ minusOne ↔ Current (Existing log) m i := by
  constructor
  · rintro ⟨hidx, -⟩
    have hused : files i ≠ none := fun hnone => hidx ((h.tidy.free i hi hnone).word_eq (x := 0) (by decide))
    refine ⟨hi, (h.tidy.completed_iff hi).mpr hused, ?_, (h.existing _).mpr ⟨i, hi, hused, fun _ _ => rfl⟩⟩
    rintro ⟨j, hj, hcompleted, hsame, hnewer⟩
    obtain rfl := h.distinct j hj i hi ((h.tidy.completed_iff hj).mp hcompleted) hused hsame
    omega
  · intro hcurrent
    exact ⟨h.indexed i hi ((h.tidy.completed_iff hi).mp hcurrent.completed), hcurrent.completed.updateCnt⟩

/-- Without a deleted file the array holds what was on the stack. -/
theorem Listed.desc (h : Listed m files log) (garbage : ℕ → ℕ) : descOf garbage m = garbage := by
  have hnone : (List.range inodeMaxCnt).filter (DeleteMark m ·) = [] := by
    refine List.filter_eq_nil_iff.mpr fun i hi => ?_
    rw [decide_eq_true_iff]
    rintro ⟨hzero, -⟩
    have hlt := List.mem_range.mp hi
    cases hfile : files i with
    | none =>
        have hfree : (inodeAt m i).fileSize = minusOne := (h.tidy.free i hlt hfile).word_eq (by decide)
        rw [hzero] at hfree
        exact absurd hfree (by decide)
    | some ps => exact (h.tidy.used i hlt ps hfile).2.1 hzero
  funext j
  rw [descOf, recordedIds, hnone]
  rfl

theorem Listed.enumerates {w : Fs} {garbage : ℕ → ℕ → ℕ} (h : Listed w.mem files log)
    (hstack : ∀ k, ∀ i < inodeMaxCnt, (inodeAt w.mem i).inodeIdx ≠ minusOne →
      ∃ j < inodeMaxCnt, garbage k j ≠ (inodeAt w.mem i).fileId) : Enumerates garbage (Existing log) w := by
  rw [enumerates_iff fun a b ha hab => ha.same hab, distinguished_iff_of_others]
  · refine ⟨fun n hn => ?_, fun i hi => h.current_iff hi⟩
    obtain ⟨i, hi, hused, hsame⟩ := (h.existing n).mp hn
    exact ⟨i, hi, (h.tidy.completed_iff hi).mpr hused, hsame⟩
  · intro k i hi hidx
    rw [h.desc]
    exact hstack k i hi hidx

theorem AddsFile.step (hs : ∃ files, Listed r.1.fs.mem files r.2) (hc : AddsFile r c)
    (hstep : recordStep r c = some t) : ∃ files, Listed t.1.fs.mem files t.2 := by
  obtain ⟨files, h⟩ := hs
  obtain ⟨s, hcall, rfl⟩ := Option.map_eq_some_iff.mp hstep
  cases c with
  | slfsOpen b pname =>
      refine ⟨files, ?_⟩
      dsimp only
      rw [runCall_mem hcall, slfsOpen_mem]
      exact h
  | slfsWrite b pbuf len uninit =>
      obtain ⟨w, hw⟩ : ∃ w : Fs, w = { r.1.fs with file := r.1.handles b } := ⟨_, rfl⟩
      have hmem : w.mem = r.1.fs.mem := by rw [hw]
      have hfile : w.file = r.1.handles b := by rw [hw]
      dsimp only
      rw [runCall_mem hcall, record, ← hw]
      rw [← hmem] at h
      by_cases hnone : w.file.openCnt = 0 ∨ len = 0 ∨ freeInode w.mem = none
      · obtain ⟨htidy, hslots, hfail⟩ : Tidy (stateAfter (slfsWrite pbuf len uninit w)).mem files ∧ _ ∧ _ :=
          h.tidy.write_none hnone
        have hnot : ¬ (succeeded (slfsWrite pbuf len uninit w) = true ∧ len ≠ 0) := by
          rintro ⟨hok, hlen⟩
          rw [hfail.resolve_left hlen] at hok
          cases hok
        rw [if_neg hnot]
        exact ⟨files, h.of_slots htidy hslots⟩
      · obtain ⟨hopen, hlen, hsome⟩ := not_or.mp hnone |>.imp_right not_or.mp
        obtain ⟨i, hi⟩ := Option.ne_none_iff_exists'.mp hsome
        rw [hfile] at hopen
        rw [hmem] at hsome
        obtain ⟨hcreates, hnew⟩ := ((hc.resolve_left hopen).resolve_left hlen).resolve_left hsome
        rw [← hmem, ← hfile] at hcreates
        obtain ⟨ps, w', hwrite, htidy, hslots, hidx, hname⟩ : ∃ ps w', slfsWrite pbuf len uninit w = .ok () w' ∧
            Tidy w'.mem (Function.update files i (some ps)) ∧ _ :=
          h.tidy.write_new hi (Nat.pos_of_ne_zero hlen) hcreates
        rw [hwrite, if_pos ⟨rfl, hlen⟩]
        exact ⟨_, h.create hi hnew htidy hslots hidx (hfile ▸ hname)⟩
  | slfsDelete b uninit =>
      obtain ⟨htidy, hslots, hfail⟩ :
          Tidy (stateAfter (slfsDelete uninit { r.1.fs with file := r.1.handles b })).mem files ∧ _ ∧ _ :=
        Tidy.delete_none h.tidy hc
      refine ⟨files, ?_⟩
      dsimp only
      rw [runCall_mem hcall, record, hfail, if_neg Bool.false_ne_true]
      exact h.of_slots htidy hslots

/-- From a formatted device on, in every run that writes each file once and deletes none, the files are listed right
in every state, as long as the array on the stack does not hold the id of one of them only. -/
theorem listing_of_first_versions {s : SlfsSys} {calls : List SlfsCall} (garbage : SlfsSys × History → ℕ → ℕ → ℕ)
    (herased : ∀ x, 192 ≤ x → x < ramdiskSize → s.fs.mem x = 0xFF)
    (hstack : ∀ t k, ∀ i < inodeMaxCnt, (inodeAt t.1.fs.mem i).inodeIdx ≠ minusOne →
      ∃ j < inodeMaxCnt, garbage t k j ≠ (inodeAt t.1.fs.mem i).fileId)
    (hC : Machine.StepsMeet recordStep AddsFile (s, []) calls) :
    Machine.Always recordStep (fun t => Enumerates (garbage t) (Existing t.2) t.1.fs) (s, []) calls :=
  Machine.always_of_stepsMeet (fun t => ∃ files, Listed t.1.fs.mem files t.2)
    (fun t ⟨_, h⟩ => h.enumerates (hstack t)) (fun _ _ _ hs hc hstep => hc.step hs hstep)
    ⟨_, listed_of_erased herased⟩ hC

theorem listing_after_create : Machine.Always recordStep (fun t => Enumerates (fun _ j => j) (Existing t.2) t.1.fs)
    (erasedSys, []) createA := by
  refine listing_of_first_versions _ (fun _ _ _ => rfl) (fun t k i _ _ => ?_) fun t ht =>
    ⟨trivial, fun u hu => ⟨?_, trivial⟩⟩
  · by_cases hzero : (inodeAt t.1.fs.mem i).fileId = 0
    · exact ⟨1, by decide, hzero ▸ one_ne_zero⟩
    · exact ⟨0, by decide, Ne.symm hzero⟩
  · obtain ⟨s, hcall, rfl⟩ := Option.map_eq_some_iff.mp ht
    obtain ⟨hmem, hfile⟩ := open_first hcall
    refine Or.inr (Or.inr (Or.inr ⟨?_, fun hex => hex⟩))
    dsimp only
    rw [hmem, hfile]
    exact creates_first

end Slos.Slfs
