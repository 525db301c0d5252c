import Slos.SlfsInodes

/-!
# Opening a file

What the search of `slfs_open` returns, the newest inode with the name, and what `slfs_open` leaves: the
device as it was and a handle with the name it was given.
-/

namespace Slos.Slfs
open Word ByteMemory Ramdisk

variable {m m' : Mem} {pname : ℕ → UInt8} {i k : ℕ} {w : Fs}

/-- The inode of a slot as the search reads it. -/
def readInode (m : Mem) (i : ℕ) : SlfsInode := SlfsInode.atAddr (ofBytes (bytes m (inodeAddr i) 56)) 0

/-- Of the first `k` slots with the name, the first one with the largest update count. -/
def Newest (m : Mem) (pname : ℕ → UInt8) (k : ℕ) : Option ℕ → Prop
  | none => ∀ j < k, nameMatches pname (inodeAt m j).name = false
  | some i => i < k ∧ nameMatches pname (inodeAt m i).name ∧
      ∀ j < k, nameMatches pname (inodeAt m j).name → (inodeAt m j).updateCnt < (inodeAt m i).updateCnt ∨
        (inodeAt m j).updateCnt = (inodeAt m i).updateCnt ∧ i ≤ j

theorem readInode_updateCnt : (readInode m i).updateCnt = (inodeAt m i).updateCnt :=
  (atAddr_ofBytes (m := m) (a := inodeAddr i)).2.1

theorem readInode_inodeIdx : (readInode m i).inodeIdx = (inodeAt m i).inodeIdx :=
  word_ofBytes_bytes (by decide)

theorem readInode_fileId : (readInode m i).fileId = (inodeAt m i).fileId :=
  word_ofBytes_bytes (by decide)

theorem readInode_fileSize : (readInode m i).fileSize = (inodeAt m i).fileSize :=
  word_ofBytes_bytes (by decide)

theorem readInode_datablkAddr : (readInode m i).datablkAddr = (inodeAt m i).datablkAddr :=
  word_ofBytes_bytes (by decide)

theorem nameMatches_readInode :
    nameMatches pname (readInode m i).name = nameMatches pname (inodeAt m i).name :=
  nameMatches_congr (fun _ _ => rfl) fun j hj =>
    (atAddr_ofBytes (m := m) (a := inodeAddr i)).2.2.2 j (by omega)

theorem openLoop_append (is js : List ℕ) (last : Option SlfsInode) :
    openLoop pname (is ++ js) last = (openLoop pname is last >>= fun l => openLoop pname js l) := by
  induction is generalizing last with
  | nil => rfl
  | cons i is ih =>
      rw [List.cons_append, openLoop, openLoop, bind_assoc]
      exact congrArg _ (funext fun b => ih _)

theorem openLoop_slot {last : Option SlfsInode} (hi : i < inodeMaxCnt) :
    openLoop pname [i] last w = .ok (if nameMatches pname (readInode w.mem i).name then
      match last with
      | none => some (readInode w.mem i)
      | some l => if l.updateCnt < (readInode w.mem i).updateCnt then some (readInode w.mem i) else last
      else last) w := by
  rw [openLoop, bind_ok (readInode_run hi)]
  rfl

theorem openLoop_newest (hk : k ≤ inodeMaxCnt) : ∃ o,
    openLoop pname (List.range k) none w = .ok (o.map (readInode w.mem)) w ∧ Newest w.mem pname k o := by
  induction k with
  | zero => exact ⟨none, rfl, fun j hj => absurd hj (Nat.not_lt_zero j)⟩
  | succ k ih =>
      obtain ⟨o, hrun, hnew⟩ := ih (Nat.le_of_succ_le hk)
      have hstep := (congrFun (openLoop_append (List.range k) [k] none) w).trans
        ((bind_ok hrun).trans (openLoop_slot (Nat.lt_of_succ_le hk)))
      rw [← List.range_succ, nameMatches_readInode] at hstep
      by_cases hmatch : nameMatches pname (inodeAt w.mem k).name
      · rw [if_pos hmatch] at hstep
        cases o with
        | none =>
            refine ⟨some k, hstep, Nat.lt_succ_self k, hmatch, fun j hj hj' => ?_⟩
            rcases Nat.lt_succ_iff_lt_or_eq.mp hj with hlt | rfl
            · rw [hnew j hlt] at hj'
              cases hj'
            · exact Or.inr ⟨rfl, le_rfl⟩
        | some l =>
            obtain ⟨hl, hlmatch, hmax⟩ := hnew
            dsimp only [Option.map_some] at hstep
            rw [readInode_updateCnt, readInode_updateCnt] at hstep
            by_cases hlt : (inodeAt w.mem l).updateCnt < (inodeAt w.mem k).updateCnt
            · rw [if_pos hlt] at hstep
              refine ⟨some k, hstep, Nat.lt_succ_self k, hmatch, fun j hj hj' => ?_⟩
              rcases Nat.lt_succ_iff_lt_or_eq.mp hj with hjk | rfl
              · have hjl := hmax j hjk hj'
                exact Or.inl (by omega)
              · exact Or.inr ⟨rfl, le_rfl⟩
            · rw [if_neg hlt] at hstep
              refine ⟨some l, hstep, Nat.lt_succ_of_lt hl, hlmatch, fun j hj hj' => ?_⟩
              rcases Nat.lt_succ_iff_lt_or_eq.mp hj with hjk | rfl
              · exact hmax j hjk hj'
              · omega
      · rw [if_neg hmatch] at hstep
        refine ⟨o, hstep, ?_⟩
        cases o with
        | none =>
            intro j hj
            rcases Nat.lt_succ_iff_lt_or_eq.mp hj with hjk | rfl
            · exact hnew j hjk
            · exact Bool.eq_false_iff.mpr hmatch
        | some l =>
            obtain ⟨hl, hlmatch, hmax⟩ := hnew
            refine ⟨Nat.lt_succ_of_lt hl, hlmatch, fun j hj hj' => ?_⟩
            rcases Nat.lt_succ_iff_lt_or_eq.mp hj with hjk | rfl
            · exact hmax j hjk hj'
            · exact absurd hj' hmatch

theorem Newest.unique {o o' : Option ℕ} (h : Newest m pname k o) (h' : Newest m pname k o') : o = o' := by
  cases o with
  | none =>
      cases o' with
      | none => rfl
      | some i =>
          have hi := h i h'.1
          rw [h'.2.1] at hi
          cases hi
  | some i =>
      cases o' with
      | none =>
          have hi := h' i h.1
          rw [h.2.1] at hi
          cases hi
      | some j =>
          have hij := h.2.2 j h'.1 h'.2.1
          have hji := h'.2.2 i h.1 h.2.1
          have heq : i = j := by omega
          rw [heq]

/-- The search of `slfs_open` returns the newest inode. -/
theorem Newest.openLoop {o : Option ℕ} (h : Newest w.mem pname inodeMaxCnt o) :
    openLoop pname (List.range inodeMaxCnt) none w = .ok (o.map (readInode w.mem)) w := by
  obtain ⟨o', hrun, hnew⟩ := openLoop_newest (w := w) (le_refl inodeMaxCnt)
  rw [h.unique hnew]
  exact hrun

theorem slfsOpen_stays {P : Fs → Prop} {pname : ℕ → UInt8}
    (hfile : ∀ w (f : SlfsFile → SlfsFile), P w → P { w with file := f w.file }) :
    Stays P (slfsOpen pname) fun _ => True := by
  have hset (f : SlfsFile → SlfsFile) := modifyFile_stays (P := P) (f := f) fun w => hfile w f
  refine ((openLoop_readOnly pname _ _).stays fun _ _ _ _ _ => trivial).bind fun found _ => ?_
  cases found with
  | none => exact hset _
  | some inode =>
      dsimp only
      split
      · refine (hset _).bind fun _ _ => ?_
        exact (getDatablkNum_readOnly.stays fun _ _ _ _ _ => trivial).bind fun _ _ => hset _
      · exact hset _

theorem slfsOpen_mem (pname : ℕ → UInt8) (w : Fs) : (stateAfter (slfsOpen pname w)).mem = w.mem :=
  (slfsOpen_stays (P := fun u => u.mem = w.mem) (fun _ _ h => h) w rfl).1


section Names

variable {a b c : ℕ → UInt8}

/-- The name and its terminating NUL fit an inode. -/
def Terminated (a : ℕ → UInt8) : Prop := ∃ j < slfsFnameLen, a j = 0

/-- The same string: equal up to and including the NUL. -/
def SameName (a b : ℕ → UInt8) : Prop := ∀ j, (∀ k < j, a k ≠ 0) → a j = b j

theorem SameName.ne_zero (h : SameName a b) {j : ℕ} (hb : ∀ k < j, b k ≠ 0) : ∀ k < j, a k ≠ 0 := by
  intro k
  induction k using Nat.strong_induction_on with
  | _ k ih =>
      intro hk
      rw [h k fun l hl => ih l hl (hl.trans hk)]
      exact hb k hk

theorem SameName.symm (h : SameName a b) : SameName b a := fun j hj =>
  (h j (h.ne_zero hj)).symm

theorem SameName.trans (h : SameName a b) (h' : SameName b c) : SameName a c := fun j hj =>
  (h j hj).trans (h' j (h.symm.ne_zero hj))

theorem Terminated.of_same (h : Terminated a) (hab : SameName a b) : Terminated b := by
  have hex : ∃ j, j < slfsFnameLen ∧ a j = 0 := h
  obtain ⟨hlt, hzero⟩ := Nat.find_spec hex
  have hbefore : ∀ k < Nat.find hex, a k ≠ 0 := fun k hk hk0 =>
    Nat.find_min hex hk ⟨hk.trans hlt, hk0⟩
  exact ⟨_, hlt, (hab _ hbefore).symm.trans hzero⟩

/-- The comparison in the search finds exactly the names that fit and are the same string. -/
theorem nameMatches_iff : nameMatches a b ↔ Terminated a ∧ SameName a b := by
  rw [nameMatches]
  cases hj : (List.range slfsFnameLen).find? fun j => a j != b j || a j == 0 with
  | none =>
      refine iff_of_false Bool.false_ne_true ?_
      rintro ⟨⟨j, hlt, hzero⟩, -⟩
      have hnot := List.find?_eq_none.mp hj j (List.mem_range.mpr hlt)
      rw [hzero] at hnot
      simp at hnot
  | some j =>
      have hlt : j < slfsFnameLen := List.mem_range.mp (List.mem_of_find?_eq_some hj)
      have hcond := List.find?_some hj
      have hbefore : ∀ k < j, a k = b k ∧ a k ≠ 0 := fun k hk => by
        have hnot := (List.find?_range_eq_some.mp hj).2.2 k hk
        simpa using hnot
      dsimp only
      rw [beq_iff_eq]
      constructor
      · intro heq
        have hzero : a j = 0 := by simpa [heq] using hcond
        refine ⟨⟨j, hlt, hzero⟩, fun k hk => ?_⟩
        rcases lt_trichotomy k j with hkj | rfl | hkj
        · exact (hbefore k hkj).1
        · exact heq
        · exact absurd hzero (hk j hkj)
      · rintro ⟨-, hsame⟩
        exact hsame j fun k hk => (hbefore k hk).2

theorem copyName_same (h : Terminated b) : SameName b (copyName a b) := by
  intro j hj
  obtain ⟨k, hk, hzero⟩ := h
  have hlt : j < slfsFnameLen := by
    by_contra hge
    exact hj k (hk.trans_le (Nat.not_lt.mp hge)) hzero
  exact (if_pos ⟨hlt, hj⟩).symm

end Names

theorem Newest.matches {o : Option ℕ} (h : Newest m pname k o) (ho : o = some i) :
    nameMatches pname (inodeAt m i).name := by
  subst ho
  exact h.2.1

/-- However the count of its blocks ends, the handle is that of the inode found. -/
theorem slfsOpen_found (h : Newest w.mem pname inodeMaxCnt (some i)) (hidx : (readInode w.mem i).inodeIdx ≠ minusOne) :
    ∃ num, (stateAfter (slfsOpen pname w)).file =
      { openFound w.file (readInode w.mem i) with allocedblkNum := num } := by
  rw [slfsOpen, bind_ok h.openLoop]
  dsimp only [Option.map_some]
  rw [if_pos hidx, modifyFile_bind]
  have hread := getDatablkNum_readOnly { w with file := openFound w.file (readInode w.mem i) }
  cases hnum : getDatablkNum { w with file := openFound w.file (readInode w.mem i) } with
  | error e u =>
      rw [hnum] at hread
      have hu : u = { w with file := openFound w.file (readInode w.mem i) } := hread
      rw [bind_error hnum, hu]
      exact ⟨w.file.allocedblkNum, rfl⟩
  | ok n u =>
      obtain rfl := getDatablkNum_readOnly.ok hnum
      rw [bind_ok hnum]
      exact ⟨n, rfl⟩

/-- However `slfs_open` ends, the handle is a new one or that of the newest inode with the name. -/
theorem slfsOpen_cases : (stateAfter (slfsOpen pname w)).file = openNew w.file pname ∨
    ∃ i num, Newest w.mem pname inodeMaxCnt (some i) ∧ (stateAfter (slfsOpen pname w)).file =
      { openFound w.file (readInode w.mem i) with allocedblkNum := num } := by
  obtain ⟨o, hrun, hnew⟩ := openLoop_newest (w := w) (le_refl inodeMaxCnt)
  cases o with
  | none =>
      rw [slfsOpen, bind_ok hrun]
      exact Or.inl rfl
  | some i =>
      by_cases hidx : (readInode w.mem i).inodeIdx ≠ minusOne
      · obtain ⟨num, hfile⟩ := slfsOpen_found hnew hidx
        exact Or.inr ⟨i, num, hnew, hfile⟩
      · rw [slfsOpen, bind_ok hrun]
        dsimp only [Option.map_some]
        rw [if_neg hidx]
        exact Or.inl rfl

theorem slfsOpen_pos : (stateAfter (slfsOpen pname w)).file.pos = 0 := by
  rcases slfsOpen_cases (w := w) with hfile | ⟨i, num, -, hfile⟩
  · rw [hfile]
    rfl
  · rw [hfile]
    rfl

/-- However `slfs_open` ends, the handle is at position 0 and has the name. -/
theorem slfsOpen_file (hname : Terminated pname) : (stateAfter (slfsOpen pname w)).file.pos = 0 ∧
    SameName pname (stateAfter (slfsOpen pname w)).file.name := by
  refine ⟨slfsOpen_pos, ?_⟩
  rcases slfsOpen_cases (w := w) with hfile | ⟨i, num, hnew, hfile⟩
  · rw [hfile]
    exact copyName_same hname
  · have hsame : SameName pname (readInode w.mem i).name := by
      have hmatch := hnew.matches rfl
      rw [← nameMatches_readInode] at hmatch
      exact (nameMatches_iff.mp hmatch).2
    rw [hfile]
    exact hsame.trans (copyName_same (hname.of_same hsame))

end Slos.Slfs
