import Slos.SlfsNewFile

/-!
# The inode table

The inode in a slot, the fields a written inode has there, and the slot after the first write of a
file.
-/

namespace Slos.Slfs
open Word ByteMemory Ramdisk ScatterGather

variable {m m' : Mem} {a i : ℕ} {inode : SlfsInode} {w : Fs}

def inodeAt (m : Mem) (i : ℕ) : SlfsInode := SlfsInode.atAddr m (inodeAddr i)

/-- The fields `slfs_delete` sets to 0. -/
def DeleteMark (m : Mem) (i : ℕ) : Prop := (inodeAt m i).fileSize = 0 ∧ (inodeAt m i).datablkAddr = 0

instance : Decidable (DeleteMark m i) := inferInstanceAs (Decidable (_ ∧ _))

/-- All bytes of the slot are as after an erase. -/
def FreeSlot (m : Mem) (i : ℕ) : Prop := ∀ x < 56, m (inodeAddr i + x) = 0xFF

theorem FreeSlot.word_eq (h : FreeSlot m i) {x : ℕ} (hx : x + 4 ≤ 56) :
    word m (inodeAddr i + x) = minusOne := by
  refine word_eq_max.mpr fun j hj => ?_
  rw [Nat.add_assoc]
  exact h (x + j) (by omega)

theorem inodeAt_congr (h : ∀ x < 56, m' (inodeAddr i + x) = m (inodeAddr i + x)) :
    (inodeAt m' i).fileSize = (inodeAt m i).fileSize ∧
      (inodeAt m' i).updateCnt = (inodeAt m i).updateCnt ∧
      (inodeAt m' i).datablkAddr = (inodeAt m i).datablkAddr ∧
      ∀ j < 32, (inodeAt m' i).name j = (inodeAt m i).name j := by
  have hword {k : ℕ} (hk : k + 4 ≤ 56) : word m' (inodeAddr i + k) = word m (inodeAddr i + k) := by
    refine word_shift fun j hj => ?_
    rw [Nat.add_assoc]
    exact h (k + j) (by omega)
  refine ⟨hword (by decide), hword (by decide), hword (by decide), fun j hj => ?_⟩
  have hbyte := h (24 + j) (by omega)
  rwa [← Nat.add_assoc] at hbyte

theorem inodeAt_ids_congr (h : ∀ x < 56, m' (inodeAddr i + x) = m (inodeAddr i + x)) :
    (inodeAt m' i).inodeIdx = (inodeAt m i).inodeIdx ∧ (inodeAt m' i).fileId = (inodeAt m i).fileId := by
  have hword {k : ℕ} (hk : k + 4 ≤ 56) : word m' (inodeAddr i + k) = word m (inodeAddr i + k) := by
    refine word_shift fun j hj => ?_
    rw [Nat.add_assoc]
    exact h (k + j) (by omega)
  exact ⟨hword (k := 0) (by decide), hword (by decide)⟩

theorem slotAddr_eq (hi : i < inodeMaxCnt) : inodeTabStart + i * inodeSize = inodeAddr i := by
  have hi' : i < 32 := hi
  rw [inodeAddr_eq hi]
  simp only [inodeTabStart, datablkBitmapStart, inodeBitmapStart, inodeSize]
  omega

theorem readInode_run (hi : i < inodeMaxCnt) :
    readOrErr (inodeTabStart + i * inodeSize) inodeSize w =
      .ok (ofBytes (bytes w.mem (inodeAddr i) 56)) w := by
  rw [slotAddr_eq hi]
  exact readOrErr_of_le ((inodeAddr_lt hi).le.trans (by decide))

theorem atAddr_ofBytes {a : ℕ} : (SlfsInode.atAddr (ofBytes (bytes m a 56)) 0).fileSize = word m (a + 8) ∧
    (SlfsInode.atAddr (ofBytes (bytes m a 56)) 0).updateCnt = word m (a + 4) ∧
    (SlfsInode.atAddr (ofBytes (bytes m a 56)) 0).datablkAddr = word m (a + 12) ∧
    ∀ j < 32, (SlfsInode.atAddr (ofBytes (bytes m a 56)) 0).name j = m (a + 24 + j) := by
  refine ⟨word_ofBytes_bytes (by decide), word_ofBytes_bytes (by decide), word_ofBytes_bytes (by decide),
    fun j hj => ?_⟩
  rw [Nat.add_assoc]
  exact ofBytes_bytes (by omega)

theorem nameMatches_congr {a a' b b' : ℕ → UInt8} (ha : ∀ j < 16, a' j = a j)
    (hb : ∀ j < 16, b' j = b j) : nameMatches a' b' = nameMatches a b := by
  have hfind : (List.range slfsFnameLen).find? (fun j => a' j != b' j || a' j == 0) =
      (List.range slfsFnameLen).find? fun j => a j != b j || a j == 0 :=
    find?_congr fun j hj => by rw [ha j (List.mem_range.mp hj), hb j (List.mem_range.mp hj)]
  rw [nameMatches, nameMatches, hfind]
  cases hj : (List.range slfsFnameLen).find? fun j => a j != b j || a j == 0 with
  | none => rfl
  | some j =>
      have hlt : j < 16 := List.mem_range.mp (List.mem_of_find?_eq_some hj)
      simp only [ha j hlt, hb j hlt]

theorem nameMatches_comm (a b : ℕ → UInt8) : nameMatches a b = nameMatches b a := by
  have hfind : (List.range slfsFnameLen).find? (fun j => a j != b j || a j == 0) =
      (List.range slfsFnameLen).find? fun j => b j != a j || b j == 0 := by
    refine find?_congr fun j _ => ?_
    by_cases hab : a j = b j
    · rw [hab]
    · rw [bne_iff_ne.mpr hab, bne_iff_ne.mpr (Ne.symm hab)]
      rfl
  rw [nameMatches, nameMatches, hfind]
  cases (List.range slfsFnameLen).find? fun j => b j != a j || b j == 0 with
  | none => rfl
  | some j => exact Bool.beq_comm

theorem word_toBytes_inodeIdx : word (put m a inode.toBytes) a = u32 inode.inodeIdx := by
  have hsplit : inode.toBytes = [] ++ (wordBytes inode.inodeIdx ++ (wordBytes inode.updateCnt ++
      wordBytes inode.fileSize ++ wordBytes inode.datablkAddr ++ wordBytes inode.fileId ++
        wordBytes inode.reserved ++ (List.range fnameLen).map inode.name)) := by
    simp only [SlfsInode.toBytes, List.append_assoc, List.nil_append]
  rw [hsplit]
  exact word_put_mid (k := 0) rfl

theorem word_toBytes_updateCnt :
    word (put m a inode.toBytes) (a + 4) = u32 inode.updateCnt := by
  have hsplit : inode.toBytes = wordBytes inode.inodeIdx ++ (wordBytes inode.updateCnt ++
      (wordBytes inode.fileSize ++ wordBytes inode.datablkAddr ++ wordBytes inode.fileId ++
        wordBytes inode.reserved ++ (List.range fnameLen).map inode.name)) := by
    simp only [SlfsInode.toBytes, List.append_assoc]
  rw [hsplit]
  exact word_put_mid rfl

theorem word_toBytes_fileSize :
    word (put m a inode.toBytes) (a + 8) = u32 inode.fileSize := by
  have hsplit : inode.toBytes = (wordBytes inode.inodeIdx ++ wordBytes inode.updateCnt) ++
      (wordBytes inode.fileSize ++ (wordBytes inode.datablkAddr ++ wordBytes inode.fileId ++
        wordBytes inode.reserved ++ (List.range fnameLen).map inode.name)) := by
    simp only [SlfsInode.toBytes, List.append_assoc]
  rw [hsplit]
  exact word_put_mid rfl

theorem word_toBytes_datablkAddr :
    word (put m a inode.toBytes) (a + 12) = u32 inode.datablkAddr := by
  have hsplit : inode.toBytes = (wordBytes inode.inodeIdx ++ wordBytes inode.updateCnt ++
      wordBytes inode.fileSize) ++ (wordBytes inode.datablkAddr ++ (wordBytes inode.fileId ++
        wordBytes inode.reserved ++ (List.range fnameLen).map inode.name)) := by
    simp only [SlfsInode.toBytes, List.append_assoc]
  rw [hsplit]
  exact word_put_mid rfl

theorem toBytes_name {j : ℕ} (hj : j < 32) : put m a inode.toBytes (a + 24 + j) = inode.name j := by
  have hlen : (wordBytes inode.inodeIdx ++ wordBytes inode.updateCnt ++ wordBytes inode.fileSize ++
      wordBytes inode.datablkAddr ++ wordBytes inode.fileId ++ wordBytes inode.reserved).length = 24 := rfl
  rw [SlfsInode.toBytes, put_append, hlen, put_add, List.getElem?_map, fnameLen, List.getElem?_range hj]
  rfl

/-- But for the update count the first write of a file leaves the inode in the slot that it writes there. -/
theorem writtenNew_word {pf : SlfsFile} {p k : ℕ} {qs : List ℕ} (uninit : Uninit) (bs : List UInt8)
    (hi : i < inodeMaxCnt) (hin : ∀ q ∈ p :: qs, 4096 ≤ q) (hk : k = 0 ∨ 8 ≤ k) (hk' : k + 4 ≤ 56) :
    word (writtenNew m i pf uninit p qs bs) (inodeAddr i + k) =
      word (put (put (linkedBlks m i pf p qs) (inodeAddr i) (firstInode uninit pf).toBytes) (inodeAddr i)
        (fullInode uninit pf).toBytes) (inodeAddr i + k) := by
  have hslot : inodeAddr i + 56 < 4096 := inodeAddr_lt hi
  rw [writtenNew, word_put_of_disjoint (by rw [wordBytes_length]; omega)]
  refine word_congr fun x _ hx => ?_
  rw [scatter_of_notMem fun q hq => Or.inl (lt_of_lt_of_le (by omega) (hin q hq)), namedBlks]

theorem writtenNew_index {pf : SlfsFile} {p : ℕ} {qs : List ℕ} (uninit : Uninit) (bs : List UInt8)
    (hi : i < inodeMaxCnt) (hin : ∀ q ∈ p :: qs, 4096 ≤ q) (hidx : pf.inodeIdx < Word.size) :
    (inodeAt (writtenNew m i pf uninit p qs bs) i).inodeIdx = pf.inodeIdx :=
  ((writtenNew_word (k := 0) uninit bs hi hin (Or.inl rfl) (by decide)).trans word_toBytes_inodeIdx).trans
    (u32_of_lt hidx)

/-- What a mount, a search or a collection reads of a slot once the first write of a file is done. -/
theorem writtenNew_inode {pf : SlfsFile} {p : ℕ} {qs : List ℕ} (uninit : Uninit) (bs : List UInt8)
    (hi : i < inodeMaxCnt) (hin : ∀ q ∈ p :: qs, 4096 ≤ q) (hsize : pf.fileSize < Word.size)
    (hcnt : pf.updateCnt < Word.size) (haddr : pf.datablkAddr < Word.size) :
    (inodeAt (writtenNew m i pf uninit p qs bs) i).fileSize = pf.fileSize ∧
      (inodeAt (writtenNew m i pf uninit p qs bs) i).updateCnt = pf.updateCnt ∧
      (inodeAt (writtenNew m i pf uninit p qs bs) i).datablkAddr = pf.datablkAddr ∧
      ∀ j < 16, (inodeAt (writtenNew m i pf uninit p qs bs) i).name j = pf.name j := by
  have hslot : inodeAddr i + 56 < 4096 := inodeAddr_lt hi
  refine ⟨?_, word_put_wordBytes hcnt, ?_, fun j hj => ?_⟩
  · exact ((writtenNew_word uninit bs hi hin (Or.inr le_rfl) (by decide)).trans word_toBytes_fileSize).trans
      (u32_of_lt hsize)
  · exact ((writtenNew_word uninit bs hi hin (Or.inr (by decide)) (by decide)).trans word_toBytes_datablkAddr).trans
      (u32_of_lt haddr)
  · change writtenNew m i pf uninit p qs bs (inodeAddr i + 24 + j) = pf.name j
    rw [writtenNew, put_of_ge (by rw [wordBytes_length]; omega),
      scatter_of_notMem fun q hq => Or.inl (lt_of_lt_of_le (by omega) (hin q hq)), namedBlks, toBytes_name (by omega)]
    exact if_pos hj

end Slos.Slfs
