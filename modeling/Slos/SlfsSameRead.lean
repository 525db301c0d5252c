import Slos.SlfsChain

/-!
# Reads that end the same way

A read comes to the data blocks of the handle one after another, and what it looks at is 512 bytes of each.
Where two devices agree on these blocks it ends the same way on both and leaves the same buffer.
-/

namespace Slos.Slfs
open Word ByteMemory Ramdisk

variable {α β : Type} {m m' : Mem} {w w' v : Fs} {p n : ℕ}

/-- A word as the device reads it: past the last address it goes on at 0. -/
def tailWord (m : Mem) (a : ℕ) : ℕ := word (fun x => m (u32 (a + x))) 0

/-- The block that `k` tail words lead to from block `p` on. -/
def blkAfter (m : Mem) (p : ℕ) : ℕ → ℕ
  | 0 => p
  | k + 1 => tailWord m (blkAfter m p k + datablkTailOffLow)

/-- The devices agree on block `k` behind `p`. -/
def AgreeAt (m m' : Mem) (p k : ℕ) : Prop := ∀ x < 512, m' (u32 (blkAfter m p k + x)) = m (u32 (blkAfter m p k + x))

/-- A read may come to block `k`. From position 0 on it ends with the file; from another position the sum of
position and length can wrap, and nothing ends it. -/
def MayRead (pf : SlfsFile) (k : ℕ) : Prop := pf.pos = 0 → 504 * k < pf.fileSize

/-- The same handle and buffer on two devices. -/
structure Twin (m m' : Mem) (w w' : Fs) : Prop where
  mem : w.mem = m
  mem' : w'.mem = m'
  file : w'.file = w.file
  buf : w'.buf = w.buf

inductive SameEnd (m m' : Mem) : EStateM.Result FsErr Fs α → EStateM.Result FsErr Fs α → Prop
  | ok {a : α} {v v' : Fs} : Twin m m' v v' → SameEnd m m' (.ok a v) (.ok a v')
  | error {e : FsErr} {v v' : Fs} : Twin m m' v v' → SameEnd m m' (.error e v) (.error e v')

theorem SameEnd.bind {x : FsM α} {f : α → FsM β} (hx : SameEnd m m' (x w) (x w'))
    (hf : ∀ a v v', x w = .ok a v → Twin m m' v v' → SameEnd m m' (f a v) (f a v')) :
    SameEnd m m' ((x >>= f) w) ((x >>= f) w') := by
  cases hrun : x w with
  | ok a v =>
      cases hrun' : x w' with
      | ok a' v' =>
          rw [hrun, hrun'] at hx
          cases hx with
          | ok ht =>
              rw [bind_ok hrun, bind_ok hrun']
              exact hf a v v' hrun ht
      | error e v' =>
          rw [hrun, hrun'] at hx
          cases hx
  | error e v =>
      cases hrun' : x w' with
      | ok a' v' =>
          rw [hrun, hrun'] at hx
          cases hx
      | error e' v' =>
          rw [hrun, hrun'] at hx
          cases hx with
          | error ht =>
              rw [bind_error hrun, bind_error hrun']
              exact .error ht

theorem readRamdisk_congr {a len : ℕ} (h : ∀ x < len, m' (u32 (a + x)) = m (u32 (a + x))) :
    readRamdisk m' a len = readRamdisk m a len := by
  have hbytes : (List.range len).map (fun x => m' (u32 (a + x))) = (List.range len).map fun x => m (u32 (a + x)) :=
    List.map_congr_left fun x hx => h x (List.mem_range.mp hx)
  rw [readRamdisk, readRamdisk, hbytes]

theorem u32_add_u32 (a b : ℕ) : u32 (u32 a + b) = u32 (a + b) := Nat.mod_add_mod a size b

theorem readWord_twin {a : ℕ} (ht : Twin m m' w w') (h : ∀ x < 4, m' (u32 (a + x)) = m (u32 (a + x))) :
    SameEnd m m' (readWord (u32 a) w) (readWord (u32 a) w') := by
  have hread : readRamdisk w'.mem (u32 a) 4 = readRamdisk w.mem (u32 a) 4 := by
    rw [ht.mem, ht.mem']
    refine readRamdisk_congr fun x hx => ?_
    rw [u32_add_u32]
    exact h x hx
  refine SameEnd.bind ?_ fun b v v' _ ht' => .ok ht'
  rw [readOrErr, readOrErr, hread]
  split
  · exact .ok ht
  · exact .error ht

theorem readWord_eq_tailWord {a q : ℕ} (h : readWord (u32 a) w = .ok q v) : q = tailWord w.mem a := by
  obtain ⟨b, u, hread, hpure⟩ := bind_eq_ok h
  cases hpure
  rw [readOrErr, readRamdisk] at hread
  split at hread
  · rename_i bs hbs
    split at hbs
    · cases hbs
    · cases hbs
      cases hread
      have hbytes : (List.range 4).map (fun x => w.mem (u32 (u32 a + x))) =
          bytes (fun x => w.mem (u32 (a + x))) 0 4 := by
        refine List.map_congr_left fun x _ => ?_
        rw [u32_add_u32, Nat.zero_add]
      rw [hbytes, word_ofBytes_bytes le_rfl]
      rfl
  · cases hread

theorem readInto_twin {a len bufPos : ℕ} (ht : Twin m m' w w') (h : ∀ x < len, m' (u32 (a + x)) = m (u32 (a + x))) :
    SameEnd m m' (readInto a len bufPos w) (readInto a len bufPos w') := by
  have hread : readRamdisk w'.mem a len = readRamdisk w.mem a len := by
    rw [ht.mem, ht.mem']
    exact readRamdisk_congr h
  rw [readInto, readInto, hread]
  split
  · exact .ok ⟨ht.mem, ht.mem', ht.file, by rw [ht.buf]⟩
  · exact .error ht

theorem readNext_twin {k : ℕ} (ht : Twin m m' w w') (h : AgreeAt m m' p k) :
    SameEnd m m' (readWord (u32 (blkAfter m p k + datablkTailOffLow)) w)
      (readWord (u32 (blkAfter m p k + datablkTailOffLow)) w') := by
  refine readWord_twin ht fun x hx => ?_
  have hlow : datablkTailOffLow = 508 := rfl
  rw [Nat.add_assoc]
  exact h _ (by omega)

/-- The word at the end of block `k` is the address of block `k + 1`. -/
theorem readNext_eq {k q : ℕ} (hmem : w.mem = m)
    (h : readWord (u32 (blkAfter m p k + datablkTailOffLow)) w = .ok q v) : q = blkAfter m p (k + 1) := by
  rw [readWord_eq_tailWord h, hmem, blkAfter]

theorem getDatablkAddrLoop_eq {idx k q : ℕ} (hmem : w.mem = m)
    (h : getDatablkAddrLoop idx (blkAfter m p k) w = .ok q v) : q = minusOne ∨ q = blkAfter m p (k + idx) := by
  induction idx generalizing k w with
  | zero =>
      cases h
      exact Or.inr rfl
  | succ idx ih =>
      rw [getDatablkAddrLoop] at h
      by_cases hend : blkAfter m p k = minusOne
      · rw [if_pos hend] at h
        cases h
        exact Or.inl hend
      · rw [if_neg hend] at h
        obtain ⟨r, u, hnext, hrest⟩ := bind_eq_ok h
        have hu := (readWord_readOnly _).ok hnext
        rw [readNext_eq hmem hnext] at hrest
        rw [← Nat.succ_add_eq_add_succ]
        exact ih (hu ▸ hmem) hrest

theorem getDatablkAddrLoop_twin {idx k : ℕ} (ht : Twin m m' w w') (h : ∀ j < k + idx, AgreeAt m m' p j) :
    SameEnd m m' (getDatablkAddrLoop idx (blkAfter m p k) w) (getDatablkAddrLoop idx (blkAfter m p k) w') := by
  induction idx generalizing k w w' with
  | zero => exact .ok ht
  | succ idx ih =>
      rw [getDatablkAddrLoop]
      by_cases hend : blkAfter m p k = minusOne
      · rw [if_pos hend]
        exact .ok ht
      · rw [if_neg hend]
        refine (readNext_twin ht (h k (by omega))).bind fun r u u' hnext hu => ?_
        rw [readNext_eq ht.mem hnext]
        exact ih hu fun j hj => h j (by omega)

theorem getDatablkAddr_eq {idx q : ℕ} (h : getDatablkAddr idx w = .ok q v) :
    q = blkAfter w.mem w.file.datablkAddr idx := by
  rw [getDatablkAddr, getFile_bind] at h
  split at h
  · cases h
  · obtain ⟨r, u, hloop, hrest⟩ := bind_eq_ok h
    split at hrest
    · cases hrest
    · cases hrest
      have hloop' : getDatablkAddrLoop idx (blkAfter w.mem w.file.datablkAddr 0) w = .ok q v := hloop
      rcases getDatablkAddrLoop_eq rfl hloop' with hmax | heq
      · contradiction
      · rw [heq, Nat.zero_add]

theorem getDatablkAddr_twin {idx : ℕ} (ht : Twin m m' w w')
    (h : ∀ k < idx, AgreeAt m m' w.file.datablkAddr k) :
    SameEnd m m' (getDatablkAddr idx w) (getDatablkAddr idx w') := by
  rw [getDatablkAddr, getFile_bind, getFile_bind, ht.file]
  split
  · exact .error ht
  · refine SameEnd.bind ?_ fun r u u' _ hu => ?_
    · exact getDatablkAddrLoop_twin (p := w.file.datablkAddr) (k := 0) ht (by rwa [Nat.zero_add])
    · split
      · exact .error hu
      · exact .ok hu

/-- From block `k` on the read goes on to the blocks behind it. -/
theorem readBlks_twin {fuel k bufPos : ℕ} (ht : Twin m m' w w') (hk : n ≠ 0 → AgreeAt m m' p k)
    (h : ∀ j, 504 * j < n → AgreeAt m m' p (k + 1 + j)) :
    SameEnd m m' (readBlks fuel (blkAfter m p k) bufPos n w) (readBlks fuel (blkAfter m p k) bufPos n w') := by
  induction fuel generalizing k bufPos n w w' with
  | zero => exact .ok ht
  | succ fuel ih =>
      rw [readBlks]
      by_cases hn : n = 0
      · rw [if_pos hn]
        exact .ok ht
      · rw [if_neg hn]
        refine (readNext_twin ht (hk hn)).bind fun q u u' hnext hu => ?_
        have hhere : AgreeAt m m' p (k + 1) := h 0 (Nat.pos_of_ne_zero hn)
        have hlen : (if n ≥ datablkPayloadSize then datablkPayloadSize else n) = min n 504 := by
          change (if n ≥ 504 then 504 else n) = _
          split <;> omega
        rw [readNext_eq ht.mem hnext, hlen]
        refine (readInto_twin hu fun x hx => hhere x (by omega)).bind fun _ x x' _ hx => ?_
        refine ih hx (fun _ => hhere) fun j hj => ?_
        have hnext : 504 * (j + 1) < n := by omega
        have hindex : k + 1 + (j + 1) = k + 1 + 1 + j := by omega
        exact hindex ▸ h (j + 1) hnext

theorem slfsRead_twin (ht : Twin m m' w w') (hn : n < size)
    (h : ∀ k, MayRead w.file k → AgreeAt m m' w.file.datablkAddr k) : SameEnd m m' (slfsRead n w) (slfsRead n w') := by
  rw [slfsRead, getFile_bind, getFile_bind, ht.file]
  split
  · exact .error ht
  · rename_i hdata
    obtain ⟨i, off, hblk, hsplit, hoff, hi⟩ := blkOfPos_eq 0 (le_refl w.file.pos)
    obtain ⟨l, hl⟩ : ∃ l, (if w.file.fileSize < u32 (w.file.pos + n) then usub w.file.fileSize w.file.pos else n) = l :=
      ⟨_, rfl⟩
    obtain ⟨len, hlen⟩ : ∃ len, (if datablkPayloadSize - off > l then l else datablkPayloadSize - off) = len := ⟨_, rfl⟩
    -- at position 0 the length is cut off at the end of the file
    have hcut : w.file.pos = 0 → l ≤ w.file.fileSize := by
      intro hpos
      rw [← hl, hpos, Nat.zero_add, u32_of_lt hn]
      split
      · rw [usub_of_le (by omega) (Nat.zero_le _), Nat.sub_zero]
      · omega
    have hlen' : len = min l (504 - off) := by
      rw [← hlen]
      change (if 504 - off > l then l else 504 - off) = _
      split <;> omega
    have hfirst : AgreeAt m m' w.file.datablkAddr i := h i fun hpos => by omega
    simp only [hl, hblk, Nat.zero_add, hlen]
    refine (getDatablkAddr_twin ht fun k hk => h k fun hpos => by omega).bind fun q u u' hget hu => ?_
    have hq : q = blkAfter m w.file.datablkAddr i := ht.mem ▸ getDatablkAddr_eq hget
    rw [hq]
    refine (readInto_twin hu fun x hx => ?_).bind fun _ x x' _ hx => ?_
    · rw [u32_add_u32, Nat.add_assoc]
      exact hfirst _ (by omega)
    · refine readBlks_twin hx (fun _ => hfirst) fun j hj => h _ fun hpos => ?_
      have hl' := hcut hpos
      omega

end Slos.Slfs
