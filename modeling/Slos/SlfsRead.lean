import Slos.SlfsChain

/-!
# Reading a file

What `slfs_read` puts into the buffer of the caller, for every position and every length. The end of the file is found by a 32-bit
sum of both: where that wraps nothing is cut off, and the read goes on behind the last data block.
-/

namespace Slos.Slfs
open Word ByteMemory Ramdisk ScatterGather

/-- The data blocks of the handle, with room for the file, and a position in it. A file without data has none. -/
structure WellChained (w : Fs) (blocks : List ℕ) : Prop where
  chain : ∀ p qs, blocks = p :: qs → w.file.datablkAddr = p ∧ Chain w.mem p qs
  room : w.file.fileSize ≤ 504 * blocks.length
  pos : w.file.pos ≤ w.file.fileSize

def fileBytes (w : Fs) (blocks : List ℕ) : List UInt8 := (gather w.mem 504 blocks).take w.file.fileSize

/-- The two devices have the same bytes in the blocks. -/
def AgreeOn (blocks : List ℕ) (m m' : Mem) : Prop := ∀ b ∈ blocks, ∀ x, b ≤ x → x < b + 512 → m' x = m x

/-- A read of `n` bytes puts those of the file from the position on into the buffer and does nothing else, whatever the buffer and
the rest of the device hold. -/
def ReadLaw (w : Fs) (blocks : List ℕ) (n : ℕ) : Prop := ∀ m' buf, AgreeOn blocks w.mem m' →
  stateAfter (slfsRead n { w with mem := m', buf := buf }) =
    { w with mem := m', buf := put buf 0 (((fileBytes w blocks).drop w.file.pos).take n) }

variable {w : Fs} {blocks qs : List ℕ} {p n : ℕ}

theorem slfsRead_empty (h : w.file.fileSize = 0) (n : ℕ) : slfsRead n w = .error .fileSize w := by
  rw [slfsRead, getFile_bind, if_pos (.inl h), throw_run]

theorem AgreeOn.word {m m' : Mem} (h : AgreeOn blocks m m') {b : ℕ} (hb : b ∈ blocks) :
    word m' (b + 508) = word m (b + 508) :=
  word_congr fun x hlo hhi => h b hb x (by omega) (by omega)

theorem AgreeOn.gather_eq {m m' : Mem} (h : AgreeOn blocks m m') : gather m' 504 blocks = gather m 504 blocks :=
  gather_congr fun b hb x hlo hhi => h b hb x hlo (by omega)

theorem readLaw_of_lt (h : WellChained w blocks) (hn : w.file.pos + n < size) : ReadLaw w blocks n := by
  intro m' buf hagree
  let w' : Fs := { w with mem := m', buf := buf }
  change stateAfter (slfsRead n w') = { w' with buf := put buf 0 (((fileBytes w blocks).drop w.file.pos).take n) }
  rcases Nat.eq_zero_or_pos w.file.fileSize with hzero | hsize
  · have hempty : slfsRead n w' = .error .fileSize w' := slfsRead_empty (w := w') hzero n
    rw [hempty, fileBytes, hzero, List.take_zero, List.drop_nil, List.take_nil, put_nil]
    rfl
  · cases blocks with
    | nil => exact absurd (Nat.le_zero.mp h.room) hsize.ne'
    | cons p qs =>
        obtain ⟨hp, hchain⟩ := h.chain p qs rfl
        have hchain' : Chain w'.mem w'.file.datablkAddr qs := by
          change Chain m' w.file.datablkAddr qs
          rw [hp]
          exact hchain.congr fun b hb => hagree.word hb
        have hcut : ((fileBytes w (p :: qs)).drop w.file.pos).take n =
            ((gather w.mem 504 (p :: qs)).drop w.file.pos).take (min n (w.file.fileSize - w.file.pos)) := by
          rw [fileBytes, List.drop_take, List.take_take]
        have hread := slfsRead_chain (w := w') (n := n) hchain' hsize h.room h.pos hn
        have hgather : gather w'.mem 504 (w'.file.datablkAddr :: qs) = gather w.mem 504 (p :: qs) := by
          change gather m' 504 (w.file.datablkAddr :: qs) = _
          rw [hp]
          exact hagree.gather_eq
        rw [hread, hcut, hgather]
        rfl

/-- Nothing is written to the buffer below the position that has been reached. -/
theorem readBlks_below {fuel bufPos x : ℕ} (hx : x < bufPos) : (stateAfter (readBlks fuel p bufPos n w)).buf x = w.buf x := by
  induction fuel generalizing p bufPos n w with
  | zero => rfl
  | succ fuel ih =>
      rw [readBlks]
      by_cases hn : n = 0
      · rw [if_pos hn]
        rfl
      · rw [if_neg hn]
        have hword := readWord_readOnly (u32 (p + datablkTailOffLow)) w
        cases hnext : readWord (u32 (p + datablkTailOffLow)) w with
        | error e u =>
            rw [hnext] at hword
            rw [bind_error hnext]
            exact congrArg (fun v => v.buf x) hword
        | ok q u =>
            rw [hnext] at hword
            have hu : u = w := hword
            rw [bind_ok hnext, hu]
            let len := if n ≥ datablkPayloadSize then datablkPayloadSize else n
            change (stateAfter ((readInto q len bufPos >>= fun _ => readBlks fuel q (bufPos + len) (n - len)) w)).buf x = _
            cases hrun : readRamdisk w.mem q len with
            | none =>
                have hinto : readInto q len bufPos w = .error .io w := by rw [readInto, hrun]
                rw [bind_error hinto]
                rfl
            | some bs =>
                have hinto : readInto q len bufPos w = .ok () { w with buf := put w.buf bufPos bs } := by
                  rw [readInto, hrun]
                rw [bind_ok hinto, ih (Nat.lt_add_right len hx)]
                exact put_of_lt hx

/-- Behind the last block of a chain comes the block at address 0. -/
theorem readBlks_past {fuel bufPos x : ℕ} (h : Chain w.mem p qs) (hn : 504 * qs.length < n) (hf : n ≤ fuel)
    (hx : x < bufPos + 504 * qs.length + 1) : (stateAfter (readBlks fuel p bufPos n w)).buf x =
      put w.buf bufPos (gather w.mem 504 qs ++ bytes w.mem 0 1) x := by
  induction qs generalizing p bufPos n w fuel with
  | nil =>
      obtain ⟨fuel, rfl⟩ := Nat.exists_eq_succ_of_ne_zero (Nat.ne_zero_of_lt (hn.trans_le hf))
      have hzero : word w.mem (p + 508) = 0 := nextBlk_eq_none.mp h.links
      have hpos : n ≠ 0 := Nat.ne_zero_of_lt hn
      let len := if n ≥ datablkPayloadSize then datablkPayloadSize else n
      have hlen : 0 < len ∧ len ≤ 504 := by
        change 0 < (if n ≥ 504 then 504 else n) ∧ (if n ≥ 504 then 504 else n) ≤ 504
        split <;> omega
      have hinto : 0 + len ≤ ramdiskSize := by
        rw [Nat.zero_add]
        exact hlen.2.trans (by decide)
      have hlt : x < bufPos + len := hx.trans_le (by
        rw [List.length_nil]
        omega)
      rw [readBlks, if_neg hpos, bind_ok (readNext h.head_le), hzero]
      change (stateAfter ((readInto 0 len bufPos >>= fun _ => readBlks fuel 0 (bufPos + len) (n - len)) w)).buf x = _
      rw [bind_ok (readInto_of_le hinto), readBlks_below hlt, gather_nil, List.nil_append]
      change put w.buf bufPos (bytes w.mem 0 len) x = _
      rcases lt_or_ge x bufPos with hb | hb
      · rw [put_of_lt hb, put_of_lt hb]
      · obtain rfl : x = bufPos := by
          rw [List.length_nil] at hx
          omega
        rw [put_bytes, put_bytes, if_pos ⟨le_rfl, Nat.lt_add_of_pos_right hlen.1⟩,
          if_pos ⟨le_rfl, Nat.lt_succ_self _⟩]
  | cons q qs ih =>
      obtain ⟨fuel, rfl⟩ := Nat.exists_eq_succ_of_ne_zero (Nat.ne_zero_of_lt (hn.trans_le hf))
      rw [List.length_cons, Nat.mul_succ] at hn hx
      have hq := h.tail.head_le
      have hpos : n ≠ 0 := by omega
      have hlen : (if n ≥ datablkPayloadSize then datablkPayloadSize else n) = 504 :=
        if_pos (show n ≥ 504 by omega)
      have hinto : q + 504 ≤ ramdiskSize := (Nat.add_le_add_left (by decide) q).trans hq
      have hrest : (stateAfter (readBlks fuel q (bufPos + 504) (n - 504)
          { w with buf := put w.buf bufPos (bytes w.mem q 504) })).buf x =
            put (put w.buf bufPos (bytes w.mem q 504)) (bufPos + 504) (gather w.mem 504 qs ++ bytes w.mem 0 1) x :=
        ih h.tail (by omega) (by omega) (by omega)
      have hsplit : put w.buf bufPos (bytes w.mem q 504 ++ (gather w.mem 504 qs ++ bytes w.mem 0 1)) =
          put (put w.buf bufPos (bytes w.mem q 504)) (bufPos + 504) (gather w.mem 504 qs ++ bytes w.mem 0 1) := by
        rw [put_append, bytes_length]
      rw [readBlks, if_neg hpos, bind_ok (readNext h.head_le), h.next, hlen, bind_ok (readInto_of_le hinto), hrest,
        gather_cons, List.append_assoc, hsplit]

/-- Where the sum wraps the length is not cut off: the read begins at the position and goes on by the length. -/
theorem slfsRead_wrapped (h : WellChained w (p :: qs)) (hn : n < size) (hwrap : size ≤ w.file.pos + n) :
    ∃ r rs off, Chain w.mem r rs ∧ 504 * rs.length < n - (504 - off) ∧
      w.file.fileSize - w.file.pos < 504 - off + 504 * rs.length + 1 ∧ ∀ buf,
        stateAfter (slfsRead n { w with buf := buf }) = stateAfter (readBlks n r (504 - off)
          (n - (504 - off)) { w with buf := put buf 0 (bytes w.mem (r + off) (504 - off)) }) := by
  obtain ⟨hp, hchain⟩ := h.chain p qs rfl
  have hcount := hchain.length_le
  have hroom := h.room
  have hpos := h.pos
  rw [List.length_cons] at hcount hroom
  have hsize : w.file.fileSize ≠ 0 := by
    unfold size at *
    omega
  have hne : ¬ (w.file.fileSize = 0 ∨ w.file.datablkAddr = minusOne) := by
    rintro (h0 | hmax)
    · exact hsize h0
    · have hle := hchain.head_le
      rw [← hp, hmax] at hle
      exact absurd hle (by decide)
  obtain ⟨i, off, hblk, hsplit, hoff, hi⟩ := blkOfPos_eq 0 (le_refl w.file.pos)
  have hread : (if w.file.fileSize < u32 (w.file.pos + n) then usub w.file.fileSize w.file.pos else n) = n := by
    apply if_neg
    unfold u32 size at *
    omega
  have hlen : (if datablkPayloadSize - off > n then n else datablkPayloadSize - off) = 504 - off := by
    apply if_neg
    change ¬ 504 - off > n
    unfold size at *
    omega
  have hfirst : Chain w.mem w.file.datablkAddr qs := hp ▸ hchain
  obtain ⟨r, rs, hdrop, -, hrest⟩ := getDatablkAddr_chain hfirst (show i ≤ qs.length by omega)
  have hrlen : rs.length + i = qs.length := by
    have hl := congrArg List.length hdrop
    rw [List.length_drop, List.length_cons, List.length_cons] at hl
    omega
  have hr := hrest.head_le
  have hr32 : u32 (r + off) = r + off := u32_of_lt (by unfold size; omega)
  have hinto : r + off + (504 - off) ≤ ramdiskSize := by
    simp only [ramdiskSize]
    omega
  refine ⟨r, rs, off, hrest, by unfold size at *; omega, by omega, fun buf => ?_⟩
  let v : Fs := { w with buf := buf }
  obtain ⟨r', rs', hdrop', hget, -⟩ := getDatablkAddr_chain (w := v) hfirst (show i ≤ qs.length by omega)
  cases hdrop.symm.trans hdrop'
  rw [slfsRead, getFile_bind, if_neg hne]
  simp only [hread, hblk, Nat.zero_add, hlen]
  rw [bind_ok hget, hr32, bind_ok (readInto_of_le (w := v) hinto)]

/-- Where the sum wraps, a byte behind the end of the file goes into the buffer. -/
theorem slfsRead_wraps (h : WellChained w (p :: qs)) (hn : n < size) (hwrap : size ≤ w.file.pos + n) :
    ∃ b, ∀ buf, (stateAfter (slfsRead n { w with buf := buf })).buf (w.file.fileSize - w.file.pos) = b := by
  obtain ⟨r, rs, off, hrest, hlong, hlt, hrun⟩ := slfsRead_wrapped h hn hwrap
  let bs := bytes w.mem (r + off) (504 - off) ++ (gather w.mem 504 rs ++ bytes w.mem 0 1)
  have hbs : bs.length = 504 - off + (504 * rs.length + 1) := by
    rw [List.length_append, List.length_append, bytes_length, bytes_length, length_gather]
  have hk : w.file.fileSize - w.file.pos < bs.length := by rwa [hbs, ← Nat.add_assoc]
  refine ⟨bs[w.file.fileSize - w.file.pos], fun buf => ?_⟩
  let v : Fs := { w with buf := put buf 0 (bytes w.mem (r + off) (504 - off)) }
  have hchain : Chain v.mem r rs := hrest
  have hpast := readBlks_past hchain hlong (Nat.sub_le n _) hlt
  have hput : put buf 0 bs =
      put (put buf 0 (bytes w.mem (r + off) (504 - off))) (504 - off) (gather w.mem 504 rs ++ bytes w.mem 0 1) := by
    change put buf 0 (bytes w.mem (r + off) (504 - off) ++ (gather w.mem 504 rs ++ bytes w.mem 0 1)) = _
    rw [put_append, bytes_length, Nat.zero_add]
  have hval : put buf 0 bs (0 + (w.file.fileSize - w.file.pos)) = bs[w.file.fileSize - w.file.pos] := by
    rw [put_add, List.getElem?_eq_getElem hk, Option.getD_some]
  rw [Nat.zero_add, hput] at hval
  rw [hrun, hpast]
  exact hval

theorem not_readLaw_of_wrap (h : WellChained w blocks) (hn : n < size) (hwrap : size ≤ w.file.pos + n) :
    ¬ ReadLaw w blocks n := by
  intro hlaw
  cases blocks with
  | nil =>
      have hzero : w.file.fileSize = 0 := Nat.le_zero.mp h.room
      have hpos := h.pos
      omega
  | cons p qs =>
      obtain ⟨b, hb⟩ := slfsRead_wraps h hn hwrap
      have hbuf := congrArg (fun v => v.buf (w.file.fileSize - w.file.pos))
        (hlaw w.mem (fun _ => b + 1) fun _ _ _ _ _ => rfl)
      have hlen : ((((fileBytes w (p :: qs)).drop w.file.pos).take n)).length ≤ w.file.fileSize - w.file.pos := by
        rw [List.length_take, List.length_drop, fileBytes, List.length_take]
        omega
      have hout : put (fun _ => b + 1) 0 (((fileBytes w (p :: qs)).drop w.file.pos).take n)
          (w.file.fileSize - w.file.pos) = b + 1 := put_of_ge (by omega)
      have hself : b = b + 1 := (hb fun _ => b + 1).symm.trans (hbuf.trans hout)
      exact absurd hself (by simp)

/-- The read law holds exactly if position and length add up without wrapping. -/
theorem readLaw_iff (h : WellChained w blocks) (hn : n < size) : ReadLaw w blocks n ↔ w.file.pos + n < size := by
  constructor
  · intro hlaw
    by_contra hwrap
    exact not_readLaw_of_wrap h hn (Nat.not_lt.mp hwrap) hlaw
  · exact readLaw_of_lt h

/-- A file of one byte, with the position behind it. -/
def oneByteFs : Fs :=
  { erasedFs with mem := fun _ => 0, file := ⟨0, 1, 1, 1, 0x1000, 0, 1, 1, letter 97⟩ }

theorem oneByteFs_wellChained : WellChained oneByteFs [0x1000] := by
  constructor
  · rintro p qs h
    cases h
    refine ⟨rfl, ?_, ?_⟩
    · apply nextBlk_eq_none.mpr
      rw [word, wordOf]
      rfl
    · intro q hq
      cases List.mem_singleton.mp hq
      decide
  · decide
  · decide

/-- A file of 600 bytes in two blocks, with the position four bytes before the second one. -/
def twoBlocksFs : Fs :=
  { erasedFs with
    mem := put (fun a => UInt8.ofNat a) 0x11FC (wordBytes 0x1200 ++ List.replicate 508 42 ++ wordBytes 0)
    file := ⟨0, 500, 600, 1, 0x1000, 0, 1, 1, letter 97⟩ }

theorem twoBlocksFs_wellChained : WellChained twoBlocksFs [0x1000, 0x1200] := by
  constructor
  · rintro p qs h
    cases h
    refine ⟨rfl, ⟨nextBlk_eq_some.mpr (by decide +kernel), nextBlk_eq_none.mpr (by decide +kernel)⟩, ?_⟩
    decide
  · decide
  · decide

theorem readLaw_twoBlocks : ReadLaw twoBlocksFs [0x1000, 0x1200] 50 :=
  (readLaw_iff twoBlocksFs_wellChained (by decide)).mpr (by decide)

/-- A read of the greatest length at the end of the file does not stop there. -/
theorem read_wraps : ¬ ReadLaw oneByteFs [0x1000] 0xFFFFFFFF :=
  not_readLaw_of_wrap oneByteFs_wellChained (by decide) (by decide)

end Slos.Slfs
