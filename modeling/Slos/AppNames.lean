import Slos.SlfsGarbage
import Slos.Sprintk

/-!
# The names of the applications

`create_ramdisk_fs` writes the applications to files and `load_ramdisk_app` opens one of them, each under a name that
`sprintk` puts into a buffer on the stack. The format ends with `%x`, so `sprintk` writes no NUL behind the name, and the
names agree if both buffers held the same bytes there, up to a NUL within the sixteen bytes of a name.
-/

namespace Slos.AppNames
open Word ByteMemory CString Numeral Printk Sprintk Slfs

def appFormat : List UInt8 :=
  ['/'.toUInt8, 'A'.toUInt8, 'p'.toUInt8, 'p'.toUInt8, '_'.toUInt8, '%'.toUInt8, 'x'.toUInt8]

/-- `sprintk(fname, "/App_%x", idx)`, with anything in the rest of memory and behind the argument. -/
structure NameCall (idx : ℕ) where
  mem : Mem
  args : ℕ → ℕ
  fmt : ℕ
  format : CStr mem fmt appFormat
  index : u32 (args 0) = idx

variable {idx : ℕ} {a b : Mem} {ns : List UInt8}

def NameCall.fname (c : NameCall idx) (buf : Mem) : Option Mem := sprintk c.mem c.args buf c.fmt

def appName (idx : ℕ) : List UInt8 :=
  ['/'.toUInt8, 'A'.toUInt8, 'p'.toUInt8, 'p'.toUInt8, '_'.toUInt8] ++ (Arg.uint32 idx).text

/-- From `len` on the buffers hold the same bytes, up to a NUL inside a name. -/
def TailsAgree (len : ℕ) (a b : Mem) : Prop :=
  ∃ n, len ≤ n ∧ n < slfsFnameLen ∧ a n = 0 ∧ b n = 0 ∧ ∀ j, len ≤ j → j < n → a j ≠ 0 ∧ a j = b j

/-- What is written as a new file under the name `a` is found under the name `b`. -/
def FindsWritten (a b : Mem) : Prop := ∀ (w : Fs) (pbuf : Mem) (len : ℕ) (uninit : Uninit) (i : ℕ),
  (∀ j < inodeMaxCnt, nameMatches a (inodeAt w.mem j).name = false) → freeInode w.mem = some i → 0 < len →
    (len + 503) / 504 ≤ (freeBlks w.mem datablkStart datablkMaxCnt).length →
      ∃ w', (slfsOpen a >>= fun _ => slfsWrite pbuf len uninit) w = .ok () w' ∧
        (stateAfter (slfsOpen b w')).file.inodeIdx = i ∧ (stateAfter (slfsOpen b w')).file.fileSize = len

/-- `opens` is about every device, also one where the name is taken or where nothing is free. -/
structure NamesAgree (a b : Mem) : Prop where
  terminated : Slfs.Terminated a
  same : SameName a b
  opens : slfsOpen b = slfsOpen a
  found : FindsWritten a b

/-- Two buffers that start with the same name hold the same string exactly if they agree behind it. -/
theorem same_put_iff (hns : 0 ∉ ns) : Slfs.Terminated (put a 0 ns) ∧ SameName (put a 0 ns) (put b 0 ns) ↔
    TailsAgree ns.length a b := by
  have hin (m : Mem) {j : ℕ} (hj : j < ns.length) : put m 0 ns j = ns[j] := by
    have hput := @put_add m 0 ns j
    rwa [Nat.zero_add, List.getElem?_eq_getElem hj] at hput
  have hbehind (m : Mem) {j : ℕ} (hj : ns.length ≤ j) : put m 0 ns j = m j := put_of_ge (by rwa [Nat.zero_add])
  have hnz {j : ℕ} (hj : j < ns.length) : ns[j] ≠ 0 := fun h => hns (h ▸ List.getElem_mem hj)
  constructor
  · rintro ⟨hterm, hsame⟩
    have hex : ∃ j, j < slfsFnameLen ∧ put a 0 ns j = 0 := hterm
    obtain ⟨hlt, hzero⟩ := Nat.find_spec hex
    have hbefore : ∀ k < Nat.find hex, put a 0 ns k ≠ 0 := fun k hk hk0 =>
      Nat.find_min hex hk ⟨hk.trans hlt, hk0⟩
    have hlen : ns.length ≤ Nat.find hex := by
      by_contra hnot
      rw [hin a (Nat.not_le.mp hnot)] at hzero
      exact hnz _ hzero
    refine ⟨Nat.find hex, hlen, hlt, ?_, ?_, fun j hj hjn => ?_⟩
    · rwa [hbehind a hlen] at hzero
    · have hend := hsame _ hbefore
      rw [hzero, hbehind b hlen] at hend
      exact hend.symm
    · have hne := hbefore j hjn
      have heq := hsame j fun k hk => hbefore k (hk.trans hjn)
      rw [hbehind a hj] at hne heq
      rw [hbehind b hj] at heq
      exact ⟨hne, heq⟩
  · rintro ⟨n, hlen, hlt, ha, hb, hbetween⟩
    refine ⟨⟨n, hlt, (hbehind a hlen).trans ha⟩, fun j hj => ?_⟩
    rcases lt_or_ge j ns.length with hjl | hjl
    · rw [hin a hjl, hin b hjl]
    · rw [hbehind a hjl, hbehind b hjl]
      rcases lt_trichotomy j n with hjn | rfl | hnj
      · exact (hbetween j hjl hjn).2
      · rw [ha, hb]
      · exact absurd ((hbehind a hlen).trans ha) (hj n hnj)

theorem nameMatches_of_same (ht : Slfs.Terminated a) (hs : SameName a b) (name : ℕ → UInt8) :
    nameMatches b name = nameMatches a name := by
  rw [Bool.eq_iff_iff, nameMatches_iff, nameMatches_iff]
  constructor
  · rintro ⟨-, h⟩
    exact ⟨ht, hs.trans h⟩
  · rintro ⟨-, h⟩
    exact ⟨ht.of_same hs, hs.symm.trans h⟩

theorem openLoop_of_same (ht : Slfs.Terminated a) (hs : SameName a b) (is : List ℕ) (last : Option SlfsInode) :
    openLoop b is last = openLoop a is last := by
  induction is generalizing last with
  | nil => rfl
  | cons i is ih =>
      rw [openLoop, openLoop]
      refine congrArg (readOrErr (inodeTabStart + i * inodeSize) inodeSize >>= ·) (funext fun d => ?_)
      dsimp only
      rw [nameMatches_of_same ht hs, ih]

theorem copyName_of_same (hs : SameName a b) (dst : Mem) : copyName dst b = copyName dst a := by
  funext i
  have hopen : (∀ j < i, b j ≠ 0) ↔ ∀ j < i, a j ≠ 0 := ⟨hs.ne_zero, hs.symm.ne_zero⟩
  unfold copyName
  by_cases h : i < slfsFnameLen ∧ ∀ j < i, a j ≠ 0
  · rw [if_pos h, if_pos ⟨h.1, hopen.mpr h.2⟩, hs i h.2]
  · rw [if_neg h, if_neg (mt (And.imp_right hopen.mp) h)]

theorem slfsOpen_of_same (ht : Slfs.Terminated a) (hs : SameName a b) : slfsOpen b = slfsOpen a := by
  have hnew (pf : SlfsFile) : openNew pf b = openNew pf a := by
    unfold openNew
    rw [copyName_of_same hs]
  unfold slfsOpen
  simp only [openLoop_of_same ht hs, hnew]

/-- The slot of a new file holds its own number. -/
theorem writtenNew_inodeIdx {m : Mem} {i p : ℕ} {qs : List ℕ} (pf : SlfsFile) (uninit : Uninit) (bs : List UInt8)
    (hi : i < inodeMaxCnt) (hin : ∀ q ∈ p :: qs, 4096 ≤ q) :
    word (writtenNew m i pf uninit p qs bs) (inodeAddr i) = u32 pf.inodeIdx := by
  have hslot : inodeAddr i + 56 < 4096 := inodeAddr_lt hi
  rw [writtenNew, word_put_of_disjoint (by rw [wordBytes_length]; omega)]
  have hdata : word (ScatterGather.scatter 504 (namedBlks m i pf uninit p qs) (p :: qs) bs) (inodeAddr i) =
      word (namedBlks m i pf uninit p qs) (inodeAddr i) := by
    refine word_congr fun x _ hx => ?_
    exact ScatterGather.scatter_of_notMem fun q hq => Or.inl ((show x < 4096 by omega).trans_le (hin q hq))
  rw [hdata, namedBlks]
  exact word_toBytes_inodeIdx

/-- A new file is found under every name that is the same string. -/
theorem findsWritten_of_same (ht : Slfs.Terminated a) (hs : SameName a b) : FindsWritten a b := by
  intro w pbuf len uninit i habsent hinode hlen hblks
  have hnone : Newest w.mem a inodeMaxCnt none := habsent
  have hopen : slfsOpen a w = .ok () { w with file := openNew w.file a } := by
    rw [slfsOpen, bind_ok hnone.openLoop]
    rfl
  have hcount := hblks.trans (freeBlks_length_le w.mem datablkStart datablkMaxCnt)
  have hmax : datablkMaxCnt = 8184 := by decide
  have hlt : len < Word.size := by
    rw [hmax] at hcount
    unfold Word.size
    omega
  have hi := freeInode_lt hinode
  obtain ⟨p, qs, htaken, hqs⟩ := takenBlks_eq_cons (Nat.div_pos (by omega) (by decide)) hblks
  have hbounds : ∀ q ∈ p :: qs, 4096 ≤ q ∧ q + 512 ≤ 0x400000 := fun q hq =>
    mem_takenBlks (m := w.mem) (htaken ▸ hq)
  have hin : ∀ q ∈ p :: qs, 4096 ≤ q := fun q hq => (hbounds q hq).1
  obtain ⟨w', hwrite, hfile, hmem⟩ := slfsWrite_fresh (w := { w with file := openNew w.file a })
    (openNew_fresh w.file a) hlen hlt hinode rfl htaken hqs
  have hpf : w'.file.fileSize = len ∧ w'.file.updateCnt = 1 ∧ w'.file.datablkAddr = p ∧ w'.file.inodeIdx = i ∧
      w'.file.name = copyName w.file.name a := by
    rw [hfile]
    exact ⟨rfl, rfl, rfl, rfl, rfl⟩
  obtain ⟨hsize, hcnt, haddr, hidx, hname⟩ := hpf
  have hp : p < Word.size := by
    have hend := (hbounds p List.mem_cons_self).2
    unfold Word.size
    omega
  obtain ⟨hnewSize, -, -, hnewName⟩ := writtenNew_inode (m := w.mem) uninit (bytes pbuf 0 len) hi hin
    (hsize ▸ hlt) (hcnt ▸ by decide) (haddr ▸ hp)
  rw [← hmem, hsize] at hnewSize
  rw [← hmem] at hnewName
  have hword : (inodeAt w'.mem i).inodeIdx = i := by
    have hidx' := writtenNew_inodeIdx (m := w.mem) w'.file uninit (bytes pbuf 0 len) hi hin
    rw [← hmem, hidx, u32_of_lt (hi.trans (by decide))] at hidx'
    exact hidx'
  have hfound : Newest w'.mem b inodeMaxCnt (some i) := by
    refine ⟨hi, ?_, fun j hj hmatch => ?_⟩
    · rw [nameMatches_of_same ht hs, nameMatches_congr (fun _ _ => rfl) hnewName, hname, nameMatches_iff]
      exact ⟨ht, copyName_same ht⟩
    · by_cases hji : j = i
      · subst hji
        exact Or.inr ⟨rfl, le_rfl⟩
      · have hkeep : ∀ x < 56, writtenNew w.mem i w'.file uninit p qs (bytes pbuf 0 len) (inodeAddr j + x) =
            w.mem (inodeAddr j + x) := writtenNew_slot hi hj hji hin
        have hslot := inodeAt_congr hkeep
        rw [← hmem] at hslot
        rw [nameMatches_of_same ht hs, nameMatches_congr (fun _ _ => rfl) fun x hx => hslot.2.2.2 x (by omega),
          habsent j hj] at hmatch
        cases hmatch
  have hvalid : (readInode w'.mem i).inodeIdx ≠ minusOne := by
    rw [readInode_inodeIdx, hword]
    have hmax : inodeMaxCnt = 32 := rfl
    simp only [minusOne]
    omega
  obtain ⟨num, hhandle⟩ := slfsOpen_found hfound hvalid
  refine ⟨w', (bind_ok hopen).trans hwrite, ?_⟩
  rw [hhandle]
  exact ⟨readInode_inodeIdx.trans hword, readInode_fileSize.trans hnewSize⟩

theorem hexChar_ne_nul {d : ℕ} (hd : d < 16) : hexChar d ≠ 0 := by
  interval_cases d <;> decide

theorem appName_nul (idx : ℕ) : 0 ∉ appName idx := by
  intro h
  rcases List.mem_append.mp h with h | h
  · exact absurd h (by decide)
  · obtain ⟨d, hd, hzero⟩ := List.mem_map.mp (List.mem_reverse.mp h)
    exact hexChar_ne_nul (numeral_lt (by decide) hd) hzero

theorem appName_length (h : idx < size) : (appName idx).length ≤ 13 := by
  have hdigits := numeral_length_le (b := 16) (k := 8) (n := idx) (by decide) (by decide) h
  rw [appName, List.length_append, Arg.text, List.length_reverse, List.length_map]
  exact Nat.add_le_add_left hdigits 5

theorem NameCall.passed (c : NameCall idx) : Passed c.mem c.args 0 (items appFormat) [.uint32 idx] := by
  have hpassed : Passed c.mem c.args 0 (items appFormat) [.uint32 (u32 (c.args 0))] :=
    .byte _ (.byte _ (.byte _ (.byte _ (.byte _ (.hex (.nil 1))))))
  rwa [c.index] at hpassed

theorem items_appFormat : items appFormat = [.byte '/'.toUInt8, .byte 'A'.toUInt8, .byte 'p'.toUInt8, .byte 'p'.toUInt8,
    .byte '_'.toUInt8, .hex] := by
  decide

theorem appFormat_plain : ∀ d ∈ items appFormat, Plain d := by
  rw [items_appFormat]
  simp [Plain]

/-- The name is written, and no NUL behind it. -/
theorem NameCall.fname_eq (c : NameCall idx) (buf : Mem) : c.fname buf = some (put buf 0 (appName idx)) := by
  have hidx : idx < size := c.index ▸ u32_lt _
  have hname : rendering (items appFormat) [.uint32 idx] = appName idx := by
    rw [items_appFormat]
    simp only [rendering, render, List.append_nil]
    rfl
  have hroom : (rendering (items appFormat) [.uint32 idx]).length < size := by
    rw [hname]
    exact (appName_length hidx).trans_lt (by decide)
  have hlast : lastNul (items appFormat) = [] := by
    rw [items_appFormat]
    rfl
  rw [NameCall.fname, sprintk_spec c.format c.passed appFormat_plain hroom, hname, hlast, List.append_nil]

/-- A NUL behind the text is there if it was written or if it was there before. -/
theorem lastNul_iff {fs : List Item} (buf : Mem) (text : List UInt8) :
    put buf 0 (text ++ lastNul fs) = put buf 0 (text ++ [0]) ↔ fs.getLast? = some .str ∨ buf text.length = 0 := by
  by_cases hlast : fs.getLast? = some .str
  · rw [lastNul, if_pos hlast]
    exact iff_of_true rfl (Or.inl hlast)
  · rw [lastNul, if_neg hlast, List.append_nil, or_iff_right hlast, put_append, Nat.zero_add, put_singleton]
    constructor
    · intro h
      have hend := congrFun h text.length
      rwa [Function.update_self, put_of_ge (Nat.zero_add _).le] at hend
    · intro h
      symm
      rw [Function.update_eq_self_iff, put_of_ge (Nat.zero_add _).le, h]

/-- `sprintk` leaves the text and a NUL exactly if the format ends with `%s` or a NUL was there before, and the two names of
an application agree exactly if the two buffers do behind them. -/
theorem sprintk_names_iff {m : Mem} {args : ℕ → ℕ} {fmt : ℕ} {f : List UInt8} {as : List Arg} (hf : CStr m fmt f)
    (has : Passed m args 0 (items f) as) (hplain : ∀ c ∈ items f, Plain c) (hroom : (rendering (items f) as).length < size)
    (buf : Mem) (c c' : NameCall idx) :
    (sprintk m args buf fmt = some (put buf 0 (rendering (items f) as ++ [0])) ↔
      (items f).getLast? = some .str ∨ buf (rendering (items f) as).length = 0) ∧
    ((∃ n n', c.fname a = some n ∧ c'.fname b = some n' ∧ NamesAgree n n') ↔ TailsAgree (appName idx).length a b) := by
  constructor
  · rw [sprintk_spec hf has hplain hroom, Option.some.injEq, lastNul_iff]
  · rw [← same_put_iff (appName_nul idx), c.fname_eq, c'.fname_eq]
    constructor
    · rintro ⟨n, n', hn, hn', hagree⟩
      cases hn
      cases hn'
      exact ⟨hagree.terminated, hagree.same⟩
    · rintro ⟨hterm, hsame⟩
      exact ⟨_, _, rfl, rfl, hterm, hsame, slfsOpen_of_same hterm hsame, findsWritten_of_same hterm hsame⟩

/-- The call for the first application. -/
def firstApp : NameCall 0 where
  mem := ofBytes appFormat
  args := fun _ => 0
  fmt := 0
  format := cstr_iff.mpr (by decide)
  index := rfl

theorem sprintk_names_first :
    (sprintk firstApp.mem firstApp.args (fun _ => 0) firstApp.fmt = some (put (fun _ => 0) 0 (appName 0 ++ [0])) ↔
      (items appFormat).getLast? = some .str ∨ (0 : UInt8) = 0) ∧
    ((∃ n n', firstApp.fname (fun _ => 0) = some n ∧ firstApp.fname (fun _ => 0) = some n' ∧ NamesAgree n n') ↔
      TailsAgree (appName 0).length (fun _ => 0) fun _ => 0) :=
  sprintk_names_iff firstApp.format firstApp.passed appFormat_plain (by decide) (fun _ => 0)
    firstApp firstApp

/-- In a buffer of bytes 255 the name of the first application does not end. -/
theorem first_name_open : (firstApp.fname fun _ => 255).map (fun n => (bytes n 0 6, n 6)) =
      some (['/'.toUInt8, 'A'.toUInt8, 'p'.toUInt8, 'p'.toUInt8, '_'.toUInt8, '0'.toUInt8], 255) ∧
    ¬ ∀ (idx : ℕ) (c c' : NameCall idx) (a b : Mem),
      ∃ n n', c.fname a = some n ∧ c'.fname b = some n' ∧ NamesAgree n n' := by
  constructor
  · rw [NameCall.fname_eq]
    decide
  · intro h
    obtain ⟨n, n', hn, hn', hagree⟩ := h 0 firstApp firstApp (fun _ => 255) fun _ => 255
    rw [NameCall.fname_eq] at hn hn'
    cases hn
    cases hn'
    obtain ⟨k, -, -, hzero, -⟩ := (same_put_iff (appName_nul 0)).mp ⟨hagree.terminated, hagree.same⟩
    exact absurd hzero (show (255 : UInt8) ≠ 0 by decide)

end Slos.AppNames
