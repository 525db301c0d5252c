import Slos.SlfsRun

/-!
# Rewriting a page

The device operations `rw_page` and `recover_page` perform one after the other, and the device each of
them leaves: the swap page is written, the page recorded and erased, the swap page copied back.
-/

namespace Slos.Slfs
open Word ByteMemory Ramdisk

variable {w : Fs} {m : Mem} {p : ℕ}

/-- The device as it was all through a call, oldest first. -/
def devices {α : Type} (x : FsM α) (w : Fs) : List Mem :=
  let w' := stateAfter (x { w with past := [] })
  (w'.mem :: w'.past).reverse

/-- The first `j` chunks of a page are copied. -/
def copied (m : Mem) (dst src j : ℕ) : Mem := put m dst (bytes m src (512 * j))

theorem copied_succ {dst src j : ℕ}
    (h : bytes (copied m dst src j) (src + 512 * j) 512 = bytes m (src + 512 * j) 512) :
    put (copied m dst src j) (dst + 512 * j) (bytes (copied m dst src j) (src + 512 * j) 512) =
      copied m dst src (j + 1) := by
  rw [h, copied, copied, Nat.mul_succ, bytes_append, put_append, bytes_length]

theorem copyFlashToFlash_run {dst src fuel n j : ℕ} (hf : n ≤ fuel) (hw : w.mem = copied m dst src j)
    (hdst : dst + 512 * (j + n) ≤ 0x400000) (hsrc : src + 512 * (j + n) ≤ 0x400000)
    (hread : ∀ i < j + n, bytes (copied m dst src i) (src + 512 * i) 512 = bytes m (src + 512 * i) 512) :
    copyFlashToFlash dst src fuel (512 * n) (512 * j) w = .ok ()
      { w with
        mem := copied m dst src (j + n)
        past := ((List.range' j n).map (copied m dst src)).reverse ++ w.past } := by
  induction n generalizing fuel j w with
  | zero =>
      have hstop : copyFlashToFlash dst src fuel (512 * 0) (512 * j) w = .ok () w := by
        cases fuel <;> rfl
      rw [hstop, Nat.add_zero, ← hw]
      rfl
  | succ n ih =>
      cases fuel with
      | zero => cases hf
      | succ fuel =>
          have hjn : j + 1 + n = j + (n + 1) := Nat.add_right_comm j 1 n
          have hchunk {a : ℕ} (ha : a + 512 * (j + (n + 1)) ≤ 0x400000) :
              a + 512 * j + 512 ≤ ramdiskSize := by
            rw [Nat.add_assoc, ← Nat.mul_succ]
            exact (Nat.add_le_add_left (Nat.mul_le_mul_left 512
              (Nat.add_le_add_left (Nat.le_add_left 1 n) j)) a).trans ha
          have hd := hchunk hdst
          have hs := hchunk hsrc
          have hrest := ih (j := j + 1) (w := w.store (copied m dst src (j + 1)))
            (Nat.le_of_succ_le_succ hf) rfl (hjn ▸ hdst) (hjn ▸ hsrc) (hjn ▸ hread)
          have hu32 {a : ℕ} (ha : a + 512 ≤ ramdiskSize) : u32 a = a :=
            u32_of_lt (lt_of_lt_of_le (Nat.lt_add_of_pos_right (by decide)) (ha.trans (by decide)))
          have hlen : (if 512 * (n + 1) > datablkSize then datablkSize else 512 * (n + 1)) = 512 := by
            rcases Nat.eq_zero_or_pos n with rfl | hn
            · rfl
            · have hlt : 512 < 512 * (n + 1) := by
                rw [Nat.mul_succ]
                exact Nat.lt_add_of_pos_left (Nat.mul_pos (by decide) hn)
              exact if_pos hlt
          have hfull : bytes (ofBytes (bytes w.mem (src + 512 * j) 512)) 0 512 =
              bytes w.mem (src + 512 * j) 512 := bytes_ofBytes bytes_length
          have hwle : dst + 512 * j + (bytes w.mem (src + 512 * j) 512).length ≤ ramdiskSize := by
            rwa [bytes_length]
          have hnext : put w.mem (dst + 512 * j) (bytes w.mem (src + 512 * j) 512) =
              copied m dst src (j + 1) := by
            rw [hw]
            exact copied_succ (hread j (Nat.lt_add_of_pos_right n.succ_pos))
          have hsub : 512 * (n + 1) - 512 = 512 * n := by rw [Nat.mul_succ, Nat.add_sub_cancel]
          rw [copyFlashToFlash, if_neg (Nat.mul_ne_zero (by decide) n.succ_ne_zero)]
          simp only [hlen, hu32 hs, hu32 hd]
          rw [bind_ok (readOrErr_of_le hs), hfull, bind_ok (writeOrErr_of_le hwle), hnext, hsub]
          rw [Nat.mul_succ] at hrest
          rw [hrest, hjn, List.range'_succ, List.map_cons, List.reverse_cons, List.append_assoc, ← hw]
          rfl

@[simp] theorem copied_zero {dst src : ℕ} : copied m dst src 0 = m := put_nil

def swapErased (m : Mem) : Mem := put m swapPageStart (List.replicate ramdiskPageSize 0xFF)

def swapWritten (m img : Mem) : Mem := put (swapErased m) swapPageStart (bytes img 0 ramdiskPageSize)

theorem swapWritten_of_lt {img : Mem} {x : ℕ} (h : x < swapPageStart) : swapWritten m img x = m x := by
  rw [swapWritten, put_of_lt h, swapErased, put_of_lt h]

def pageRecorded (m : Mem) (p : ℕ) : Mem :=
  put m garbagePageTabStart (wordBytes (p * ramdiskPageSize))

def pageErased (m : Mem) (p : ℕ) : Mem :=
  put m (p * ramdiskPageSize) (List.replicate ramdiskPageSize 0xFF)

/-- The page as far as it is copied back from the swap page. -/
def copiedBack (m : Mem) (p j : ℕ) : Mem := copied (pageErased m p) (p * ramdiskPageSize) swapPageStart j

theorem eraseRamdiskPage_swap : eraseRamdiskPage m swapPageIdx = swapErased m :=
  eraseRamdiskPage_of_lt (by decide)

theorem eraseRamdiskPage_eq (hp : p < ramdiskPageNum) : eraseRamdiskPage m p = pageErased m p :=
  eraseRamdiskPage_of_lt hp

theorem reverse_map_range_succ {α : Type} (f : ℕ → α) (n : ℕ) :
    ((List.range (n + 1)).map f).reverse = f n :: ((List.range n).map f).reverse := by
  rw [List.range_succ, List.map_append, List.reverse_append]
  rfl

theorem copySwap_run {dst : ℕ} (hp : p < ramdiskPageNum) (hdst : dst = p * ramdiskPageSize) :
    copyFlashToFlash dst swapPageStart ramdiskPageSize ramdiskPageSize 0 w = .ok ()
      { w with
        mem := copied w.mem dst swapPageStart 8
        past := ((List.range 8).map (copied w.mem dst swapPageStart)).reverse ++ w.past } := by
  have hp' : p < 1024 := hp
  have hread : ∀ i < 0 + 8, bytes (copied w.mem dst swapPageStart i) (swapPageStart + 512 * i) 512 =
      bytes w.mem (swapPageStart + 512 * i) 512 := by
    intro i hi
    by_cases hswap : p = swapPageIdx
    · have hsame : copied w.mem dst swapPageStart i = w.mem := by
        rw [copied, hdst, hswap]
        exact put_bytes_self
      rw [hsame]
    · have hlt : p < 1023 := by
        have hne : p ≠ 1023 := hswap
        omega
      refine bytes_put_of_disjoint (Or.inr ?_)
      rw [hdst]
      change p * 4096 + (bytes _ _ (512 * i)).length ≤ 4190208 + 512 * i
      rw [bytes_length]
      omega
  have hle : dst + 512 * (0 + 8) ≤ 0x400000 := by
    rw [hdst]
    change p * 4096 + 4096 ≤ 0x400000
    omega
  exact copyFlashToFlash_run (w := w) (m := w.mem) (n := 8) (j := 0)
    (by decide) copied_zero.symm hle (by decide) hread

theorem copySwap_mem {dst : ℕ} (hp : p < ramdiskPageNum) (hdst : dst = p * ramdiskPageSize) :
    ∃ w', copyFlashToFlash dst swapPageStart ramdiskPageSize ramdiskPageSize 0 w = .ok () w' ∧
      w'.mem = copied w.mem dst swapPageStart 8 :=
  ⟨_, copySwap_run hp hdst, rfl⟩

theorem shiftLeft_page : p <<< ramdiskPageSizeShift = p * ramdiskPageSize := Nat.shiftLeft_eq ..

theorem swapErased_apply (x : ℕ) : swapErased m x =
    if swapPageStart ≤ x ∧ x < swapPageStart + 4096 then 0xFF else m x := put_replicate ..

theorem swapWritten_apply {img : Mem} (x : ℕ) : swapWritten m img x =
    if swapPageStart ≤ x ∧ x < swapPageStart + 4096 then img (x - swapPageStart) else m x := by
  rw [swapWritten, put_bytes, swapErased_apply, Nat.zero_add, ramdiskPageSize]
  split_ifs <;> rfl

theorem pageErased_apply (x : ℕ) : pageErased m p x =
    if p * 4096 ≤ x ∧ x < p * 4096 + 4096 then 0xFF else m x := put_replicate ..

theorem copiedBack_apply {j : ℕ} (hp : p < swapPageIdx) (hj : j ≤ 8) (x : ℕ) : copiedBack m p j x =
    if p * 4096 ≤ x ∧ x < p * 4096 + 4096 then
      if x < p * 4096 + 512 * j then m (swapPageStart + (x - p * 4096)) else 0xFF
    else m x := by
  have hp' : p < 1023 := hp
  have hstart : swapPageStart = 4190208 := rfl
  rw [copiedBack, copied, put_bytes, pageErased_apply, pageErased_apply, hstart, ramdiskPageSize]
  split_ifs <;> first | rfl | omega

theorem copiedBack_swap {j : ℕ} : copiedBack m swapPageIdx j = swapErased m := put_bytes_self

/-- The second half of a page update: the page is erased and the swap page copied back. -/
theorem copyBack_run (hp : p < ramdiskPageNum) :
    (erasePage p >>= fun _ => copyFlashToFlash (p <<< ramdiskPageSizeShift) swapPageStart
      ramdiskPageSize ramdiskPageSize 0 >>= fun _ => erasePage swapPageIdx) w = .ok ()
      { w with
        mem := swapErased (copiedBack w.mem p 8)
        past := ((List.range 9).map (copiedBack w.mem p)).reverse ++ w.mem :: w.past } := by
  have hcopy := copySwap_run (w := w.store (pageErased w.mem p)) hp shiftLeft_page
  rw [shiftLeft_page] at hcopy ⊢
  rw [erasePage_bind, eraseRamdiskPage_eq hp, bind_ok hcopy, reverse_map_range_succ _ 8,
    ← eraseRamdiskPage_swap]
  rfl

theorem writeSwap_run (img : Mem) : writeOrErr swapPageStart (bytes img 0 ramdiskPageSize)
    (w.store (swapErased w.mem)) =
      .ok () ((w.store (swapErased w.mem)).store (swapWritten w.mem img)) := by
  have hwrite : swapPageStart + (bytes img 0 ramdiskPageSize).length ≤ ramdiskSize := by
    rw [bytes_length]
    decide
  exact writeOrErr_of_le hwrite

/-- The metadata page is rewritten without a record of it. -/
theorem storePage_metadata_run : storePage metadataPageIdx w = .ok ()
    { w with
      mem := swapErased (copiedBack (swapWritten w.mem (put w.page 4092 (wordBytes 0))) metadataPageIdx 8)
      past := ((List.range 9).map
          (copiedBack (swapWritten w.mem (put w.page 4092 (wordBytes 0))) metadataPageIdx)).reverse ++
        swapWritten w.mem (put w.page 4092 (wordBytes 0)) :: swapErased w.mem :: w.mem :: w.past
      page := put w.page 4092 (wordBytes 0) } := by
  have hwrite := writeSwap_run (w := { w with page := put w.page 4092 (wordBytes 0) })
    (put w.page 4092 (wordBytes 0))
  rw [storePage, if_neg (by decide), erasePage_bind, eraseRamdiskPage_swap]
  simp only [if_pos, modifyPage_bind, getPage_bind]
  refine (bind_ok hwrite).trans ?_
  rw [if_neg (not_not_intro rfl), copyBack_run (by decide)]
  rfl

theorem storePage_metadata_mem : ∃ w', storePage metadataPageIdx w = .ok () w' ∧ w'.mem =
    swapErased (copiedBack (swapWritten w.mem (put w.page 4092 (wordBytes 0))) metadataPageIdx 8) :=
  ⟨_, storePage_metadata_run, rfl⟩

theorem recordGarbagePage_run (hp : p < ramdiskPageNum)
    (htab : word w.mem garbagePageTabStart = minusOne) :
    recordGarbagePage p w = .ok () (w.store (pageRecorded w.mem p)) := by
  have hsection : word (ofBytes (bytes w.mem garbagePageTabStart garbagePageTabSize)) 0 = minusOne := by
    rw [word_ofBytes_bytes (by decide)]
    exact htab
  have hfind : (List.range garbagePageTabMaxCnt).find? (fun i =>
      word (ofBytes (bytes w.mem garbagePageTabStart garbagePageTabSize)) (4 * i) == minusOne) = some 0 := by
    change (List.range 1).find? _ = some 0
    rw [List.range_succ, List.range_zero, List.nil_append, List.find?_cons_of_pos]
    exact beq_of_eq hsection
  have hp' : p < 1024 := hp
  have hentry : u32 (p <<< ramdiskPageSizeShift) = p * ramdiskPageSize := by
    rw [shiftLeft_page, u32_of_lt]
    change p * 4096 < 4294967296
    omega
  have hput : bytes (put (ofBytes (bytes w.mem garbagePageTabStart garbagePageTabSize)) 0
      (wordBytes (p * ramdiskPageSize))) 0 (wordBytes (p * ramdiskPageSize)).length = _ := bytes_put_self
  rw [recordGarbagePage, bind_ok (readOrErr_of_le (by decide))]
  simp only [hfind, hentry]
  exact (congrArg (fun bs => writeOrErr garbagePageTabStart bs w) hput).trans
    (writeOrErr_of_le (by rw [wordBytes_length]; decide))

theorem recordGarbagePage_full (htab : word w.mem garbagePageTabStart ≠ minusOne) :
    recordGarbagePage p w = .ok () w := by
  have hfind : (List.range garbagePageTabMaxCnt).find? (fun i =>
      word (ofBytes (bytes w.mem garbagePageTabStart garbagePageTabSize)) (4 * i) == minusOne) = none := by
    refine List.find?_eq_none.mpr fun i hi => ?_
    have hi' : i < 1 := List.mem_range.mp hi
    have hzero : i = 0 := by omega
    rw [hzero, word_ofBytes_bytes (by decide)]
    exact fun h => htab (eq_of_beq h)
  rw [recordGarbagePage, bind_ok (readOrErr_of_le (by decide))]
  simp only [hfind]
  rfl

/-- A rewrite of a data page, whatever becomes of the garbage page table. -/
theorem storePage_recorded {u : Fs} (hp : p < ramdiskPageNum) (h0 : p ≠ metadataPageIdx)
    (hrec : recordGarbagePage p ((w.store (swapErased w.mem)).store (swapWritten w.mem w.page)) = .ok () u) :
    storePage p w = .ok () { u with
      mem := swapErased (copiedBack u.mem p 8)
      past := ((List.range 9).map (copiedBack u.mem p)).reverse ++ u.mem :: u.past } := by
  rw [storePage, if_neg (Nat.not_le.mpr hp), erasePage_bind, eraseRamdiskPage_swap]
  simp only [if_neg h0, getPage_bind]
  refine (bind_ok (writeSwap_run w.page)).trans ?_
  rw [if_pos h0, bind_ok hrec, copyBack_run hp]

/-- A data page is recorded in the garbage page table while it is rewritten. -/
theorem storePage_data_run (hp : p < ramdiskPageNum) (h0 : p ≠ metadataPageIdx)
    (htab : word w.mem garbagePageTabStart = minusOne) : storePage p w = .ok ()
    { w with
      mem := swapErased (copiedBack (pageRecorded (swapWritten w.mem w.page) p) p 8)
      past := ((List.range 9).map (copiedBack (pageRecorded (swapWritten w.mem w.page) p) p)).reverse ++
        pageRecorded (swapWritten w.mem w.page) p :: swapWritten w.mem w.page :: swapErased w.mem ::
          w.mem :: w.past } := by
  have hrec := recordGarbagePage_run (w := (w.store (swapErased w.mem)).store (swapWritten w.mem w.page))
    hp (htab ▸ word_congr fun x _ hx => swapWritten_of_lt (hx.trans (by decide)))
  rw [storePage_recorded hp h0 hrec]
  rfl

/-- What a rewrite of the metadata page leaves after each of its device operations. -/
theorem devices_metadata {img c : Mem} (himg : put w.page 4092 (wordBytes 0) = img)
    (hc : swapWritten w.mem img = c) : devices (storePage metadataPageIdx) w =
      [w.mem, swapErased w.mem, c] ++ ((List.range 9).map (copiedBack c metadataPageIdx) ++
        [swapErased (copiedBack c metadataPageIdx 8)]) := by
  rw [devices, storePage_metadata_run]
  simp only [himg, hc, stateAfter, List.reverse_cons, List.reverse_append, List.reverse_reverse,
    List.reverse_nil, List.nil_append, List.cons_append]

/-- What a rewrite of a data page leaves after each of its device operations. -/
theorem devices_data {c : Mem} (hp : p < ramdiskPageNum) (h0 : p ≠ metadataPageIdx)
    (htab : word w.mem garbagePageTabStart = minusOne)
    (hc : pageRecorded (swapWritten w.mem w.page) p = c) : devices (storePage p) w =
      [w.mem, swapErased w.mem, swapWritten w.mem w.page, c] ++
        ((List.range 9).map (copiedBack c p) ++ [swapErased (copiedBack c p 8)]) := by
  have hrun := storePage_data_run (w := { w with past := [] }) hp h0 htab
  rw [devices, hrun]
  simp only [hc, stateAfter, List.reverse_cons, List.reverse_append, List.reverse_reverse,
    List.reverse_nil, List.nil_append, List.cons_append]

/-- The same while the garbage page table is full. -/
theorem devices_full {c : Mem} (hp : p < ramdiskPageNum) (h0 : p ≠ metadataPageIdx)
    (htab : word w.mem garbagePageTabStart ≠ minusOne) (hc : swapWritten w.mem w.page = c) :
    devices (storePage p) w = [w.mem, swapErased w.mem, c] ++
      ((List.range 9).map (copiedBack c p) ++ [swapErased (copiedBack c p 8)]) := by
  have hsame : word (swapWritten w.mem w.page) garbagePageTabStart = word w.mem garbagePageTabStart :=
    word_congr fun x _ hx => swapWritten_of_lt (hx.trans (by decide))
  have hrun := storePage_recorded (w := { w with past := [] }) hp h0 (recordGarbagePage_full (hsame ▸ htab))
  rw [devices, hrun]
  simp only [store_mem, hc, stateAfter, List.reverse_cons, List.reverse_append, List.reverse_reverse,
    List.cons_append]
  rfl

/-- The second half of the list: nine stages of the copy and the end. -/
theorem getElem?_copies {α : Type} {f : ℕ → α} {last a : α} {n k : ℕ}
    (h : ((List.range n).map f ++ [last])[k]? = some a) : (k < n ∧ a = f k) ∨ (k = n ∧ a = last) := by
  rcases lt_trichotomy k n with hk | rfl | hk
  · rw [List.getElem?_append_left (by simpa using hk), List.getElem?_map, List.getElem?_range hk] at h
    exact Or.inl ⟨hk, (Option.some.inj h).symm⟩
  · rw [List.getElem?_append_right (by simp)] at h
    simp only [List.length_map, List.length_range, Nat.sub_self, List.getElem?_cons_zero] at h
    exact Or.inr ⟨rfl, (Option.some.inj h).symm⟩
  · have hlen : ((List.range n).map f ++ [last]).length ≤ k := by
      rw [List.length_append, List.length_map, List.length_range, List.length_singleton]
      exact hk
    rw [List.getElem?_eq_none hlen] at h
    cases h

theorem orIoErr_ok {x : FsM Unit} {w' : Fs} (h : x w = .ok () w') : orIoErr x w = .ok () w' :=
  tryCatch_ok h

theorem loadMetadata_run :
    orIoErr (loadPage metadataPageIdx) w = .ok () { w with page := loadedPage w metadataPageIdx } :=
  orIoErr_ok (loadPage_of_lt (by decide))

/-- The metadata page without the record, as it is stored again. -/
def clearedPage (page : Mem) : Mem :=
  put (put page garbagePageTabStart (List.replicate garbagePageTabSize 0xFF)) 4092 (wordBytes 0)

theorem clearedPage_apply {page : Mem} (x : ℕ) : clearedPage page x =
    if 4092 ≤ x ∧ x < 4096 then 0
    else if garbagePageTabStart ≤ x ∧ x < garbagePageTabStart + 4 then 0xFF else page x := by
  have hzero : wordBytes 0 = List.replicate 4 0 := rfl
  rw [clearedPage, hzero, put_replicate, put_replicate]
  rfl

theorem loadedPage_byte {x : ℕ} (h : x < ramdiskPageSize) : loadedPage w p x = w.mem (p * ramdiskPageSize + x) := by
  rw [loadedPage, put_bytes, Nat.zero_add, if_pos ⟨Nat.zero_le x, h⟩, Nat.sub_zero]

theorem loadedPage_apply {x : ℕ} (h : x < 4096) : loadedPage w metadataPageIdx x = w.mem x := by
  rw [loadedPage_byte h, metadataPageIdx, Nat.zero_mul, Nat.zero_add]

theorem metadataStored_apply {page : Mem} (x : ℕ) :
    swapErased (copiedBack (swapWritten m page) metadataPageIdx 8) x =
      if swapPageStart ≤ x ∧ x < swapPageStart + 4096 then 0xFF
      else if x < 4096 then page x else m x := by
  have hstart : swapPageStart = 4190208 := rfl
  rw [swapErased_apply, copiedBack_apply (by decide) le_rfl, swapWritten_apply, swapWritten_apply, hstart]
  simp only [metadataPageIdx, Nat.zero_mul, Nat.zero_add, Nat.sub_zero, Nat.zero_le, true_and]
  split_ifs <;> first | omega | exact congrArg page (by omega) | rfl

/-- The metadata page is loaded, loses the record and is stored. -/
theorem clearRecord_run : ∃ u, (do
      orIoErr (loadPage metadataPageIdx)
      modifyPage fun page => put page garbagePageTabStart (List.replicate garbagePageTabSize 0xFF)
      orIoErr (storePage metadataPageIdx)) w = .ok () u ∧
    u.mem = swapErased (copiedBack (swapWritten w.mem (clearedPage (loadedPage w metadataPageIdx)))
      metadataPageIdx 8) := by
  obtain ⟨u, hstore, hmem⟩ := storePage_metadata_mem
    (w := { w with
      page := put (loadedPage w metadataPageIdx) garbagePageTabStart
        (List.replicate garbagePageTabSize 0xFF) })
  rw [bind_ok loadMetadata_run, modifyPage_bind]
  rw [← clearedPage] at hmem
  dsimp only
  exact ⟨u, orIoErr_ok hstore, hmem⟩

section PageUpdate

/-- Not in the garbage page table, the swap page or page `p`. -/
def Elsewhere (p x : ℕ) : Prop :=
  (x < garbagePageTabStart ∨ garbagePageTabStart + garbagePageTabSize ≤ x) ∧ x < swapPageStart ∧
    (x < p * ramdiskPageSize ∨ p * ramdiskPageSize + ramdiskPageSize ≤ x)

/-- Everything elsewhere is as in `m`. -/
def SameElsewhere (m : Mem) (p : ℕ) (u : Fs) : Prop := ∀ x, Elsewhere p x → u.mem x = m x

theorem SameElsewhere.put (h : SameElsewhere m p w) {a : ℕ} {bs : List UInt8}
    (ha : ∀ x, Elsewhere p x → x < a ∨ a + bs.length ≤ x) : SameElsewhere m p (w.store (put w.mem a bs)) := by
  intro x hx
  rw [store_mem, put_of_notMem (ha x hx)]
  exact h x hx

theorem writeOrErr_elsewhere {a : ℕ} {bs : List UInt8} (hle : a + bs.length ≤ ramdiskSize)
    (ha : ∀ x, Elsewhere p x → x < a ∨ a + bs.length ≤ x) :
    Stays (SameElsewhere m p) (writeOrErr a bs) fun _ => True :=
  writeOrErr_stays fun w m' h hm => by
    rw [writeRamdisk_of_le hle] at hm
    obtain rfl := Option.some.inj hm
    exact h.put ha

theorem erasePage_elsewhere {k : ℕ} (hk : k < ramdiskPageNum) (hp : k = p ∨ k = swapPageIdx) :
    Stays (SameElsewhere m p) (erasePage k) fun _ => True := by
  intro w hw
  have hstart : swapPageStart = swapPageIdx * ramdiskPageSize := rfl
  refine ⟨?_, ⟨[w.mem], rfl, fun m' hm => ?_⟩, fun _ _ _ => trivial⟩
  · change SameElsewhere m p (w.store (eraseRamdiskPage w.mem k))
    rw [eraseRamdiskPage_of_lt hk]
    refine hw.put fun x hx => ?_
    rw [List.length_replicate]
    rcases hp with rfl | rfl
    · exact hx.2.2
    · exact Or.inl (hx.2.1.trans_eq hstart)
  · exact ⟨w, hw, (List.mem_singleton.mp hm).symm⟩

theorem modifyPage_elsewhere (f : Mem → Mem) : Stays (SameElsewhere m p) (modifyPage f) fun _ => True :=
  fun _ hw => ⟨hw, ⟨[], rfl, fun _ hm => absurd hm List.not_mem_nil⟩, fun _ _ _ => trivial⟩

theorem getPage_readOnly : ReadOnly getPage := fun _ => rfl

/-- The chunks stay in the page. -/
theorem copyFlashToFlash_elsewhere {dst src fuel n offset : ℕ} (hp : p < ramdiskPageNum)
    (hdst : dst = p * ramdiskPageSize) (hn : offset + n ≤ ramdiskPageSize) :
    Stays (SameElsewhere m p) (copyFlashToFlash dst src fuel n offset) fun _ => True := by
  induction fuel generalizing n offset with
  | zero => exact Stays.pure trivial
  | succ fuel ih =>
      have hp' : p < 1024 := hp
      have hpage : ramdiskPageSize = 4096 := rfl
      have hsize : ramdiskSize = 4194304 := rfl
      have hdst' : dst = p * 4096 := hdst
      rw [copyFlashToFlash]
      split
      · exact Stays.pure trivial
      · obtain ⟨k, hk⟩ : ∃ k, (if n > datablkSize then datablkSize else n) = k := ⟨_, rfl⟩
        have hkn : k ≤ n := by
          rw [← hk]
          split <;> omega
        have haddr : u32 (dst + offset) = dst + offset := by
          refine u32_of_lt ?_
          unfold Word.size
          omega
        rw [hk, haddr]
        refine ((readOrErr_readOnly _ _).stays fun _ _ _ _ _ => trivial).bind fun b _ => ?_
        refine (writeOrErr_elsewhere (by rw [bytes_length]; omega) fun x hx => ?_).bind fun _ _ => ?_
        · have hx' := hx.2.2
          rw [bytes_length]
          omega
        · exact ih (by omega)

theorem recordGarbagePage_elsewhere : Stays (SameElsewhere m p) (recordGarbagePage p) fun _ => True := by
  refine ((readOrErr_readOnly _ _).stays fun _ _ _ _ _ => trivial).bind fun b _ => ?_
  cases hfind : (List.range garbagePageTabMaxCnt).find? fun i => word b (4 * i) == minusOne with
  | none => exact Stays.pure trivial
  | some i =>
      have hi : i < 1 := List.mem_range.mp (List.mem_of_find?_eq_some hfind)
      have htab : garbagePageTabStart = 1984 := rfl
      have hlen : garbagePageTabSize = 4 := rfl
      have hsize : ramdiskSize = 4194304 := rfl
      refine writeOrErr_elsewhere (by rw [bytes_length]; omega) fun x hx => ?_
      have hx' := hx.1
      rw [bytes_length]
      omega

/-- A page update changes its page, the swap page and the garbage page table. -/
theorem storePage_elsewhere : Stays (SameElsewhere m p) (storePage p) fun _ => True := by
  rw [storePage]
  split
  · exact Stays.throw _
  · rename_i hge
    have hp : p < ramdiskPageNum := Nat.not_le.mp hge
    have hswap : swapPageIdx < ramdiskPageNum := by decide
    refine (erasePage_elsewhere hswap (Or.inr rfl)).bind fun _ _ => ?_
    have hlast : Stays (SameElsewhere m p) (do
        let page ← getPage
        writeOrErr swapPageStart (bytes page 0 ramdiskPageSize)
        if p ≠ metadataPageIdx then recordGarbagePage p
        erasePage p
        copyFlashToFlash (p <<< ramdiskPageSizeShift) swapPageStart ramdiskPageSize ramdiskPageSize 0
        erasePage swapPageIdx) fun _ => True := by
      refine (getPage_readOnly.stays fun _ _ _ _ _ => trivial).bind fun page _ => ?_
      refine (writeOrErr_elsewhere (by rw [bytes_length]; decide) fun x hx => Or.inl hx.2.1).bind fun _ _ => ?_
      have hback : Stays (SameElsewhere m p) (do
          erasePage p
          copyFlashToFlash (p <<< ramdiskPageSizeShift) swapPageStart ramdiskPageSize ramdiskPageSize 0
          erasePage swapPageIdx) fun _ => True := by
        refine (erasePage_elsewhere hp (Or.inl rfl)).bind fun _ _ => ?_
        refine (copyFlashToFlash_elsewhere hp shiftLeft_page (Nat.zero_add _).le).bind fun _ _ => ?_
        exact erasePage_elsewhere hswap (Or.inr rfl)
      split
      · exact recordGarbagePage_elsewhere.bind fun _ _ => hback
      · exact hback
    by_cases hmeta : p = metadataPageIdx
    · simp only [if_pos hmeta]
      refine (modifyPage_elsewhere _).bind fun _ _ => ?_
      simp only [if_neg (not_not_intro hmeta)] at hlast
      simp only [ne_eq, if_neg (not_not_intro hmeta)]
      exact hlast
    · simp only [if_neg hmeta]
      exact hlast

theorem Stays.devices {α : Type} {P : Fs → Prop} {R : α → Prop} {x : FsM α} (h : Stays P x R)
    (hw : P { w with past := [] }) : ∀ d ∈ devices x w, ∃ u, P u ∧ u.mem = d := by
  intro d hd
  obtain ⟨hP, ⟨l, hl, hall⟩, -⟩ := h _ hw
  rw [Slfs.devices] at hd
  rcases List.mem_cons.mp (List.mem_reverse.mp hd) with rfl | hd
  · exact ⟨_, hP, rfl⟩
  · rw [hl, List.append_nil] at hd
    exact hall d hd

end PageUpdate

end Slos.Slfs
