import Slos.SlfsCalls

/-!
# Running SLFS calls

What the building blocks of the calls do to the state, and what a call that returns leaves.
-/

namespace Slos.Slfs
open Word ByteMemory Ramdisk

variable {α β : Type}

theorem bind_ok {x : FsM α} {f : α → FsM β} {w w' : Fs} {a : α} (h : x w = .ok a w') :
    (x >>= f) w = f a w' := by
  simp only [bind, EStateM.bind, h]

theorem bind_error {x : FsM α} {f : α → FsM β} {w w' : Fs} {e : FsErr} (h : x w = .error e w') :
    (x >>= f) w = .error e w' := by
  simp only [bind, EStateM.bind, h]

theorem tryCatch_ok {x : FsM α} {f : FsErr → FsM α} {w w' : Fs} {a : α} (h : x w = .ok a w') :
    (tryCatch x f) w = .ok a w' := by
  simp only [tryCatch, tryCatchThe, MonadExceptOf.tryCatch, EStateM.tryCatch, h]

@[simp] theorem pure_run (a : α) (w : Fs) : (pure a : FsM α) w = .ok a w := rfl

@[simp] theorem throw_run (e : FsErr) (w : Fs) : (throw e : FsM α) w = .error e w := rfl

@[simp] theorem getFile_bind (f : SlfsFile → FsM β) (w : Fs) : (getFile >>= f) w = f w.file w := rfl

@[simp] theorem modifyFile_bind (g : SlfsFile → SlfsFile) (f : Unit → FsM β) (w : Fs) :
    (modifyFile g >>= f) w = f () { w with file := g w.file } := rfl

@[simp] theorem modifyFile_run (g : SlfsFile → SlfsFile) (w : Fs) :
    modifyFile g w = .ok () { w with file := g w.file } := rfl

@[simp] theorem getPage_bind (f : Mem → FsM β) (w : Fs) : (getPage >>= f) w = f w.page w := rfl

@[simp] theorem modifyPage_bind (g : Mem → Mem) (f : Unit → FsM β) (w : Fs) :
    (modifyPage g >>= f) w = f () { w with page := g w.page } := rfl

@[simp] theorem erasePage_bind (p : ℕ) (f : Unit → FsM β) (w : Fs) :
    (erasePage p >>= f) w = f () (w.store (eraseRamdiskPage w.mem p)) := rfl

@[simp] theorem ioRead_bind (addr len : ℕ) (f : Option (List UInt8) → FsM β) (w : Fs) :
    (ioRead addr len >>= f) w = f (readRamdisk w.mem addr len) w := rfl

@[simp] theorem store_mem (w : Fs) (m : Mem) : (w.store m).mem = m := rfl

@[simp] theorem store_file (w : Fs) (m : Mem) : (w.store m).file = w.file := rfl

@[simp] theorem store_page (w : Fs) (m : Mem) : (w.store m).page = w.page := rfl

@[simp] theorem store_buf (w : Fs) (m : Mem) : (w.store m).buf = w.buf := rfl

theorem readOrErr_of_le {w : Fs} {addr len : ℕ} (h : addr + len ≤ ramdiskSize) :
    readOrErr addr len w = .ok (ofBytes (bytes w.mem addr len)) w := by
  rw [readOrErr, readRamdisk_of_le h]

theorem writeOrErr_of_le {w : Fs} {addr : ℕ} {bs : List UInt8} (h : addr + bs.length ≤ ramdiskSize) :
    writeOrErr addr bs w = .ok () (w.store (put w.mem addr bs)) := by
  rw [writeOrErr, writeRamdisk_of_le h]

theorem readWord_of_le {w : Fs} {addr : ℕ} (h : addr + 4 ≤ ramdiskSize) :
    readWord addr w = .ok (word w.mem addr) w := by
  rw [readWord, bind_ok (readOrErr_of_le h), pure_run, word_ofBytes_bytes le_rfl, Nat.add_zero]

def loadedPage (w : Fs) (pageIdx : ℕ) : Mem :=
  put w.page 0 (bytes w.mem (pageIdx * ramdiskPageSize) ramdiskPageSize)

theorem loadPage_of_lt {w : Fs} {pageIdx : ℕ} (h : pageIdx < ramdiskPageNum) :
    loadPage pageIdx w = .ok () { w with page := loadedPage w pageIdx } := by
  have hp : pageIdx < 1024 := h
  have hshift : pageIdx <<< ramdiskPageSizeShift = pageIdx * ramdiskPageSize :=
    Nat.shiftLeft_eq ..
  have hle : pageIdx * ramdiskPageSize + ramdiskPageSize ≤ ramdiskSize := by
    simp only [ramdiskPageSize, ramdiskSize]
    omega
  rw [loadPage, if_neg (Nat.not_le.mpr h), ioRead_bind, hshift, readRamdisk_of_le hle]
  rfl

theorem word_loadedPage (w : Fs) {a : ℕ} (h : a + 4 ≤ ramdiskPageSize) :
    word (loadedPage w metadataPageIdx) a = word w.mem a := by
  refine word_congr fun x _ hx => ?_
  have hlt : x < ramdiskPageSize := hx.trans_le h
  have hput : put w.page 0 (bytes w.mem 0 ramdiskPageSize) (0 + x) = _ := put_add
  rw [Nat.zero_add, getElem?_bytes hlt, Nat.zero_add] at hput
  exact hput

theorem bind_eq_ok {w w' : Fs} {x : FsM α} {f : α → FsM β} {b : β} (h : (x >>= f) w = .ok b w') :
    ∃ a u, x w = .ok a u ∧ f a u = .ok b w' := by
  cases hrun : x w with
  | ok a u => exact ⟨a, u, rfl, (bind_ok hrun).symm.trans h⟩
  | error e u =>
      rw [bind_error hrun] at h
      cases h

def succeeded : EStateM.Result FsErr Fs α → Bool
  | .ok _ _ => true
  | .error _ _ => false

def returned : EStateM.Result FsErr Fs α → Option α
  | .ok a _ => some a
  | .error _ _ => none

def failure : EStateM.Result FsErr Fs α → Option FsErr
  | .ok _ _ => none
  | .error e _ => some e

def stateAfter : EStateM.Result FsErr Fs α → Fs
  | .ok _ w => w
  | .error _ w => w

/-- A call that leaves the state as it was, however it ends. -/
def ReadOnly (x : FsM α) : Prop := ∀ w, stateAfter (x w) = w

theorem ReadOnly.ok {x : FsM α} (h : ReadOnly x) {w w' : Fs} {a : α} (hrun : x w = .ok a w') : w' = w :=
  (congrArg stateAfter hrun).symm.trans (h w)

theorem ReadOnly.pure (a : α) : ReadOnly (Pure.pure a : FsM α) := fun _ => rfl

theorem ReadOnly.throw (e : FsErr) : ReadOnly (MonadExcept.throw e : FsM α) := fun _ => rfl

theorem ReadOnly.bind {x : FsM α} {f : α → FsM β} (hx : ReadOnly x) (hf : ∀ a, ReadOnly (f a)) :
    ReadOnly (x >>= f) := by
  intro w
  have hw := hx w
  cases hrun : x w with
  | ok a u =>
      rw [hrun] at hw
      rw [bind_ok hrun, hf a u]
      exact hw
  | error e u =>
      rw [hrun] at hw
      rw [bind_error hrun]
      exact hw

theorem readOrErr_readOnly (addr len : ℕ) : ReadOnly (readOrErr addr len) := by
  intro w
  rw [readOrErr]
  split <;> rfl

theorem readWord_readOnly (addr : ℕ) : ReadOnly (readWord addr) :=
  (readOrErr_readOnly addr 4).bind fun _ => ReadOnly.pure _

theorem getFile_readOnly : ReadOnly getFile := fun _ => rfl

theorem eq_ok_of_succeeded {r : EStateM.Result FsErr Fs Unit} (h : succeeded r = true) :
    r = .ok () (stateAfter r) := by
  cases r with
  | ok a w => rfl
  | error e w => cases h

/-- An erased device and a handle not in use. -/
def erasedFs : Fs where
  mem _ := 0xFF
  past := []
  page _ := 0
  superblk _ := 0
  file := ⟨0, 0, 0, 0, 0, 0, 0, 0, fun _ => 0⟩
  buf _ := 0

/-- Locals that happen to hold zeros. -/
def zeroUninit : Uninit where
  inode := ⟨0, 0, 0, 0, 0, 0, fun _ => 0⟩
  len := 0
  alloc := ⟨0, 0, 0⟩
  curDatablkAddr := 0
  superblk _ := 0

/-- The name of one letter `b`. -/
def letter (b : UInt8) : ℕ → UInt8 := fun i => if i = 0 then b else 0

/-- A call keeps a property of the state, which every device it goes through comes from, however it ends;
what it returns meets `R`. -/
def Stays (P : Fs → Prop) (x : FsM α) (R : α → Prop) : Prop := ∀ w, P w →
  P (stateAfter (x w)) ∧
    (∃ l, (stateAfter (x w)).past = l ++ w.past ∧ ∀ m ∈ l, ∃ u, P u ∧ u.mem = m) ∧
    ∀ a w', x w = .ok a w' → R a

section Stays

variable {P : Fs → Prop} {R : α → Prop} {S : β → Prop}

theorem ReadOnly.stays {x : FsM α} (h : ReadOnly x)
    (hR : ∀ w, P w → ∀ a w', x w = .ok a w' → R a) : Stays P x R := by
  intro w hw
  rw [h w]
  exact ⟨hw, ⟨[], rfl, fun m hm => absurd hm List.not_mem_nil⟩, hR w hw⟩

theorem Stays.pure {a : α} (ha : R a) : Stays P (Pure.pure a : FsM α) R :=
  (ReadOnly.pure a).stays fun _ _ b _ h => by
    cases h
    exact ha

theorem Stays.throw (e : FsErr) : Stays P (MonadExcept.throw e : FsM α) R :=
  (ReadOnly.throw e).stays fun _ _ _ _ h => by cases h

theorem Stays.mono {R' : α → Prop} {x : FsM α} (h : Stays P x R) (hR : ∀ a, R a → R' a) :
    Stays P x R' := by
  intro w hw
  obtain ⟨hP, hl, hpost⟩ := h w hw
  exact ⟨hP, hl, fun a w' hrun => hR a (hpost a w' hrun)⟩

theorem Stays.bind {x : FsM α} {f : α → FsM β} (hx : Stays P x R) (hf : ∀ a, R a → Stays P (f a) S) :
    Stays P (x >>= f) S := by
  intro w hw
  obtain ⟨hP, ⟨l, hl, hlP⟩, hpost⟩ := hx w hw
  cases hrun : x w with
  | error e u =>
      rw [hrun] at hP hl
      rw [bind_error hrun]
      exact ⟨hP, ⟨l, hl, hlP⟩, fun a w' h => by cases h⟩
  | ok a u =>
      rw [hrun] at hP hl
      obtain ⟨hP', ⟨l', hl', hlP'⟩, hpost'⟩ := hf a (hpost a u hrun) u hP
      have hpast : u.past = l ++ w.past := hl
      rw [bind_ok hrun]
      refine ⟨hP', ⟨l' ++ l, by rw [hl', hpast, List.append_assoc], fun m hm => ?_⟩, hpost'⟩
      exact (List.mem_append.mp hm).elim (hlP' m) (hlP m)

theorem getFile_stays {F : SlfsFile → Prop} (h : ∀ w, P w → F w.file) : Stays P getFile F :=
  getFile_readOnly.stays fun w hw a w' hrun => by
    cases hrun
    exact h w hw

theorem modifyFile_stays {f : SlfsFile → SlfsFile} (h : ∀ w, P w → P { w with file := f w.file }) :
    Stays P (modifyFile f) fun _ => True := fun w hw =>
  ⟨h w hw, ⟨[], rfl, fun _ hm => absurd hm List.not_mem_nil⟩, fun _ _ _ => trivial⟩

theorem writeOrErr_stays {addr : ℕ} {bs : List UInt8}
    (h : ∀ w m, P w → writeRamdisk w.mem addr bs = some m → P (w.store m)) :
    Stays P (writeOrErr addr bs) fun _ => True := by
  intro w hw
  rw [writeOrErr]
  cases hrun : writeRamdisk w.mem addr bs with
  | none => exact ⟨hw, ⟨[], rfl, fun m hm => absurd hm List.not_mem_nil⟩, fun _ _ _ => trivial⟩
  | some m =>
      refine ⟨h w m hw hrun, ⟨[w.mem], rfl, fun m' hm' => ?_⟩, fun _ _ _ => trivial⟩
      exact ⟨w, hw, (List.mem_singleton.mp hm').symm⟩

end Stays

/-- A call keeps a property of the state, however it ends, and fails only with errors that meet `E`. -/
def Within (P : Fs → Prop) (E : FsErr → Prop) (x : FsM α) : Prop := ∀ w, P w →
  P (stateAfter (x w)) ∧ ∀ e u, x w = .error e u → E e

section Within

variable {P : Fs → Prop} {E : FsErr → Prop}

theorem ReadOnly.within {x : FsM α} (h : ReadOnly x) (hE : ∀ w e u, x w = .error e u → E e) :
    Within P E x := by
  intro w hw
  rw [h w]
  exact ⟨hw, hE w⟩

theorem Within.pure (a : α) : Within P E (Pure.pure a : FsM α) := fun _ hw =>
  ⟨hw, fun _ _ h => by cases h⟩

theorem Within.throw {e : FsErr} (he : E e) : Within P E (MonadExcept.throw e : FsM α) := fun _ hw =>
  ⟨hw, fun _ _ h => by cases h; exact he⟩

theorem Within.bind {x : FsM α} {f : α → FsM β} (hx : Within P E x) (hf : ∀ a, Within P E (f a)) :
    Within P E (x >>= f) := by
  intro w hw
  obtain ⟨hP, herr⟩ := hx w hw
  cases hrun : x w with
  | error e u =>
      rw [hrun] at hP
      rw [bind_error hrun]
      refine ⟨hP, fun e' u' h => ?_⟩
      cases h
      exact herr e u hrun
  | ok a u =>
      rw [hrun] at hP
      rw [bind_ok hrun]
      exact hf a u hP

theorem Within.mono {E' : FsErr → Prop} {x : FsM α} (h : Within P E x) (hE : ∀ e, E e → E' e) :
    Within P E' x := by
  intro w hw
  obtain ⟨hP, herr⟩ := h w hw
  exact ⟨hP, fun e u hrun => hE e (herr e u hrun)⟩

theorem Within.tryCatch {x : FsM α} {f : FsErr → FsM α} (hx : Within P (fun _ => True) x)
    (hf : ∀ e, Within P E (f e)) : Within P E (MonadExcept.tryCatch x f) := by
  intro w hw
  obtain ⟨hP, -⟩ := hx w hw
  cases hrun : x w with
  | error e u =>
      rw [hrun] at hP
      have hcatch : (MonadExcept.tryCatch x f) w = f e u := by
        simp only [MonadExcept.tryCatch, tryCatchThe, MonadExceptOf.tryCatch, EStateM.tryCatch, hrun]
        rfl
      rw [hcatch]
      exact hf e u hP
  | ok a u =>
      rw [hrun] at hP
      rw [tryCatch_ok hrun]
      exact ⟨hP, fun e u h => by cases h⟩

theorem readOrErr_within (addr len : ℕ) (hE : E .io) : Within P E (readOrErr addr len) := by
  refine (readOrErr_readOnly addr len).within fun w e u h => ?_
  rw [readOrErr] at h
  split at h
  · cases h
  · cases h
    exact hE

theorem writeOrErr_within {addr : ℕ} {bs : List UInt8} (hE : E .io)
    (h : ∀ w m, P w → writeRamdisk w.mem addr bs = some m → P (w.store m)) :
    Within P E (writeOrErr addr bs) := by
  intro w hw
  rw [writeOrErr]
  cases hrun : writeRamdisk w.mem addr bs with
  | none => exact ⟨hw, fun e u h => by cases h; exact hE⟩
  | some m => exact ⟨h w m hw hrun, fun e u h => by cases h⟩

theorem modifyPage_within {f : Mem → Mem} (h : ∀ w, P w → P { w with page := f w.page }) :
    Within P E (modifyPage f) := fun w hw => ⟨h w hw, fun _ _ h => by cases h⟩

theorem modifyFile_within {f : SlfsFile → SlfsFile} (h : ∀ w, P w → P { w with file := f w.file }) :
    Within P E (modifyFile f) := fun w hw => ⟨h w hw, fun _ _ h => by cases h⟩

theorem erasePage_within {p : ℕ} (h : ∀ w, P w → P (w.store (eraseRamdiskPage w.mem p))) :
    Within P E (erasePage p) := fun w hw => ⟨h w hw, fun _ _ h => by cases h⟩

theorem readWord_within (addr : ℕ) (hE : E .io) : Within P E (readWord addr) :=
  (readOrErr_within addr 4 hE).bind fun _ => Within.pure _

theorem getFile_within : Within P E getFile := fun _ hw => ⟨hw, fun _ _ h => by cases h⟩

end Within

end Slos.Slfs
