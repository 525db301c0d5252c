import Slos.ByteMemory
import Slos.Terminated

/-!
# C strings

`strlen`, `strcmp` and `strcpy` of `lib.c`, on a memory of bytes; an index goes around at 32 bits, and a loop that has looked
at every index never ends. `strlen` stops at a newline where the other two stop at NUL. Beside the result `strcmp` keeps the
indices it has read of its two arguments.
-/

namespace Slos.CString
open Word ByteMemory

/-- From `s` on the memory holds the bytes `bs` and a NUL behind them. -/
def CStr (m : Mem) (s : ℕ) (bs : List UInt8) : Prop := Terminated.Holds (fun p => u32 (p + 1)) 0 m (u32 s) bs

def strlenLoop (m : Mem) (s : ℕ) : (fuel i : ℕ) → Option ℕ
  | 0, _ => none
  | fuel + 1, i => if m (u32 (s + i)) ≠ 0x0A then strlenLoop m s fuel (u32 (i + 1)) else some i

def strlen (m : Mem) (s : ℕ) : Option ℕ := strlenLoop m s size 0

/-- The indices read of `l` and of `r`. -/
structure Reads where
  l : List ℕ
  r : List ℕ
  deriving DecidableEq

def Reads.ofL (reads : Reads) (i : ℕ) : Reads := { reads with l := reads.l ++ [i] }

def Reads.ofR (reads : Reads) (i : ℕ) : Reads := { reads with r := reads.r ++ [i] }

def strcmpLoop (m : Mem) (l r : ℕ) : (fuel i : ℕ) → Reads → Option (ℕ × Reads)
  | 0, _, _ => none
  | fuel + 1, i, reads =>
      let reads := reads.ofL i
      if m (u32 (l + i)) = 0 then some (i, reads)
      else
        let reads := (reads.ofL i).ofR i
        if m (u32 (l + i)) ≠ m (u32 (r + i)) then some (i, reads)
        else strcmpLoop m l r fuel (u32 (i + 1)) reads

def strcmp (m : Mem) (l r : ℕ) : Option (ℕ × Reads) :=
  (strcmpLoop m l r size 0 ⟨[], []⟩).map fun (i, reads) =>
    let reads := reads.ofL i
    if m (u32 (l + i)) = 0 then
      let reads := reads.ofR i
      if m (u32 (r + i)) = 0 then (0, reads) else (1, reads)
    else (1, reads)

def strcpyLoop (dst src : ℕ) : (fuel i : ℕ) → Mem → Option (ℕ × Mem)
  | 0, _, _ => none
  | fuel + 1, i, m =>
      if m (u32 (src + i)) ≠ 0 then
        strcpyLoop dst src fuel (u32 (i + 1)) (Function.update m (u32 (dst + i)) (m (u32 (src + i))))
      else some (i, m)

def strcpy (m : Mem) (dst src : ℕ) : Option Mem :=
  (strcpyLoop dst src size 0 m).map fun (i, m) => Function.update m (u32 (dst + i)) 0

variable {m m' : Mem} {s d l r : ℕ} {as bs : List UInt8}

theorem u32_u32_add (a b : ℕ) : u32 (u32 a + b) = u32 (a + b) := Nat.mod_add_mod a size b

theorem u32_add_inj {i j : ℕ} (a : ℕ) (hi : i < size) (hj : j < size) (h : u32 (a + i) = u32 (a + j)) : i = j := by
  unfold u32 size at *
  omega

theorem iterate_next (s i : ℕ) : (fun p => u32 (p + 1))^[i] (u32 s) = u32 (s + i) := by
  induction i with
  | zero => rfl
  | succ i ih => rw [Function.iterate_succ_apply', ih, u32_u32_add, Nat.add_assoc]

@[simp] theorem cstr_nil : CStr m s [] ↔ m (u32 s) = 0 := Iff.rfl

theorem cstr_cons {b : UInt8} : CStr m s (b :: bs) ↔ m (u32 s) = b ∧ b ≠ 0 ∧ CStr m (s + 1) bs := by
  unfold CStr
  rw [Terminated.Holds, u32_u32_add]

theorem CStr.unique (h : CStr m s as) (h' : CStr m s bs) : as = bs := Terminated.Holds.unique h h'

theorem CStr.length_lt (h : CStr m s bs) : bs.length < size :=
  Terminated.Holds.length_lt h (u32_lt s) fun _ => u32_lt _

theorem CStr.congr (h : CStr m s bs) (heq : ∀ i ≤ bs.length, m' (u32 (s + i)) = m (u32 (s + i))) : CStr m' s bs :=
  Terminated.Holds.congr h fun i hi => by
    rw [iterate_next]
    exact heq i hi

theorem CStr.nul (h : CStr m s bs) : m (u32 (s + bs.length)) = 0 := by
  have hend := Terminated.Holds.getD h le_rfl
  rw [iterate_next] at hend
  simpa using hend

theorem cstr_iff : CStr m s bs ↔ 0 ∉ bs ∧ ∀ i ≤ bs.length, m (u32 (s + i)) = (bs ++ [0]).getD i 0 := by
  unfold CStr
  rw [Terminated.holds_iff]
  simp only [iterate_next]

/-- Where `strlen` ends there is a newline. -/
theorem strlenLoop_newline {fuel i n : ℕ} (h : strlenLoop m s fuel i = some n) : m (u32 (s + n)) = 0x0A := by
  induction fuel generalizing i with
  | zero => cases h
  | succ fuel ih =>
      rw [strlenLoop] at h
      split_ifs at h with hc
      · exact ih h
      · cases h
        exact not_not.mp hc

/-- The length of no string is what `strlen` returns for it. -/
theorem strlen_ne (h : CStr m s bs) : strlen m s ≠ some bs.length := by
  intro hlen
  have hnewline := strlenLoop_newline hlen
  rw [h.nul] at hnewline
  exact absurd hnewline (by decide)

/-- Nothing was read past index `a` of the one argument or past index `b` of the other. -/
structure Reads.Within (reads : Reads) (a b : ℕ) : Prop where
  l : ∀ i ∈ reads.l, i ≤ a
  r : ∀ i ∈ reads.r, i ≤ b

theorem Reads.Within.ofL {reads : Reads} {a b i : ℕ} (h : reads.Within a b) (hi : i ≤ a) : (reads.ofL i).Within a b := by
  refine ⟨fun j hj => ?_, h.r⟩
  rcases List.mem_append.mp hj with hj | hj
  · exact h.l j hj
  · rwa [List.mem_singleton.mp hj]

theorem Reads.Within.ofR {reads : Reads} {a b i : ℕ} (h : reads.Within a b) (hi : i ≤ b) : (reads.ofR i).Within a b := by
  refine ⟨h.l, fun j hj => ?_⟩
  rcases List.mem_append.mp hj with hj | hj
  · exact h.r j hj
  · rwa [List.mem_singleton.mp hj]

/-- The loop of `strcmp` ends at an index where both strings end exactly if they are the same. -/
theorem strcmpLoop_spec {fuel i a b : ℕ} {reads : Reads} (hl : CStr m (l + i) as) (hr : CStr m (r + i) bs)
    (ha : i + as.length = a) (hb : i + bs.length = b) (hsize : a < size) (hf : as.length < fuel)
    (hreads : reads.Within a b) : ∃ j reads', strcmpLoop m l r fuel i reads = some (j, reads') ∧ reads'.Within a b ∧
      j ≤ a ∧ j ≤ b ∧ ((m (u32 (l + j)) = 0 ∧ m (u32 (r + j)) = 0) ↔ as = bs) := by
  induction fuel generalizing i as bs reads with
  | zero => cases hf
  | succ fuel ih =>
      have hreadL : (reads.ofL i).Within a b := hreads.ofL (by omega)
      have hreadR : (((reads.ofL i).ofL i).ofR i).Within a b := (hreadL.ofL (by omega)).ofR (by omega)
      rw [strcmpLoop]
      cases as with
      | nil =>
          have hzero : m (u32 (l + i)) = 0 := hl
          refine ⟨i, reads.ofL i, if_pos hzero, hreadL, by omega, by omega, ?_⟩
          rw [and_iff_right hzero]
          cases bs with
          | nil => exact iff_of_true hr rfl
          | cons b bs =>
              rw [cstr_cons] at hr
              rw [hr.1]
              exact iff_of_false hr.2.1 (List.cons_ne_nil b bs).symm
      | cons x as =>
          obtain ⟨hx, hx0, hrest⟩ := cstr_cons.mp hl
          rw [if_neg (hx ▸ hx0), hx]
          cases bs with
          | nil =>
              have hzero : m (u32 (r + i)) = 0 := hr
              rw [if_pos (hzero ▸ hx0)]
              refine ⟨i, _, rfl, hreadR, by omega, by omega, ?_⟩
              rw [hx]
              exact iff_of_false (fun h => hx0 h.1) (List.cons_ne_nil x as)
          | cons y bs =>
              obtain ⟨hy, hy0, hrest'⟩ := cstr_cons.mp hr
              rw [hy]
              by_cases hxy : x = y
              · have hi : u32 (i + 1) = i + 1 := u32_of_lt (by rw [List.length_cons] at ha; omega)
                rw [if_neg (not_not.mpr hxy), hi]
                rw [List.length_cons] at ha hb
                obtain ⟨j, reads', hloop, hwithin, hja, hjb, hiff⟩ := ih (i := i + 1) hrest hrest' (by omega) (by omega)
                  (Nat.lt_of_succ_lt_succ hf) hreadR
                refine ⟨j, reads', hloop, hwithin, hja, hjb, hiff.trans ?_⟩
                rw [List.cons.injEq, and_iff_right hxy]
              · rw [if_pos hxy]
                refine ⟨i, _, rfl, hreadR, by omega, by omega, ?_⟩
                rw [hx]
                exact iff_of_false (fun h => hx0 h.1) fun h => hxy (List.cons.inj h).1

/-- `strcmp` ends with 0 exactly for the same strings and reads no byte behind a terminating NUL. -/
theorem strcmp_spec (hl : CStr m l as) (hr : CStr m r bs) :
    ∃ c reads, strcmp m l r = some (c, reads) ∧ (c = 0 ↔ as = bs) ∧ reads.Within as.length bs.length := by
  have hnone : (⟨[], []⟩ : Reads).Within as.length bs.length :=
    ⟨fun _ h => absurd h List.not_mem_nil, fun _ h => absurd h List.not_mem_nil⟩
  obtain ⟨j, reads, hloop, hwithin, hja, hjb, hiff⟩ := strcmpLoop_spec (i := 0) (a := as.length) (b := bs.length)
    hl hr (Nat.zero_add _) (Nat.zero_add _) hl.length_lt hl.length_lt hnone
  rw [strcmp, hloop, Option.map_some]
  dsimp only
  rw [← hiff]
  by_cases hzl : m (u32 (l + j)) = 0
  · by_cases hzr : m (u32 (r + j)) = 0
    · rw [if_pos hzl, if_pos hzr]
      exact ⟨0, _, rfl, iff_of_true rfl ⟨hzl, hzr⟩, (hwithin.ofL hja).ofR hjb⟩
    · rw [if_pos hzl, if_neg hzr]
      exact ⟨1, _, rfl, iff_of_false one_ne_zero fun h => hzr h.2, (hwithin.ofL hja).ofR hjb⟩
  · rw [if_neg hzl]
    exact ⟨1, _, rfl, iff_of_false one_ne_zero fun h => hzl h.1, hwithin.ofL hja⟩

/-- The strings at `d` and `s` have no byte in common. -/
def Apart (d s n : ℕ) : Prop := ∀ i ≤ n, ∀ j ≤ n, u32 (d + i) ≠ u32 (s + j)

/-- `m'` is `m` with the string `bs` and its NUL at `d`. -/
structure Copied (m m' : Mem) (d : ℕ) (bs : List UInt8) : Prop where
  string : CStr m' d bs
  frame : ∀ x, (∀ i ≤ bs.length, x ≠ u32 (d + i)) → m' x = m x

theorem strcpyLoop_spec {fuel i n : ℕ} (h : CStr m (s + i) bs) (hn : i + bs.length = n) (hsize : n < size)
    (hf : bs.length < fuel) (hapart : Apart d s n) :
    ∃ m', strcpyLoop d s fuel i m = some (n, m') ∧
      (∀ x, (∀ j, i ≤ j → j < n → x ≠ u32 (d + j)) → m' x = m x) ∧
      ∀ j (hj : j < bs.length), m' (u32 (d + (i + j))) = bs[j] := by
  induction fuel generalizing i m bs with
  | zero => cases hf
  | succ fuel ih =>
      rw [strcpyLoop]
      cases bs with
      | nil =>
          have hzero : m (u32 (s + i)) = 0 := h
          rw [if_neg (not_not.mpr hzero), ← hn]
          exact ⟨m, rfl, fun _ _ => rfl, fun j hj => absurd hj (Nat.not_lt_zero j)⟩
      | cons b bs =>
          obtain ⟨hb, hb0, hrest⟩ := cstr_cons.mp h
          rw [List.length_cons] at hn
          have hi : u32 (i + 1) = i + 1 := u32_of_lt (by omega)
          have hkeep : CStr (Function.update m (u32 (d + i)) b) (s + i + 1) bs := by
            apply hrest.congr
            intro j hj
            rw [Function.update_of_ne]
            rw [Nat.add_assoc, Nat.add_assoc, Nat.add_comm 1]
            exact (hapart i (by omega) (i + (j + 1)) (by omega)).symm
          obtain ⟨m', hloop, hframe, hbytes⟩ := ih (i := i + 1) hkeep (by omega) (Nat.lt_of_succ_lt_succ hf)
          rw [hb, if_pos hb0, hi]
          refine ⟨m', hloop, fun x hx => ?_, fun j hj => ?_⟩
          · rw [hframe x fun j hij => hx j (by omega), Function.update_of_ne (hx i le_rfl (by omega))]
          · cases j with
            | zero =>
                rw [Nat.add_zero, hframe, Function.update_self]
                · rfl
                · intro j hij hjn heq
                  have hij' := u32_add_inj d (by omega) (by omega) heq
                  omega
            | succ j =>
                have hbyte := hbytes j (Nat.lt_of_succ_lt_succ hj)
                rw [Nat.add_assoc, Nat.add_comm 1] at hbyte
                exact hbyte

/-- `strcpy` writes the string and its NUL, and nothing else. -/
theorem strcpy_spec (h : CStr m s bs) (hapart : Apart d s bs.length) :
    ∃ m', strcpy m d s = some m' ∧ Copied m m' d bs := by
  have hsize := h.length_lt
  obtain ⟨m', hloop, hframe, hbytes⟩ := strcpyLoop_spec (i := 0) h (Nat.zero_add _) hsize hsize hapart
  rw [strcpy, hloop, Option.map_some]
  dsimp only
  refine ⟨_, rfl, cstr_iff.mpr ⟨(cstr_iff.mp h).1, fun i hi => ?_⟩, fun x hx => ?_⟩
  · rcases hi.lt_or_eq with hlt | rfl
    · have hne : u32 (d + i) ≠ u32 (d + bs.length) := fun heq => hlt.ne (u32_add_inj d (hi.trans_lt hsize) hsize heq)
      have hbyte := hbytes i hlt
      rw [Nat.zero_add] at hbyte
      rw [Function.update_of_ne hne, hbyte, List.getD_append _ _ _ _ hlt, List.getD_eq_getElem _ _ hlt]
    · rw [Function.update_self]
      simp
  · rw [Function.update_of_ne (hx _ le_rfl)]
    exact hframe x fun j _ hj => hx j hj.le

/-- What `strcpy` and then `strcmp` make of a string. -/
def CopyAgrees (m : Mem) (d s : ℕ) (bs : List UInt8) : Prop :=
  ∃ m', strcpy m d s = some m' ∧ Copied m m' d bs ∧ (strcmp m' d s).map Prod.fst = some 0

/-- `strcmp` ends with 0 exactly for the same strings and reads no byte behind a terminating NUL. -/
def CompareAgrees (m : Mem) : Prop :=
  ∀ a b as bs, CStr m a as → CStr m b bs →
    ∃ c reads, strcmp m a b = some (c, reads) ∧ (c = 0 ↔ as = bs) ∧ reads.Within as.length bs.length

/-- The three functions agree on what ends the string `bs` at `s`, of which `d` gets a copy. -/
structure HelpersAgree (m : Mem) (d s : ℕ) (bs : List UInt8) : Prop where
  strlen : strlen m s = some bs.length
  copy : CopyAgrees m d s bs
  copyLength : ∀ m', strcpy m d s = some m' → CString.strlen m' d = CString.strlen m' s
  compare : CompareAgrees m

/-- They agree on no string: `strlen` never returns the length. The other two always do what they should. -/
theorem helpers_never_agree (h : CStr m s bs) (hapart : Apart d s bs.length) :
    ¬ HelpersAgree m d s bs ∧ CopyAgrees m d s bs ∧ CompareAgrees m := by
  have hcompare (m : Mem) : CompareAgrees m := fun _ _ _ _ ha hb => strcmp_spec ha hb
  refine ⟨fun hagree => strlen_ne h hagree.strlen, ?_, hcompare m⟩
  obtain ⟨m', hcopy, hcopied⟩ := strcpy_spec h hapart
  have hsrc : CStr m' s bs := h.congr fun i hi => hcopied.frame _ fun j hj => (hapart j hj i hi).symm
  obtain ⟨c, reads, hcmp, hzero, -⟩ := strcmp_spec hcopied.string hsrc
  refine ⟨m', hcopy, hcopied, ?_⟩
  rw [hcmp, hzero.mpr rfl]
  rfl

/-- The string `a`, a newline behind its NUL and zeros after that. -/
def newlineBehind : Mem := put (fun _ => 0) 0 [97, 0, 10]

theorem newlineBehind_string : CStr newlineBehind 0 [97] := ⟨rfl, by decide, rfl⟩

theorem helpers_differ_at_newline :
    ¬ HelpersAgree newlineBehind 8 0 [97] ∧ CopyAgrees newlineBehind 8 0 [97] ∧ CompareAgrees newlineBehind :=
  helpers_never_agree newlineBehind_string (by unfold Apart; decide)

/-- `strlen` returns 2 for a string of one character. -/
theorem strlen_past_nul : strlen newlineBehind 0 = some 2 ∧
    ¬ ∀ m d s bs, CStr m s bs → Apart d s bs.length → HelpersAgree m d s bs := by
  have hlen : strlen newlineBehind 0 = some 2 := by decide +kernel
  refine ⟨hlen, fun h => ?_⟩
  have hagree := h newlineBehind 8 0 [97] newlineBehind_string (by unfold Apart; decide)
  exact absurd (hlen.symm.trans hagree.strlen) (by decide)

end Slos.CString
