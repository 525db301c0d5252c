import Slos.CString
import Slos.Numeral

/-!
# Formatted output

`printk` of `printk.c`. The arguments behind the format are a stream of words, of which the conversions take one after
another; `pch` is counted from the start of the format. Beside the bytes given to `poll_out`, a run keeps how many arguments
it has taken and which bytes of the format it has read.
-/

namespace Slos.Printk
open Word ByteMemory CString Numeral

def numStrMax : ℕ := 16

def hexChar (uHex : ℕ) : UInt8 := if uHex < 10 then UInt8.ofNat (uHex + 48) else UInt8.ofNat (uHex - 10 + 65)

/-- The digits in the order in which they are put into `num_str`. -/
def hexLoop : (fuel uInt : ℕ) → List UInt8 → List UInt8
  | 0, _, numStr => numStr
  | fuel + 1, uInt, numStr =>
      let numStr := numStr ++ [hexChar (uInt &&& 0xF)]
      let uInt := uInt >>> 4
      if 0 < uInt then hexLoop fuel uInt numStr else numStr

/-- The remainder is that of C, negative for a negative number, and the loop goes on for a positive quotient only. -/
def decLoop : (fuel : ℕ) → (sInt : ℤ) → List UInt8 → List UInt8
  | 0, _, numStr => numStr
  | fuel + 1, sInt, numStr =>
      let numStr := numStr ++ [UInt8.ofNat (sInt.tmod 10 + 48).toNat]
      let sInt := sInt.tdiv 10
      if 0 < sInt then decLoop fuel sInt numStr else numStr

/-- `num_str` from its last byte to its first. -/
def backwards (numStr : List UInt8) : List UInt8 :=
  (List.range numStr.length).map fun i => numStr.getD (numStr.length - 1 - i) 0

/-- The bytes up to the NUL; none if there is no NUL anywhere. -/
def pstrBytes (m : Mem) (pstr : ℕ) : Option (List UInt8) :=
  Terminated.collect (fun p => u32 (p + 1)) 0 m size (u32 pstr)

structure Printing where
  out : List UInt8
  argp : ℕ
  reads : List ℕ
  deriving DecidableEq

def Printing.read (s : Printing) (i : ℕ) : Printing := { s with reads := s.reads ++ [i] }

def Printing.pollOut (s : Printing) (bs : List UInt8) : Printing := { s with out := s.out ++ bs }

def Printing.vaArg (s : Printing) : Printing := { s with argp := s.argp + 1 }

/-- The `switch` on the byte behind a `%`. -/
def printkCase (m : Mem) (args : ℕ → ℕ) (ch : UInt8) (s : Printing) : Option Printing :=
  let arg := args s.argp
  if ch = 'x'.toUInt8 then some (s.vaArg.pollOut (backwards (hexLoop numStrMax (u32 arg) [])))
  else if ch = 'd'.toUInt8 then some (s.vaArg.pollOut (backwards (decLoop numStrMax (int32 arg) [])))
  else if ch = 's'.toUInt8 then (pstrBytes m arg).map s.vaArg.pollOut
  else some s

def printkLoop (m : Mem) (args : ℕ → ℕ) (fmt : ℕ) : (fuel pch : ℕ) → Printing → Option Printing
  | 0, _, _ => none
  | fuel + 1, pch, s =>
      let s := s.read pch
      if m (u32 (fmt + pch)) = 0 then some s
      else if m (u32 (fmt + pch)) ≠ '%'.toUInt8 then
        printkLoop m args fmt fuel (pch + 1) (s.pollOut [m (u32 (fmt + pch))])
      else
        let pch := pch + 1
        (printkCase m args (m (u32 (fmt + pch))) (s.read pch)).bind (printkLoop m args fmt fuel (pch + 1))

def printk (m : Mem) (args : ℕ → ℕ) (fmt : ℕ) : Option Printing := printkLoop m args fmt size 0 ⟨[], 0, []⟩

theorem backwards_eq (bs : List UInt8) : backwards bs = bs.reverse := by
  unfold backwards
  apply List.ext_getElem
  · rw [List.length_map, List.length_range, List.length_reverse]
  · intro i hi hi'
    rw [List.length_reverse] at hi'
    rw [List.getElem_map, List.getElem_range, List.getElem_reverse, List.getD_eq_getElem _ _ (by omega)]

theorem hexLoop_eq {n : ℕ} (hn : n < size) : hexLoop numStrMax n [] = (numeral 16 n).map hexChar := by
  have hstep (fuel n : ℕ) (ds : List UInt8) : hexLoop (fuel + 1) n ds =
      if 0 < n / 16 then hexLoop fuel (n / 16) (ds ++ [hexChar (n % 16)]) else ds ++ [hexChar (n % 16)] := by
    have hlow : n &&& 0xF = n % 16 := Nat.and_two_pow_sub_one_eq_mod n 4
    have hshift : n >>> 4 = n / 16 := Nat.shiftRight_eq_div_pow n 4
    rw [hexLoop, hlow, hshift]
  exact append_numeral (by decide) hexLoop hstep (by decide) (hn.trans (by decide)) []

def decChar (d : ℕ) : UInt8 := UInt8.ofNat (d + 48)

theorem decLoop_natCast {n : ℕ} (hn : n < size) : decLoop numStrMax n [] = (numeral 10 n).map decChar := by
  have hstep (fuel n : ℕ) (ds : List UInt8) : decLoop (fuel + 1) n ds =
      if 0 < n / 10 then decLoop fuel (n / 10 : ℕ) (ds ++ [decChar (n % 10)]) else ds ++ [decChar (n % 10)] := by
    have hrem : ((n : ℤ).tmod 10 + 48).toNat = n % 10 + 48 := rfl
    have hquot : (n : ℤ).tdiv 10 = (n / 10 : ℕ) := (Int.ofNat_tdiv n 10).symm
    rw [decLoop, hrem, hquot]
    simp only [Int.natCast_pos]
    rfl
  exact append_numeral (by decide) (fun fuel n ds => decLoop fuel n ds) hstep (by decide) (hn.trans (by decide)) []

theorem decLoop_neg {i : ℤ} (hi : i < 0) : decLoop numStrMax i [] = [UInt8.ofNat (i.tmod 10 + 48).toNat] := by
  have hquot : i.tdiv 10 ≤ 0 := by
    rw [← neg_neg i, Int.neg_tdiv]
    exact neg_nonpos.mpr (Int.tdiv_nonneg (by omega) (by decide))
  rw [numStrMax, decLoop, if_neg hquot.not_gt]
  rfl

/-- A part of a format. -/
inductive Item
  | byte (b : UInt8)
  | hex
  | dec
  | str
  | unknown (b : UInt8)
  | final
  deriving DecidableEq

def conversion (b : UInt8) : Item :=
  if b = 'x'.toUInt8 then .hex else if b = 'd'.toUInt8 then .dec else if b = 's'.toUInt8 then .str else .unknown b

/-- The parts of a format; a `%` with nothing behind it is the final one. -/
def items : List UInt8 → List Item
  | [] => []
  | b :: f =>
      if b = '%'.toUInt8 then
        match f with
        | [] => [.final]
        | c :: f => conversion c :: items f
      else .byte b :: items f

inductive Arg
  | uint32 (u : ℕ)
  | int32 (i : ℤ)
  | string (bs : List UInt8)

/-- From word `k` on the stream passes the arguments for the conversions, in their order. -/
inductive Passed (m : Mem) (args : ℕ → ℕ) : ℕ → List Item → List Arg → Prop
  | nil (k : ℕ) : Passed m args k [] []
  | byte {k : ℕ} {fs : List Item} {as : List Arg} (b : UInt8) (h : Passed m args k fs as) :
      Passed m args k (.byte b :: fs) as
  | hex {k : ℕ} {fs : List Item} {as : List Arg} (h : Passed m args (k + 1) fs as) :
      Passed m args k (.hex :: fs) (.uint32 (u32 (args k)) :: as)
  | dec {k : ℕ} {fs : List Item} {as : List Arg} (h : Passed m args (k + 1) fs as) :
      Passed m args k (.dec :: fs) (.int32 (int32 (args k)) :: as)
  | str {k : ℕ} {fs : List Item} {as : List Arg} {bs : List UInt8} (hbs : CStr m (args k) bs)
      (h : Passed m args (k + 1) fs as) : Passed m args k (.str :: fs) (.string bs :: as)
  | unknown {k : ℕ} {fs : List Item} {as : List Arg} (b : UInt8) (h : Passed m args k fs as) :
      Passed m args k (.unknown b :: fs) as
  | final {k : ℕ} {fs : List Item} {as : List Arg} (h : Passed m args k fs as) : Passed m args k (.final :: fs) as

/-- What is asked for: the shortest upper-case hexadecimal numeral, the signed decimal numeral, the string. -/
def Arg.text : Arg → List UInt8
  | .uint32 u => ((numeral 16 u).map hexChar).reverse
  | .int32 i => (if i < 0 then ['-'.toUInt8] else []) ++ ((numeral 10 i.natAbs).map decChar).reverse
  | .string bs => bs

/-- What `printk` makes of an argument. -/
def Arg.printed : Arg → List UInt8
  | .uint32 u => backwards (hexLoop numStrMax u [])
  | .int32 i => backwards (decLoop numStrMax i [])
  | .string bs => bs

/-- The format with the texts of its arguments in their places; what an unknown conversion stands for is `unknown`. -/
def render (unknown : UInt8 → List UInt8) (text : Arg → List UInt8) : List Item → List Arg → List UInt8
  | [], _ => []
  | .byte b :: fs, as => b :: render unknown text fs as
  | .unknown b :: fs, as => unknown b ++ render unknown text fs as
  | .final :: fs, as => render unknown text fs as
  | .hex :: fs, a :: as | .dec :: fs, a :: as | .str :: fs, a :: as => text a ++ render unknown text fs as
  | .hex :: _, [] | .dec :: _, [] | .str :: _, [] => []

variable {m : Mem} {args : ℕ → ℕ} {fmt k : ℕ} {f : List UInt8} {fs : List Item} {as : List Arg}
  {unknown : UInt8 → List UInt8} {s s' : Printing}

def Arg.Fits : Arg → Prop
  | .uint32 u => u < size
  | .int32 i => i.natAbs < size
  | .string _ => True

def Arg.Nonneg : Arg → Prop
  | .int32 i => 0 ≤ i
  | _ => True

/-- Nothing is to be printed for the part if it is an unknown conversion. -/
def Item.Silent (unknown : UInt8 → List UInt8) : Item → Prop
  | .unknown b => unknown b = []
  | .byte _ | .hex | .dec | .str | .final => True

theorem int32_natAbs_lt (n : ℕ) : (int32 n).natAbs < size := by
  have hmod := Nat.mod_lt n (show 0 < size by decide)
  unfold int32 size at *
  split_ifs <;> omega

theorem Passed.fits (h : Passed m args k fs as) : ∀ a ∈ as, a.Fits := by
  induction h with
  | nil k => exact fun a ha => absurd ha List.not_mem_nil
  | byte b h ih | unknown b h ih | final h ih => exact ih
  | hex h ih => exact List.forall_mem_cons.mpr ⟨u32_lt _, ih⟩
  | dec h ih => exact List.forall_mem_cons.mpr ⟨int32_natAbs_lt _, ih⟩
  | str hbs h ih => exact List.forall_mem_cons.mpr ⟨trivial, ih⟩

theorem printed_eq_text {a : Arg} (h : a.Fits) (hneg : a.Nonneg) : a.printed = a.text := by
  cases a with
  | uint32 u => rw [Arg.printed, Arg.text, backwards_eq, hexLoop_eq h]
  | int32 i =>
      obtain ⟨n, rfl⟩ := Int.eq_ofNat_of_zero_le hneg
      have hn : n < size := h
      rw [Arg.printed, Arg.text, backwards_eq, decLoop_natCast hn, if_neg (not_lt.mpr hneg)]
      rfl
  | string bs => rfl

/-- For a negative number one byte is printed, and its numeral has two at least. -/
theorem printed_length_lt {a : Arg} (hneg : ¬ a.Nonneg) : a.printed.length < a.text.length := by
  cases a with
  | uint32 u | string bs => exact absurd trivial hneg
  | int32 i =>
      have hi : i < 0 := not_le.mp hneg
      have hpos := List.length_pos_of_ne_nil (numeral_ne_nil (b := 10) (by decide) i.natAbs)
      rw [Arg.printed, Arg.text, backwards_eq, List.length_reverse, decLoop_neg hi, if_pos hi, List.length_append,
        List.length_reverse, List.length_map, List.length_singleton, List.length_singleton]
      omega

theorem printed_eq_text_iff {a : Arg} (h : a.Fits) : a.printed = a.text ↔ a.Nonneg := by
  refine ⟨fun heq => ?_, printed_eq_text h⟩
  by_contra hneg
  exact (printed_length_lt hneg).ne (congrArg List.length heq)

theorem printed_length_le {a : Arg} (h : a.Fits) : a.printed.length ≤ a.text.length := by
  by_cases hneg : a.Nonneg
  · rw [printed_eq_text h hneg]
  · exact (printed_length_lt hneg).le

theorem render_length_le (h : Passed m args k fs as) :
    (render (fun _ => []) Arg.printed fs as).length ≤ (render unknown Arg.text fs as).length := by
  have hfits := h.fits
  induction h with
  | nil k => exact le_rfl
  | byte b h ih => exact Nat.succ_le_succ (ih hfits)
  | unknown b h ih =>
      rw [render, render, List.length_append, List.length_append]
      exact Nat.add_le_add (Nat.zero_le _) (ih hfits)
  | final h ih => exact ih hfits
  | hex h ih | dec h ih | str hbs h ih =>
      rw [List.forall_mem_cons] at hfits
      rw [render, render, List.length_append, List.length_append]
      exact Nat.add_le_add (printed_length_le hfits.1) (ih hfits.2)

theorem append_eq_append_iff_of_length_le {α : Type*} {as bs cs ds : List α} (hac : as.length ≤ cs.length)
    (hbd : bs.length ≤ ds.length) : as ++ bs = cs ++ ds ↔ as = cs ∧ bs = ds := by
  constructor
  · intro heq
    have hlen := congrArg List.length heq
    rw [List.length_append, List.length_append] at hlen
    exact List.append_inj heq (by omega)
  · rintro ⟨rfl, rfl⟩
    rfl

theorem render_eq_iff (h : Passed m args k fs as) :
    render (fun _ => []) Arg.printed fs as = render unknown Arg.text fs as ↔
      (∀ a ∈ as, a.Nonneg) ∧ ∀ c ∈ fs, c.Silent unknown := by
  have hfits := h.fits
  induction h with
  | nil k => simp [render]
  | byte b h ih =>
      have hrest : _ ↔ _ := ih hfits
      rw [render, render, List.cons.injEq, and_iff_right rfl, hrest, List.forall_mem_cons, Item.Silent, true_and]
  | unknown b h ih =>
      have hrest : _ ↔ _ := ih hfits
      rw [render, render, append_eq_append_iff_of_length_le (Nat.zero_le _) (render_length_le h), hrest,
        List.forall_mem_cons, Item.Silent, eq_comm]
      tauto
  | final h ih =>
      have hrest : _ ↔ _ := ih hfits
      rw [render, render, hrest, List.forall_mem_cons, Item.Silent, true_and]
  | hex h ih | dec h ih | str hbs h ih =>
      rw [List.forall_mem_cons] at hfits
      have hrest : _ ↔ _ := ih hfits.2
      rw [render, render, append_eq_append_iff_of_length_le (printed_length_le hfits.1) (render_length_le h),
        hrest, printed_eq_text_iff hfits.1, List.forall_mem_cons, List.forall_mem_cons, Item.Silent, true_and, and_assoc]

/-- The case of a conversion prints the argument passed for it and takes that one. -/
theorem printkCase_spec {c : UInt8} (h : Passed m args s.argp (conversion c :: fs) as) :
    ∃ s' as', printkCase m args c s = some s' ∧ Passed m args s'.argp fs as' ∧ s'.reads = s.reads ∧
      s'.argp + as'.length = s.argp + as.length ∧
      s'.out ++ render (fun _ => []) Arg.printed fs as' =
        s.out ++ render (fun _ => []) Arg.printed (conversion c :: fs) as := by
  unfold conversion at h ⊢
  unfold printkCase
  split_ifs at h ⊢ with hx hd hs
  · cases h with
    | hex h =>
        refine ⟨_, _, rfl, h, rfl, Nat.add_right_comm .., ?_⟩
        rw [render, ← List.append_assoc]
        rfl
  · cases h with
    | dec h =>
        refine ⟨_, _, rfl, h, rfl, Nat.add_right_comm .., ?_⟩
        rw [render, ← List.append_assoc]
        rfl
  · cases h with
    | str hbs h =>
        have hpstr : pstrBytes m (args s.argp) = some _ := Terminated.collect_eq hbs hbs.length_lt
        refine ⟨_, _, congrArg (Option.map s.vaArg.pollOut) hpstr, h, rfl, Nat.add_right_comm .., ?_⟩
        rw [render, ← List.append_assoc]
        rfl
  · cases h with
    | unknown b h => exact ⟨s, as, rfl, h, rfl, rfl, rfl⟩

theorem printkCase_reads {c : UInt8} (h : printkCase m args c s = some s') : s'.reads = s.reads := by
  unfold printkCase at h
  split_ifs at h
  · cases h
    rfl
  · cases h
    rfl
  · obtain ⟨bs, -, rfl⟩ := Option.map_eq_some_iff.mp h
    rfl
  · cases h
    rfl

/-- A byte that a run has read stays read, and the byte where it goes on is read. -/
theorem printkLoop_reads {fuel pch : ℕ} (h : printkLoop m args fmt fuel pch s = some s') {j : ℕ}
    (hj : j ∈ s.reads ∨ j = pch) : j ∈ s'.reads := by
  induction fuel generalizing pch s with
  | zero => cases h
  | succ fuel ih =>
      have hread : j ∈ (s.read pch).reads := by
        rw [Printing.read, List.mem_append, List.mem_singleton]
        exact hj
      rw [printkLoop] at h
      split_ifs at h with hnul hbyte
      · cases h
        exact hread
      · exact ih h (Or.inl hread)
      · obtain ⟨t, ht, h⟩ := Option.bind_eq_some_iff.mp h
        apply ih h
        rw [printkCase_reads ht]
        exact Or.inl (List.mem_append_left _ hread)

theorem items_percent (c : UInt8) (f : List UInt8) : items ('%'.toUInt8 :: c :: f) = conversion c :: items f :=
  if_pos rfl

theorem items_byte {b : UInt8} (hb : b ≠ '%'.toUInt8) (f : List UInt8) : items (b :: f) = .byte b :: items f := by
  cases f with
  | nil | cons c f => exact if_neg hb

theorem conversion_ne_final (c : UInt8) : conversion c ≠ .final := by
  unfold conversion
  split_ifs <;> exact Item.noConfusion

theorem printkLoop_byte {b : UInt8} {fuel pch : ℕ} (hb : b ≠ '%'.toUInt8) (hf : CStr m (fmt + pch) (b :: f)) :
    printkLoop m args fmt (fuel + 1) pch s = printkLoop m args fmt fuel (pch + 1) ((s.read pch).pollOut [b]) := by
  obtain ⟨hbyte, hnul, -⟩ := cstr_cons.mp hf
  rw [printkLoop, hbyte, if_neg hnul, if_pos hb]

theorem printkLoop_percent {c : UInt8} {fuel pch : ℕ} (hpercent : m (u32 (fmt + pch)) = '%'.toUInt8)
    (hc : m (u32 (fmt + (pch + 1))) = c) : printkLoop m args fmt (fuel + 1) pch s =
      (printkCase m args c ((s.read pch).read (pch + 1))).bind (printkLoop m args fmt fuel (pch + 2)) := by
  rw [printkLoop, hpercent, if_neg (by decide), if_neg (not_not.mpr rfl), ← hc]

/-- A format without a final `%` is printed item by item, and read up to its NUL. -/
theorem printkLoop_spec {fuel pch n : ℕ} (hf : CStr m (fmt + pch) f) (has : Passed m args s.argp (items f) as)
    (hfinal : .final ∉ items f) (hfuel : f.length < fuel) (hreads : ∀ j ∈ s.reads, j ≤ n) (hn : pch + f.length = n) :
    ∃ s', printkLoop m args fmt fuel pch s = some s' ∧
      s'.out = s.out ++ render (fun _ => []) Arg.printed (items f) as ∧ s'.argp = s.argp + as.length ∧
      ∀ j ∈ s'.reads, j ≤ n := by
  have hread {t : Printing} {i : ℕ} (ht : ∀ j ∈ t.reads, j ≤ n) (hi : i ≤ n) : ∀ j ∈ (t.read i).reads, j ≤ n := by
    intro j hj
    rcases List.mem_append.mp hj with hj | hj
    · exact ht j hj
    · rwa [List.mem_singleton.mp hj]
  obtain ⟨fuel, rfl⟩ := Nat.exists_eq_add_one_of_ne_zero (Nat.ne_zero_of_lt hfuel)
  induction f using items.induct generalizing pch s as fuel with
  | case1 =>
      cases has
      refine ⟨s.read pch, ?_, (List.append_nil _).symm, rfl, hread hreads (by omega)⟩
      rw [printkLoop, if_pos (cstr_nil.mp hf)]
  | case2 => exact absurd (List.mem_singleton_self _) hfinal
  | case3 c f ih =>
      obtain ⟨hpercent, -, hrest⟩ := cstr_cons.mp hf
      obtain ⟨hc, -, hrest⟩ := cstr_cons.mp hrest
      rw [List.length_cons, List.length_cons] at hfuel hn
      rw [items_percent] at has hfinal ⊢
      obtain ⟨t, as', hcase, has', hreads', hargp, hout⟩ :=
        printkCase_spec (s := (s.read pch).read (pch + 1)) has
      obtain ⟨fuel, rfl⟩ := Nat.exists_eq_add_one_of_ne_zero (Nat.ne_zero_of_lt (Nat.lt_of_succ_lt_succ hfuel))
      obtain ⟨s', hloop, hout', hargp', hreads''⟩ := ih (s := t) (show CStr m (fmt + (pch + 2)) f from hrest) has'
        (fun h => hfinal (List.mem_cons_of_mem _ h)) (by rw [hreads']; exact hread (hread hreads (by omega)) (by omega))
        (by omega) fuel (by omega)
      refine ⟨s', ?_, ?_, ?_, hreads''⟩
      · rw [printkLoop_percent hpercent hc, hcase]
        exact hloop
      · rw [hout', hout]
        rfl
      · rw [hargp', hargp]
        rfl
  | case4 b f hb ih =>
      obtain ⟨-, -, hrest⟩ := cstr_cons.mp hf
      rw [List.length_cons] at hfuel hn
      rw [items_byte hb] at has hfinal ⊢
      cases has with
      | byte b has =>
          obtain ⟨fuel, rfl⟩ := Nat.exists_eq_add_one_of_ne_zero (Nat.ne_zero_of_lt (Nat.lt_of_succ_lt_succ hfuel))
          obtain ⟨s', hloop, hout, hargp, hreads'⟩ := ih (s := (s.read pch).pollOut [b])
            (show CStr m (fmt + (pch + 1)) f from hrest) has
            (fun h => hfinal (List.mem_cons_of_mem _ h)) (hread hreads (by omega)) (by omega) fuel (by omega)
          refine ⟨s', ?_, ?_, hargp, hreads'⟩
          · rw [printkLoop_byte hb hf]
            exact hloop
          · rw [hout, render, Printing.pollOut, List.append_assoc]
            rfl

/-- Behind a final `%` the loop goes on past the NUL of the format. -/
theorem printkLoop_final {fuel pch : ℕ} (hf : CStr m (fmt + pch) f) (hfinal : .final ∈ items f)
    (h : printkLoop m args fmt fuel pch s = some s') : pch + f.length + 1 ∈ s'.reads := by
  induction f using items.induct generalizing pch s fuel with
  | case1 => exact absurd hfinal List.not_mem_nil
  | case2 =>
      cases fuel with
      | zero => cases h
      | succ fuel =>
          obtain ⟨hpercent, -, hrest⟩ := cstr_cons.mp hf
          rw [printkLoop_percent hpercent (cstr_nil.mp hrest)] at h
          exact printkLoop_reads h (Or.inr rfl)
  | case3 c f ih =>
      cases fuel with
      | zero => cases h
      | succ fuel =>
          obtain ⟨hpercent, -, hrest⟩ := cstr_cons.mp hf
          obtain ⟨hc, -, hrest⟩ := cstr_cons.mp hrest
          rw [printkLoop_percent hpercent hc] at h
          obtain ⟨t, -, h⟩ := Option.bind_eq_some_iff.mp h
          rw [items_percent] at hfinal
          have hend := ih (show CStr m (fmt + (pch + 2)) f from hrest)
            ((List.mem_cons.mp hfinal).resolve_left (conversion_ne_final c).symm) h
          rwa [Nat.add_right_comm pch 2, Nat.add_assoc pch] at hend
  | case4 b f hb ih =>
      cases fuel with
      | zero => cases h
      | succ fuel =>
          obtain ⟨-, -, hrest⟩ := cstr_cons.mp hf
          rw [printkLoop_byte hb hf] at h
          rw [items_byte hb] at hfinal
          have hend := ih (show CStr m (fmt + (pch + 1)) f from hrest)
            ((List.mem_cons.mp hfinal).resolve_left Item.noConfusion) h
          rwa [Nat.add_right_comm pch 1, Nat.add_assoc pch] at hend

/-- The format printed with its arguments, one of them taken for each conversion, and no byte read behind the NUL. -/
structure Rendered (unknown : UInt8 → List UInt8) (f : List UInt8) (as : List Arg) (s : Printing) : Prop where
  out : s.out = render unknown Arg.text (items f) as
  argp : s.argp = as.length
  reads : ∀ j ∈ s.reads, j ≤ f.length

/-- Whatever an unknown conversion stands for. -/
theorem rendered_iff (hf : CStr m fmt f) (has : Passed m args 0 (items f) as) :
    (∃ s, printk m args fmt = some s ∧ Rendered unknown f as s) ↔
      .final ∉ items f ∧ (∀ a ∈ as, a.Nonneg) ∧ ∀ c ∈ items f, c.Silent unknown := by
  by_cases hfinal : .final ∈ items f
  · refine iff_of_false ?_ fun h => h.1 hfinal
    rintro ⟨s, hs, hlaw⟩
    have hpast := hlaw.reads _ (printkLoop_final (show CStr m (fmt + 0) f from hf) hfinal hs)
    omega
  · have hfmt : CStr m (fmt + 0) f := hf
    obtain ⟨s, hs, hout, hargp, hreads⟩ := printkLoop_spec (s := ⟨[], 0, []⟩) hfmt has hfinal hf.length_lt
      (fun _ h => absurd h List.not_mem_nil) (Nat.zero_add _)
    rw [List.nil_append] at hout
    rw [Nat.zero_add] at hargp
    rw [and_iff_right hfinal, ← render_eq_iff has, ← hout]
    constructor
    · rintro ⟨s', hs', hlaw⟩
      cases hs.symm.trans hs'
      exact hlaw.out
    · intro heq
      exact ⟨s, hs, heq, hargp, hreads⟩

def lineFormat : List UInt8 := ['%', 's', ' ', 'a', 't', ' ', '%', 'x', ':', ' ', '%', 'd', '.'].map Char.toUInt8

def lineName : List UInt8 := ['t', 'i', 'm', 'e', 'r'].map Char.toUInt8

/-- The format, and a string at address 64. -/
def lineMem : Mem := put (ofBytes lineFormat) 64 lineName

def lineArgs : ℕ → ℕ
  | 0 => 64
  | 1 => 0xF8F00600
  | _ => 125

theorem items_lineFormat : items lineFormat = .str :: [' ', 'a', 't', ' '].map (.byte ∘ Char.toUInt8) ++
    .hex :: [':', ' '].map (.byte ∘ Char.toUInt8) ++ [.dec, .byte '.'.toUInt8] := by
  decide +kernel

theorem line_passed :
    Passed lineMem lineArgs 0 (items lineFormat) [.string lineName, .uint32 0xF8F00600, .int32 125] := by
  rw [items_lineFormat]
  have hname : CStr lineMem 64 lineName := cstr_iff.mpr (by decide +kernel)
  exact .str hname (.byte _ (.byte _ (.byte _ (.byte _ (.hex (.byte _ (.byte _ (.dec (.byte _ (.nil 3))))))))))

theorem rendered_line : ∃ s, printk lineMem lineArgs 0 = some s ∧
    Rendered (fun _ => []) lineFormat [.string lineName, .uint32 0xF8F00600, .int32 125] s := by
  have hformat : CStr lineMem 0 lineFormat := cstr_iff.mpr (by decide +kernel)
  apply (rendered_iff hformat line_passed).mpr
  rw [items_lineFormat]
  refine ⟨by decide, ?_, ?_⟩
  · simp [Arg.Nonneg]
  · simp [Item.Silent]

/-- The format `%d` and the word of -5. -/
def minusFive : Mem := ofBytes ['%'.toUInt8, 'd'.toUInt8]

theorem minusFive_format : CStr minusFive 0 ['%'.toUInt8, 'd'.toUInt8] := ⟨rfl, by decide, rfl, by decide, rfl⟩

theorem minusFive_passed :
    Passed minusFive (fun _ => 4294967291) 0 (items ['%'.toUInt8, 'd'.toUInt8]) [.int32 (-5)] :=
  .dec (.nil 1)

/-- For -5 `printk` emits a plus sign. -/
theorem printk_minusFive : printk minusFive (fun _ => 4294967291) 0 = some ⟨['+'.toUInt8], 1, [0, 1, 2]⟩ ∧
    ¬ ∀ m args fmt f as, CStr m fmt f → Passed m args 0 (items f) as →
      ∃ s, printk m args fmt = some s ∧ Rendered (fun _ => []) f as s := by
  have hrun : printk minusFive (fun _ => 4294967291) 0 = some ⟨['+'.toUInt8], 1, [0, 1, 2]⟩ := by decide +kernel
  refine ⟨hrun, fun h => ?_⟩
  obtain ⟨s, hs, hlaw⟩ := h minusFive (fun _ => 4294967291) 0 _ _ minusFive_format minusFive_passed
  cases hrun.symm.trans hs
  exact absurd hlaw.out (by decide)

end Slos.Printk
