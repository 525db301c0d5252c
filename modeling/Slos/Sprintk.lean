import Slos.Printk

/-!
# Formatted output into a buffer

`sprintk` of `printk.c`, for a buffer that overlaps neither the format nor the strings. It knows `%x` and `%s`, and writes a
NUL behind a string only: the buffer ends with one if the format ends with `%s`, or if one was there before.
-/

namespace Slos.Sprintk
open Word ByteMemory CString Numeral Printk

structure Sprinting where
  buf : Mem
  i : ℕ
  argp : ℕ

/-- `buf[i++] = b`. -/
def Sprinting.store (s : Sprinting) (b : UInt8) : Sprinting :=
  { s with buf := Function.update s.buf s.i b, i := u32 (s.i + 1) }

def Sprinting.storeAll (s : Sprinting) (bs : List UInt8) : Sprinting := bs.foldl Sprinting.store s

def Sprinting.vaArg (s : Sprinting) : Sprinting := { s with argp := s.argp + 1 }

/-- `buf[i] = '\0'`. -/
def Sprinting.nul (s : Sprinting) : Sprinting := { s with buf := Function.update s.buf s.i 0 }

def sprintkCase (m : Mem) (args : ℕ → ℕ) (ch : UInt8) (s : Sprinting) : Option Sprinting :=
  let arg := args s.argp
  if ch = 'x'.toUInt8 then some (s.vaArg.storeAll (backwards (hexLoop numStrMax (u32 arg) [])))
  else if ch = 's'.toUInt8 then (pstrBytes m arg).map fun bs => (s.vaArg.storeAll bs).nul
  else some s

def sprintkLoop (m : Mem) (args : ℕ → ℕ) (fmt : ℕ) : (fuel pch : ℕ) → Sprinting → Option Sprinting
  | 0, _, _ => none
  | fuel + 1, pch, s =>
      if m (u32 (fmt + pch)) = 0 then some s
      else if m (u32 (fmt + pch)) ≠ '%'.toUInt8 then
        sprintkLoop m args fmt fuel (pch + 1) (s.store (m (u32 (fmt + pch))))
      else
        let pch := pch + 1
        (sprintkCase m args (m (u32 (fmt + pch))) s).bind (sprintkLoop m args fmt fuel (pch + 1))

def sprintk (m : Mem) (args : ℕ → ℕ) (buf : Mem) (fmt : ℕ) : Option Mem :=
  (sprintkLoop m args fmt size 0 ⟨buf, 0, 0⟩).map Sprinting.buf

variable {m buf : Mem} {args : ℕ → ℕ} {fmt k : ℕ} {f : List UInt8} {fs : List Item} {as : List Arg} {s : Sprinting}

theorem put_singleton (m : Mem) (a : ℕ) (b : UInt8) : put m a [b] = Function.update m a b := by
  funext x
  rcases lt_trichotomy x a with h | rfl | h
  · rw [put_of_lt h, Function.update_of_ne h.ne]
  · rw [Function.update_self]
    exact put_add (i := 0)
  · rw [put_of_ge (by rwa [List.length_singleton]), Function.update_of_ne h.ne']

theorem storeAll_eq {bs : List UInt8} (h : s.i + bs.length < size) :
    s.storeAll bs = { s with buf := put s.buf s.i bs, i := s.i + bs.length } := by
  induction bs generalizing s with
  | nil =>
      rw [put_nil]
      rfl
  | cons b bs ih =>
      rw [List.length_cons] at h
      have hi : u32 (s.i + 1) = s.i + 1 := u32_of_lt (by omega)
      have hsplit : put s.buf s.i (b :: bs) = put (put s.buf s.i [b]) (s.i + 1) bs :=
        @put_append s.buf s.i [b] bs
      change (s.store b).storeAll bs = _
      rw [Sprinting.store, hi, ih (by dsimp only; omega), List.length_cons, hsplit, put_singleton, Nat.add_assoc,
        Nat.add_comm 1]

/-- A part of a format that `sprintk` knows. -/
def Plain : Item → Prop
  | .byte _ | .hex | .str => True
  | .dec | .unknown _ | .final => False

/-- The format with the texts of its arguments. -/
def rendering (fs : List Item) (as : List Arg) : List UInt8 := render (fun _ => []) Arg.text fs as

/-- The NUL that is written behind a string at the end. -/
def lastNul (fs : List Item) : List UInt8 := if fs.getLast? = some .str then [0] else []

theorem lastNul_cons {c : Item} (hfs : fs ≠ []) : lastNul (c :: fs) = lastNul fs := by
  obtain ⟨d, ds, rfl⟩ := List.exists_cons_of_ne_nil hfs
  rw [lastNul, List.getLast?_cons_cons]
  rfl

theorem hex_text_pos (u : ℕ) : 0 < (Arg.uint32 u).text.length := by
  rw [Arg.text, List.length_reverse, List.length_map]
  exact List.length_pos_of_ne_nil (numeral_ne_nil (by decide) u)

/-- Every format but the empty one writes something. -/
theorem rendering_pos (has : Passed m args k fs as) (hplain : ∀ c ∈ fs, Plain c) (hfs : fs ≠ []) :
    0 < (rendering fs as ++ lastNul fs).length := by
  rw [List.length_append]
  induction has with
  | nil k => exact absurd rfl hfs
  | byte b h ih => exact Nat.add_pos_left (Nat.succ_pos _) _
  | unknown b h ih | dec h ih | final h ih => exact absurd (hplain _ List.mem_cons_self) id
  | hex h ih =>
      rw [rendering, render, List.length_append]
      exact Nat.add_pos_left (Nat.add_pos_left (hex_text_pos _) _) _
  | @str k fs as bs hbs h ih =>
      by_cases hnil : fs = []
      · subst hnil
        exact Nat.add_pos_right _ Nat.one_pos
      · have hrest := ih (fun c hc => hplain c (List.mem_cons_of_mem _ hc)) hnil
        rw [lastNul_cons hnil, rendering, render, List.length_append, Nat.add_assoc]
        exact Nat.add_pos_right _ hrest

theorem sprintkCase_hex {u : ℕ} (hu : u32 (args s.argp) = u) (hroom : s.i + (Arg.uint32 u).text.length < size) :
    sprintkCase m args 'x'.toUInt8 s = some
      { buf := put s.buf s.i (Arg.uint32 u).text
        i := s.i + (Arg.uint32 u).text.length
        argp := s.argp + 1 } := by
  have htext : backwards (hexLoop numStrMax u []) = (Arg.uint32 u).text :=
    printed_eq_text (a := .uint32 u) (hu ▸ u32_lt _) trivial
  unfold sprintkCase
  rw [if_pos rfl, hu, htext, storeAll_eq (s := s.vaArg) hroom]
  rfl

theorem sprintkCase_str {bs : List UInt8} (hbs : CStr m (args s.argp) bs) (hroom : s.i + bs.length < size) :
    sprintkCase m args 's'.toUInt8 s = some
      { buf := put (put s.buf s.i bs) (s.i + bs.length) [0]
        i := s.i + bs.length
        argp := s.argp + 1 } := by
  have hpstr : pstrBytes m (args s.argp) = some bs := Terminated.collect_eq hbs hbs.length_lt
  unfold sprintkCase
  rw [if_neg (by decide), if_pos rfl, hpstr, Option.map_some, storeAll_eq (s := s.vaArg) hroom,
    put_singleton]
  rfl

/-- The case of a conversion writes its argument; a NUL behind a string is overwritten unless the string is at the end. -/
theorem sprintkCase_spec {c : UInt8} (has : Passed m args s.argp (conversion c :: fs) as)
    (hplain : ∀ c' ∈ conversion c :: fs, Plain c')
    (hroom : s.i + (rendering (conversion c :: fs) as).length < size) :
    ∃ s' as', sprintkCase m args c s = some s' ∧ Passed m args s'.argp fs as' ∧
      s'.i + (rendering fs as').length = s.i + (rendering (conversion c :: fs) as).length ∧
      put s'.buf s'.i (rendering fs as' ++ lastNul fs) =
        put s.buf s.i (rendering (conversion c :: fs) as ++ lastNul (conversion c :: fs)) := by
  have hhead := hplain _ List.mem_cons_self
  have hrest : ∀ c' ∈ fs, Plain c' := fun c' hc' => hplain c' (List.mem_cons_of_mem _ hc')
  by_cases hx : c = 'x'.toUInt8
  · subst hx
    have hconv : conversion 'x'.toUInt8 = .hex := by decide
    rw [hconv] at has hroom ⊢
    cases has with
    | @hex _ _ as has =>
        rw [rendering, render, List.length_append] at hroom
        refine ⟨_, as, sprintkCase_hex rfl (by omega), has, ?_, ?_⟩
        · rw [rendering, rendering, render, List.length_append]
          exact Nat.add_assoc ..
        · have hlast : lastNul (.hex :: fs) = lastNul fs := by
            by_cases hnil : fs = []
            · rw [hnil]
              rfl
            · exact lastNul_cons hnil
          rw [hlast, rendering, rendering, render, List.append_assoc]
          exact put_append.symm
  · by_cases hs : c = 's'.toUInt8
    · subst hs
      have hconv : conversion 's'.toUInt8 = .str := by decide
      rw [hconv] at has hroom ⊢
      cases has with
      | @str _ _ as bs hbs has =>
          rw [rendering, render, List.length_append] at hroom
          refine ⟨_, as, sprintkCase_str hbs ((Nat.le_add_right _ _).trans_lt (by rwa [Nat.add_assoc])), has, ?_, ?_⟩
          · rw [rendering, rendering, render, List.length_append]
            exact Nat.add_assoc ..
          · by_cases hnil : fs = []
            · subst hnil
              cases has
              change put (put (put s.buf s.i bs) (s.i + bs.length) [0]) (s.i + bs.length) [] =
                put s.buf s.i (bs ++ [] ++ [0])
              rw [put_nil, List.append_nil, put_append]
            · have hpos : [0].length ≤ (rendering fs as ++ lastNul fs).length := rendering_pos has hrest hnil
              dsimp only
              rw [lastNul_cons hnil, put_put hpos, rendering, rendering, render, List.append_assoc]
              exact put_append.symm
    · unfold conversion at hhead
      rw [if_neg hx, if_neg hs] at hhead
      split_ifs at hhead <;> exact absurd hhead id

theorem sprintkLoop_byte {b : UInt8} {fuel pch : ℕ} (hb : b ≠ '%'.toUInt8) (hf : CStr m (fmt + pch) (b :: f)) :
    sprintkLoop m args fmt (fuel + 1) pch s = sprintkLoop m args fmt fuel (pch + 1) (s.store b) := by
  obtain ⟨hbyte, hnul, -⟩ := cstr_cons.mp hf
  rw [sprintkLoop, hbyte, if_neg hnul, if_pos hb]

theorem sprintkLoop_percent {c : UInt8} {fuel pch : ℕ} (hpercent : m (u32 (fmt + pch)) = '%'.toUInt8)
    (hc : m (u32 (fmt + (pch + 1))) = c) : sprintkLoop m args fmt (fuel + 1) pch s =
      (sprintkCase m args c s).bind (sprintkLoop m args fmt fuel (pch + 2)) := by
  rw [sprintkLoop, hpercent, if_neg (by decide), if_neg (not_not.mpr rfl), ← hc]

/-- What is left in the buffer. -/
theorem sprintkLoop_spec {fuel pch : ℕ} (hf : CStr m (fmt + pch) f) (has : Passed m args s.argp (items f) as)
    (hplain : ∀ c ∈ items f, Plain c) (hfuel : f.length < fuel) (hroom : s.i + (rendering (items f) as).length < size) :
    (sprintkLoop m args fmt fuel pch s).map Sprinting.buf =
      some (put s.buf s.i (rendering (items f) as ++ lastNul (items f))) := by
  obtain ⟨fuel, rfl⟩ := Nat.exists_eq_add_one_of_ne_zero (Nat.ne_zero_of_lt hfuel)
  induction f using items.induct generalizing pch s as fuel with
  | case1 =>
      cases has
      rw [sprintkLoop, if_pos (cstr_nil.mp hf)]
      exact congrArg some put_nil.symm
  | case2 => exact absurd (hplain .final (List.mem_singleton_self _)) id
  | case3 c f ih =>
      obtain ⟨hpercent, -, hrest⟩ := cstr_cons.mp hf
      obtain ⟨hc, -, hrest⟩ := cstr_cons.mp hrest
      rw [List.length_cons, List.length_cons] at hfuel
      rw [items_percent] at has hplain hroom ⊢
      obtain ⟨t, as', hcase, has', hlen, hput⟩ := sprintkCase_spec has hplain hroom
      obtain ⟨fuel, rfl⟩ := Nat.exists_eq_add_one_of_ne_zero (Nat.ne_zero_of_lt (Nat.lt_of_succ_lt_succ hfuel))
      rw [sprintkLoop_percent hpercent hc, hcase, Option.bind_some, ← hput]
      exact ih (s := t) (show CStr m (fmt + (pch + 2)) f from hrest) has'
        (fun c' hc' => hplain c' (List.mem_cons_of_mem _ hc')) (hlen ▸ hroom) fuel (by omega)
  | case4 b f hb ih =>
      obtain ⟨-, -, hrest⟩ := cstr_cons.mp hf
      rw [List.length_cons] at hfuel
      rw [items_byte hb] at has hplain hroom ⊢
      cases has with
      | byte b has =>
          obtain ⟨fuel, rfl⟩ := Nat.exists_eq_add_one_of_ne_zero (Nat.ne_zero_of_lt (Nat.lt_of_succ_lt_succ hfuel))
          rw [rendering, render, List.length_cons] at hroom
          have hi : u32 (s.i + 1) = s.i + 1 := u32_of_lt (by omega)
          have hlast : lastNul (.byte b :: items f) = lastNul (items f) := by
            by_cases hnil : items f = []
            · rw [hnil]
              rfl
            · exact lastNul_cons hnil
          have hstore : s.store b = { s with buf := put s.buf s.i [b], i := s.i + 1 } := by
            rw [Sprinting.store, hi, put_singleton]
          rw [sprintkLoop_byte hb hf, ih (s := s.store b) (show CStr m (fmt + (pch + 1)) f from hrest) has
            (fun c hc => hplain c (List.mem_cons_of_mem _ hc)) (by rw [hstore, rendering]; dsimp only; omega) fuel
            (by omega), hstore, hlast]
          exact congrArg some (@put_append s.buf s.i [b] _).symm

theorem sprintk_spec (hf : CStr m fmt f) (has : Passed m args 0 (items f) as) (hplain : ∀ c ∈ items f, Plain c)
    (hroom : (rendering (items f) as).length < size) :
    sprintk m args buf fmt = some (put buf 0 (rendering (items f) as ++ lastNul (items f))) :=
  sprintkLoop_spec (s := ⟨buf, 0, 0⟩) (show CStr m (fmt + 0) f from hf) has hplain hf.length_lt (by rwa [Nat.zero_add])

end Slos.Sprintk
