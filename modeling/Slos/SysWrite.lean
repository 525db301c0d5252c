import Slos.Loader
import Slos.Printk

/-!
# The system call for writing

`platform_syscall_handler` hands the message of a user task to `printk` as the format, with no argument behind it. A
conversion in the message so takes what is in `r1` to `r3` at the call and then what is on the stack. The message is written
as it is, in every state of the machine, exactly if it has no `%`.
-/

namespace Slos.SysWrite
open Word ByteMemory CString Numeral Printk Loader

/-- The machine when `printk` is called. -/
structure Machine where
  mem : Mem
  r : ℕ → ℕ
  sp : ℕ

/-- The words a variadic function with one named parameter takes for its further arguments. -/
def Machine.vaArgs (c : Machine) (k : ℕ) : ℕ :=
  if k < 3 then c.r (k + 1)
  else
    let a := c.sp + 4 * (k - 3)
    wordOf (c.mem (u32 a)) (c.mem (u32 (a + 1))) (c.mem (u32 (a + 2))) (c.mem (u32 (a + 3)))

def sysExit : ℕ := 0x0
def sysCmd : ℕ := 0x1
def sysWrite : ℕ := 0x2
def sysRead : ℕ := 0x3
def sysSleep : ℕ := 0x4

/-- The bytes emitted and the value returned. -/
def platformSyscallHandler (c : Machine) (msg idx sysNum : ℕ) : Option (List UInt8 × ℤ) :=
  if sysNum = sysExit then some ([], 0)
  else if sysNum = sysCmd then some ([], 0)
  else if sysNum = sysWrite then
    let msg := u32 (msg + baseAddr idx)
    (printk c.mem c.vaArgs msg).map fun s => (s.out, 0)
  else if sysNum = sysRead then some ([], 0)
  else if sysNum = sysSleep then some ([], 0)
  else some ([], -1)

variable {m : Mem} {args : ℕ → ℕ} {fmt : ℕ} {s s' : Printing} {bs : List UInt8}

theorem printkCase_extends {ch : UInt8} (h : printkCase m args ch s = some s') : s.out <+: s'.out := by
  unfold printkCase at h
  split_ifs at h
  · cases h
    exact List.prefix_append _ _
  · cases h
    exact List.prefix_append _ _
  · obtain ⟨bs, -, rfl⟩ := Option.map_eq_some_iff.mp h
    exact List.prefix_append _ _
  · cases h
    exact List.prefix_rfl

/-- What is emitted stays. -/
theorem printkLoop_extends {fuel pch : ℕ} (h : printkLoop m args fmt fuel pch s = some s') : s.out <+: s'.out := by
  induction fuel generalizing pch s with
  | zero => cases h
  | succ fuel ih =>
      rw [printkLoop] at h
      split_ifs at h with hnul hbyte
      · cases h
        exact List.prefix_rfl
      · exact (List.prefix_append _ _).trans (ih h)
      · obtain ⟨t, ht, h⟩ := Option.bind_eq_some_iff.mp h
        exact (printkCase_extends ht).trans (ih h)

/-- The output goes on with a byte that is no `%`. -/
def OtherNext (out out' : List UInt8) : Prop := ∃ b, b ≠ '%'.toUInt8 ∧ out ++ [b] <+: out'

theorem OtherNext.append {ds : List UInt8} (out : List UInt8) (hne : ds ≠ []) (hds : ∀ b ∈ ds, b ≠ '%'.toUInt8) :
    OtherNext out (out ++ ds) := by
  obtain ⟨b, ds, rfl⟩ := List.exists_cons_of_ne_nil hne
  exact ⟨b, hds b List.mem_cons_self, ds, List.append_assoc out [b] ds⟩

theorem OtherNext.mono {out out' out'' : List UInt8} (h : OtherNext out out') (hpre : out' <+: out'') :
    OtherNext out out'' := by
  obtain ⟨b, hb, hout⟩ := h
  exact ⟨b, hb, hout.trans hpre⟩

theorem hexChar_ne_percent {d : ℕ} (hd : d < 16) : hexChar d ≠ '%'.toUInt8 := by
  interval_cases d <;> decide

theorem decChar_ne_percent {d : ℕ} (hd : d < 10) : decChar d ≠ '%'.toUInt8 := by
  interval_cases d <;> decide

/-- The text of a hexadecimal argument. -/
theorem hex_otherNext (out : List UInt8) {u : ℕ} (hu : u < size) :
    OtherNext out (out ++ backwards (hexLoop numStrMax u [])) := by
  rw [backwards_eq, hexLoop_eq hu]
  apply OtherNext.append
  · rw [Ne, List.reverse_eq_nil_iff, List.map_eq_nil_iff]
    exact numeral_ne_nil (by decide) u
  · intro b hb
    obtain ⟨d, hd, rfl⟩ := List.mem_map.mp (List.mem_reverse.mp hb)
    exact hexChar_ne_percent (numeral_lt (by decide) hd)

theorem dec_otherNext (out : List UInt8) {i : ℤ} (hi : i.natAbs < size) :
    OtherNext out (out ++ backwards (decLoop numStrMax i [])) := by
  rw [backwards_eq]
  rcases lt_or_ge i 0 with hneg | hpos
  · obtain ⟨n, rfl⟩ := Int.exists_eq_neg_ofNat hneg.le
    have hmod : (n : ℤ).tmod 10 = (n % 10 : ℕ) := rfl
    rw [decLoop_neg hneg, Int.neg_tmod, hmod]
    have hlt := Nat.mod_lt n (show 0 < 10 by decide)
    apply OtherNext.append
    · exact List.cons_ne_nil _ []
    · intro b hb
      rw [List.reverse_singleton, List.mem_singleton] at hb
      rw [hb]
      interval_cases n % 10 <;> decide
  · obtain ⟨n, rfl⟩ := Int.eq_ofNat_of_zero_le hpos
    have hn : n < size := hi
    rw [decLoop_natCast hn]
    apply OtherNext.append
    · rw [Ne, List.reverse_eq_nil_iff, List.map_eq_nil_iff]
      exact numeral_ne_nil (by decide) n
    · intro b hb
      obtain ⟨d, hd, rfl⟩ := List.mem_map.mp (List.mem_reverse.mp hb)
      exact decChar_ne_percent (numeral_lt (by decide) hd)

/-- With a string that starts with no `%` as the first argument, what is emitted next is no `%`. -/
theorem printkLoop_otherNext {fuel pch : ℕ} (hargp : s.argp = 0) {ds : List UInt8}
    (harg : pstrBytes m (args 0) = some ds) (hne : ds ≠ []) (hds : ∀ b ∈ ds, b ≠ '%'.toUInt8)
    (h : printkLoop m args fmt fuel pch s = some s') : s'.out = s.out ∨ OtherNext s.out s'.out := by
  induction fuel generalizing pch s with
  | zero => cases h
  | succ fuel ih =>
      rw [printkLoop] at h
      split_ifs at h with hnul hbyte
      · cases h
        exact Or.inl rfl
      · right
        exact (OtherNext.append s.out (List.cons_ne_nil _ [])
          fun b hb => (List.mem_singleton.mp hb).symm ▸ hbyte).mono (printkLoop_extends h)
      · obtain ⟨t, ht, h⟩ := Option.bind_eq_some_iff.mp h
        unfold printkCase at ht
        split_ifs at ht with hx hd hs
        · cases ht
          exact Or.inr ((hex_otherNext s.out (u32_lt _)).mono (printkLoop_extends h))
        · cases ht
          exact Or.inr ((dec_otherNext s.out (int32_natAbs_lt _)).mono (printkLoop_extends h))
        · change (pstrBytes m (args s.argp)).map _ = some t at ht
          rw [hargp, harg] at ht
          cases ht
          exact Or.inr ((OtherNext.append s.out hne hds).mono (printkLoop_extends h))
        · cases ht
          exact ih (s := (s.read pch).read (pch + 1)) hargp h

theorem printkLoop_literal {f pre : List UInt8} {fuel pch : ℕ} (hf : CStr m (fmt + pch) (pre ++ f))
    (hpre : '%'.toUInt8 ∉ pre) (h : printkLoop m args fmt fuel pch s = some s') :
    ∃ fuel t, t.out = s.out ++ pre ∧ t.argp = s.argp ∧
      printkLoop m args fmt fuel (pch + pre.length) t = some s' := by
  induction pre generalizing pch s fuel with
  | nil => exact ⟨fuel, s, (List.append_nil _).symm, rfl, h⟩
  | cons b pre ih =>
      rw [List.mem_cons, not_or] at hpre
      cases fuel with
      | zero => cases h
      | succ fuel =>
          rw [printkLoop_byte (Ne.symm hpre.1) hf] at h
          obtain ⟨-, -, hrest⟩ := cstr_cons.mp hf
          obtain ⟨fuel', t, hout, hargp, hloop⟩ := ih hrest hpre.2 h
          refine ⟨fuel', t, ?_, hargp, ?_⟩
          · rw [hout, Printing.pollOut, List.append_assoc]
            rfl
          · rwa [List.length_cons, Nat.add_comm pre.length, ← Nat.add_assoc]

/-- A message with no `%` is all literal. -/
theorem items_literal {f : List UInt8} (hf : '%'.toUInt8 ∉ f) : items f = f.map .byte := by
  induction f with
  | nil => rfl
  | cons b f ih =>
      rw [List.mem_cons, not_or] at hf
      rw [items_byte (Ne.symm hf.1), ih hf.2]
      rfl

theorem passed_literal (m : Mem) (args : ℕ → ℕ) (k : ℕ) (f : List UInt8) : Passed m args k (f.map .byte) [] := by
  induction f with
  | nil => exact .nil k
  | cons b f ih => exact .byte b ih

theorem render_literal (unknown : UInt8 → List UInt8) (text : Arg → List UInt8) (f : List UInt8) :
    render unknown text (f.map .byte) [] = f := by
  induction f with
  | nil => rfl
  | cons b f ih => rw [List.map_cons, render, ih]

theorem printk_literal {f : List UInt8} (hf : CStr m fmt f) (hpercent : '%'.toUInt8 ∉ f) :
    ∃ s, printk m args fmt = some s ∧ s.out = f := by
  have hitems := items_literal hpercent
  have hfinal : .final ∉ items f := by
    rw [hitems]
    intro h
    obtain ⟨b, -, hb⟩ := List.mem_map.mp h
    cases hb
  have hpassed : Passed m args 0 (items f) [] := hitems ▸ passed_literal m args 0 f
  obtain ⟨s, hs, hout, -⟩ := printkLoop_spec (s := ⟨[], 0, []⟩) hf hpassed hfinal hf.length_lt
    (fun _ h => absurd h List.not_mem_nil) (Nat.zero_add _)
  refine ⟨s, hs, ?_⟩
  rw [hout, hitems, render_literal]
  rfl

/-- From `a` on the message, its NUL and the string `a`; zeros elsewhere. -/
def holding (a : ℕ) (bs : List UInt8) : Mem := fun x => (bs ++ [0, 'a'.toUInt8]).getD (usub x a) 0

theorem holding_add {i : ℕ} (a : ℕ) (hi : i < size) : holding a bs (u32 (a + i)) = (bs ++ [0, 'a'.toUInt8]).getD i 0 := by
  have hsub : usub (u32 (a + i)) a = i := by
    unfold usub u32 size at *
    omega
  rw [holding, hsub]

theorem holding_message (a : ℕ) (hnul : 0 ∉ bs) (hlen : bs.length + 2 < size) : CStr (holding a bs) a bs := by
  refine cstr_iff.mpr ⟨hnul, fun i hi => ?_⟩
  rw [holding_add a (by omega)]
  rcases hi.lt_or_eq with hlt | rfl
  · rw [List.getD_append _ _ _ _ hlt, List.getD_append _ _ _ _ hlt]
  · rw [List.getD_append_right _ _ _ _ le_rfl, List.getD_append_right _ _ _ _ le_rfl, Nat.sub_self]
    rfl

theorem holding_behind (a : ℕ) (hlen : bs.length + 2 < size) :
    CStr (holding a bs) (a + (bs.length + 1)) ['a'.toUInt8] := by
  refine cstr_cons.mpr ⟨?_, by decide, cstr_nil.mpr ?_⟩
  · rw [holding_add a (by omega), List.getD_append_right _ _ _ _ (Nat.le_add_right _ 1), Nat.add_sub_cancel_left]
    rfl
  · rw [Nat.add_assoc, Nat.add_assoc, holding_add a hlen, List.getD_append_right _ _ _ _ (by omega),
      Nat.add_sub_cancel_left]
    rfl

/-- A machine with the message at `a` and the string behind it as every argument in a register. -/
def pointing (a : ℕ) (bs : List UInt8) : Machine where
  mem := holding a bs
  r := fun _ => a + (bs.length + 1)
  sp := 0

def userAddr (msg idx : ℕ) : ℕ := u32 (msg + baseAddr idx)

/-- The message `bs` of a task at `msg` in its window: it is written as it is, and nothing else makes a difference. -/
structure WriteLaw (msg idx : ℕ) (bs : List UInt8) : Prop where
  verbatim : ∀ c : Machine, CStr c.mem (userAddr msg idx) bs →
    ∃ r, platformSyscallHandler c msg idx sysWrite = some (bs, r)
  leakFree : ∀ c c' : Machine, CStr c.mem (userAddr msg idx) bs → CStr c'.mem (userAddr msg idx) bs →
    (platformSyscallHandler c msg idx sysWrite).map Prod.fst = (platformSyscallHandler c' msg idx sysWrite).map Prod.fst

theorem platformSyscallHandler_write (c : Machine) (msg idx : ℕ) : platformSyscallHandler c msg idx sysWrite =
    (printk c.mem c.vaArgs (userAddr msg idx)).map fun s => (s.out, 0) := rfl

theorem write_law_iff {msg idx : ℕ} (hnul : 0 ∉ bs) (hwindow : msg + bs.length < userAppGap) :
    WriteLaw msg idx bs ↔ '%'.toUInt8 ∉ bs := by
  have hlen : bs.length + 2 < size := by
    unfold userAppGap size at *
    omega
  constructor
  · intro hlaw hpercent
    obtain ⟨pre, rest, rfl, hpre⟩ := List.eq_append_cons_of_mem hpercent
    obtain ⟨c, hc⟩ : ∃ c, c = pointing (userAddr msg idx) (pre ++ '%'.toUInt8 :: rest) := ⟨_, rfl⟩
    have hmsg : CStr c.mem (userAddr msg idx) (pre ++ '%'.toUInt8 :: rest) := hc ▸ holding_message _ hnul hlen
    obtain ⟨r, hr⟩ := hlaw.verbatim c hmsg
    rw [platformSyscallHandler_write] at hr
    obtain ⟨s, hs, hout⟩ := Option.map_eq_some_iff.mp hr
    rw [Prod.mk.injEq] at hout
    obtain ⟨fuel, t, htout, htargp, hloop⟩ := printkLoop_literal hmsg hpre hs
    have harg : pstrBytes c.mem (c.vaArgs 0) = some ['a'.toUInt8] := hc ▸
      Terminated.collect_eq (holding_behind (userAddr msg idx) hlen) (by decide)
    have hother : ∀ b ∈ ['a'.toUInt8], b ≠ '%'.toUInt8 := fun b hb => by
      rw [List.mem_singleton.mp hb]
      decide
    have hnext := printkLoop_otherNext htargp harg (List.cons_ne_nil _ []) hother hloop
    rw [htout, hout.1, List.nil_append] at hnext
    rcases hnext with heq | ⟨b, hb, hprefix⟩
    · have hlength := congrArg List.length heq
      rw [List.length_append, List.length_cons] at hlength
      omega
    · rw [List.prefix_append_right_inj] at hprefix
      obtain ⟨hhead, -⟩ := List.cons_prefix_cons.mp hprefix
      exact hb hhead
  · intro hpercent
    have hwrite (c : Machine) (hc : CStr c.mem (userAddr msg idx) bs) :
        platformSyscallHandler c msg idx sysWrite = some (bs, 0) := by
      obtain ⟨s, hs, hout⟩ := printk_literal hc hpercent
      rw [platformSyscallHandler_write, hs, ← hout]
      rfl
    constructor
    · intro c hc
      exact ⟨0, hwrite c hc⟩
    · intro c c' hc hc'
      rw [hwrite c hc, hwrite c' hc']

def greeting : List UInt8 := "Hello from application 1.".toList.map Char.toUInt8

theorem write_law_greeting : WriteLaw 0x40 1 greeting := (write_law_iff (by decide) (by decide)).mpr (by decide)

/-- The message `%x` in the window of the first task, with `r` in the registers. -/
def hexMessage (r : ℕ) : Machine where
  mem := put (fun _ => 0) userAppBase ['%'.toUInt8, 'x'.toUInt8]
  r := fun _ => r
  sp := 0

/-- The message `%x` writes what is in `r1`. -/
theorem write_register : platformSyscallHandler (hexMessage 1) 0 0 sysWrite = some (['1'.toUInt8], 0) ∧
    platformSyscallHandler (hexMessage 2) 0 0 sysWrite = some (['2'.toUInt8], 0) ∧
    ¬ ∀ msg idx bs, 0 ∉ bs → msg + bs.length < userAppGap → WriteLaw msg idx bs := by
  have hone : platformSyscallHandler (hexMessage 1) 0 0 sysWrite = some (['1'.toUInt8], 0) := by decide +kernel
  have htwo : platformSyscallHandler (hexMessage 2) 0 0 sysWrite = some (['2'.toUInt8], 0) := by decide +kernel
  refine ⟨hone, htwo, fun h => ?_⟩
  have hlaw := h 0 0 ['%'.toUInt8, 'x'.toUInt8] (by decide) (by decide)
  have hstring (r : ℕ) : CStr (hexMessage r).mem (userAddr 0 0) ['%'.toUInt8, 'x'.toUInt8] :=
    ⟨rfl, by decide, rfl, by decide, rfl⟩
  have hsame := hlaw.leakFree (hexMessage 1) (hexMessage 2) (hstring 1) (hstring 2)
  rw [hone, htwo] at hsame
  exact absurd hsame (by decide)

end Slos.SysWrite
