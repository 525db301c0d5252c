import Slos.Word
import Mathlib.Data.List.Basic

/-!
# Byte memories

A memory gives a byte for every address. `put` writes a list of bytes from an address on, `bytes`
reads a number of bytes, and `word` reads four bytes as a little-endian number, whose bytes
`wordBytes` lists. The rules say what a read gives after a write inside, across or outside the bytes
written, and split a write of an appended list.
-/

namespace ByteMemory
open Word

abbrev Mem := ℕ → UInt8

def put (m : Mem) (a : ℕ) (bs : List UInt8) : Mem := fun x =>
  if a ≤ x then (bs[x - a]?).getD (m x) else m x

def bytes (m : Mem) (a n : ℕ) : List UInt8 := (List.range n).map fun i => m (a + i)

def wordOf (b₀ b₁ b₂ b₃ : UInt8) : ℕ :=
  b₀.toNat + 256 * b₁.toNat + 65536 * b₂.toNat + 16777216 * b₃.toNat

def word (m : Mem) (a : ℕ) : ℕ := wordOf (m a) (m (a + 1)) (m (a + 2)) (m (a + 3))

def wordBytes (v : ℕ) : List UInt8 :=
  [UInt8.ofNat v, UInt8.ofNat (v / 256), UInt8.ofNat (v / 65536), UInt8.ofNat (v / 16777216)]

/-- A buffer filled with `bs`. -/
def ofBytes (bs : List UInt8) : Mem := put (fun _ => 0) 0 bs

variable {m m' : Mem} {a b n v : ℕ} {bs cs : List UInt8}

@[simp] theorem bytes_length : (bytes m a n).length = n := by
  simp [bytes]

@[simp] theorem wordBytes_length : (wordBytes v).length = 4 := rfl

theorem getElem?_bytes {i : ℕ} (hi : i < n) : (bytes m a n)[i]? = some (m (a + i)) := by
  simp [bytes, hi]

theorem bytes_congr (h : ∀ x, a ≤ x → x < a + n → m' x = m x) : bytes m' a n = bytes m a n := by
  refine List.map_congr_left fun i hi => ?_
  have hlt : i < n := List.mem_range.mp hi
  exact h (a + i) (Nat.le_add_right a i) (Nat.add_lt_add_left hlt a)

theorem bytes_shift (h : ∀ i < n, m' (b + i) = m (a + i)) : bytes m' b n = bytes m a n :=
  List.map_congr_left fun i hi => h i (List.mem_range.mp hi)

theorem bytes_append (k : ℕ) : bytes m a (n + k) = bytes m a n ++ bytes m (a + n) k := by
  simp [bytes, List.range_add, Function.comp_def, Nat.add_assoc]

theorem take_bytes {k : ℕ} (h : k ≤ n) : (bytes m a n).take k = bytes m a k := by
  obtain ⟨d, rfl⟩ := Nat.exists_eq_add_of_le h
  rw [bytes_append, List.take_left' bytes_length]

theorem drop_bytes {k : ℕ} (h : k ≤ n) : (bytes m a n).drop k = bytes m (a + k) (n - k) := by
  obtain ⟨d, rfl⟩ := Nat.exists_eq_add_of_le h
  rw [bytes_append, List.drop_left' bytes_length, Nat.add_sub_cancel_left]

theorem put_of_lt {x : ℕ} (h : x < a) : put m a bs x = m x := if_neg (Nat.not_le.mpr h)

theorem put_of_ge {x : ℕ} (h : a + bs.length ≤ x) : put m a bs x = m x := by
  rw [put, if_pos (by omega), List.getElem?_eq_none (by omega), Option.getD_none]

theorem put_of_notMem {x : ℕ} (h : x < a ∨ a + bs.length ≤ x) : put m a bs x = m x :=
  h.elim put_of_lt put_of_ge

theorem put_add {i : ℕ} : put m a bs (a + i) = (bs[i]?).getD (m (a + i)) := by
  rw [put, if_pos (Nat.le_add_right a i), Nat.add_sub_cancel_left]

@[simp] theorem put_nil : put m a [] = m := by
  funext x
  exact put_of_notMem (by rw [List.length_nil]; omega)

theorem put_append : put m a (bs ++ cs) = put (put m a bs) (a + bs.length) cs := by
  funext x
  rcases lt_or_ge x a with h | h
  · rw [put_of_lt h, put_of_lt (by omega), put_of_lt h]
  · obtain ⟨i, rfl⟩ := Nat.exists_eq_add_of_le h
    rcases lt_or_ge i bs.length with hi | hi
    · rw [put_add, List.getElem?_append_left hi, put_of_lt (by omega), put_add]
    · obtain ⟨j, rfl⟩ := Nat.exists_eq_add_of_le hi
      rw [put_add, List.getElem?_append_right hi, Nat.add_sub_cancel_left, ← Nat.add_assoc, put_add,
        put_of_ge (by omega)]

theorem put_replicate (b : UInt8) (x : ℕ) :
    put m a (List.replicate n b) x = if a ≤ x ∧ x < a + n then b else m x := by
  by_cases h : a ≤ x ∧ x < a + n
  · rw [if_pos h, put, if_pos h.1, List.getElem?_replicate, if_pos (by omega), Option.getD_some]
  · rw [if_neg h, put_of_notMem (by rw [List.length_replicate]; omega)]

theorem bytes_put_self : bytes (put m a bs) a bs.length = bs := by
  apply List.ext_getElem?
  intro i
  rcases lt_or_ge i bs.length with hi | hi
  · rw [getElem?_bytes hi, put_add, List.getElem?_eq_getElem hi, Option.getD_some]
  · rw [List.getElem?_eq_none (by simpa using hi), List.getElem?_eq_none hi]

theorem bytes_put_end {k : ℕ} (hk : k + bs.length = n) : bytes (put m (a + k) bs) a n = bytes m a k ++ bs := by
  rw [← hk, bytes_append, bytes_put_self,
    bytes_congr fun x _ hx => put_of_lt hx]

theorem put_bytes (x : ℕ) :
    put m a (bytes m' b n) x = if a ≤ x ∧ x < a + n then m' (b + (x - a)) else m x := by
  by_cases h : a ≤ x ∧ x < a + n
  · obtain ⟨i, rfl⟩ := Nat.exists_eq_add_of_le h.1
    rw [if_pos h, put_add, getElem?_bytes (by omega), Option.getD_some, Nat.add_sub_cancel_left]
  · rw [if_neg h, put_of_notMem (by rw [bytes_length]; omega)]

theorem put_bytes_self : put m a (bytes m a n) = m := by
  funext x
  by_cases h : a ≤ x ∧ x < a + n
  · obtain ⟨i, rfl⟩ := Nat.exists_eq_add_of_le h.1
    rw [put_add, getElem?_bytes (by omega), Option.getD_some]
  · exact put_of_notMem (by rw [bytes_length]; omega)

theorem bytes_put_of_disjoint (h : a + n ≤ b ∨ b + bs.length ≤ a) :
    bytes (put m b bs) a n = bytes m a n :=
  bytes_congr fun x hx hn => put_of_notMem (by omega)

theorem put_comm (h : a + bs.length ≤ b ∨ b + cs.length ≤ a) :
    put (put m a bs) b cs = put (put m b cs) a bs := by
  funext x
  by_cases ha : x < a ∨ a + bs.length ≤ x
  · rw [put_of_notMem ha]
    by_cases hb : x < b ∨ b + cs.length ≤ x
    · rw [put_of_notMem hb, put_of_notMem hb, put_of_notMem ha]
    · obtain ⟨i, rfl⟩ := Nat.exists_eq_add_of_le (show b ≤ x by omega)
      have hi : i < cs.length := by omega
      simp [put_add, List.getElem?_eq_getElem hi]
  · obtain ⟨i, rfl⟩ := Nat.exists_eq_add_of_le (show a ≤ x by omega)
    have hi : i < bs.length := by omega
    rw [put_of_notMem (by omega), put_add, put_add, List.getElem?_eq_getElem hi, Option.getD_some,
      Option.getD_some]

theorem wordOf_lt (b₀ b₁ b₂ b₃ : UInt8) : wordOf b₀ b₁ b₂ b₃ < size := by
  have h₀ := b₀.toNat_lt
  have h₁ := b₁.toNat_lt
  have h₂ := b₂.toNat_lt
  have h₃ := b₃.toNat_lt
  unfold wordOf size
  omega

theorem word_lt (m : Mem) (a : ℕ) : word m a < size := wordOf_lt ..

theorem word_shift (h : ∀ i < 4, m' (b + i) = m (a + i)) : word m' b = word m a := by
  have h₀ : m' b = m a := h 0 (by decide)
  rw [word, word, h₀, h 1 (by decide), h 2 (by decide), h 3 (by decide)]

theorem word_congr (h : ∀ x, a ≤ x → x < a + 4 → m' x = m x) : word m' a = word m a := by
  rw [word, word, h a le_rfl (by omega), h (a + 1) (by omega) (by omega),
    h (a + 2) (by omega) (by omega), h (a + 3) (by omega) (by omega)]

theorem word_put_of_disjoint (h : a + 4 ≤ b ∨ b + bs.length ≤ a) :
    word (put m b bs) a = word m a :=
  word_congr fun x hx hn => put_of_notMem (by omega)

theorem word_put_wordBytes (hv : v < size) : word (put m a (wordBytes v)) a = v := by
  have h₀ : put m a (wordBytes v) a = UInt8.ofNat v := put_add (i := 0)
  have h₁ : put m a (wordBytes v) (a + 1) = UInt8.ofNat (v / 256) := put_add
  have h₂ : put m a (wordBytes v) (a + 2) = UInt8.ofNat (v / 65536) := put_add
  have h₃ : put m a (wordBytes v) (a + 3) = UInt8.ofNat (v / 16777216) := put_add
  rw [word, h₀, h₁, h₂, h₃, wordOf]
  simp only [UInt8.toNat_ofNat']
  unfold size at hv
  omega

@[simp] theorem wordBytes_u32 : wordBytes (u32 v) = wordBytes v := by
  have hbyte (k : ℕ) (hk : k * 256 ∣ size) : UInt8.ofNat (u32 v / k) = UInt8.ofNat (v / k) := by
    rw [← UInt8.toNat_inj, UInt8.toNat_ofNat', UInt8.toNat_ofNat']
    change u32 v / k % 256 = v / k % 256
    rw [u32, ← Nat.mod_mul_right_div_self, ← Nat.mod_mul_right_div_self, Nat.mod_mod_of_dvd _ hk]
  have h₀ := hbyte 1 (by decide)
  rw [Nat.div_one, Nat.div_one] at h₀
  rw [wordBytes, wordBytes, h₀, hbyte 256 (by decide), hbyte 65536 (by decide),
    hbyte 16777216 (by decide)]

/-- A word among the bytes written. -/
theorem word_put_mid {k : ℕ} (hk : bs.length = k) :
    word (put m a (bs ++ (wordBytes v ++ cs))) (a + k) = u32 v := by
  rw [put_append, put_append, hk, word_put_of_disjoint (by rw [wordBytes_length]; omega), ← wordBytes_u32]
  exact word_put_wordBytes (u32_lt v)

theorem put_congr {x : ℕ} (h : x < a ∨ a + bs.length ≤ x → m' x = m x) :
    put m' a bs x = put m a bs x := by
  by_cases hx : x < a ∨ a + bs.length ≤ x
  · rw [put_of_notMem hx, put_of_notMem hx]
    exact h hx
  · obtain ⟨j, rfl⟩ := Nat.exists_eq_add_of_le (show a ≤ x by omega)
    have hj : j < bs.length := by omega
    rw [put_add, List.getElem?_eq_getElem hj, Option.getD_some, put_add, List.getElem?_eq_getElem hj,
      Option.getD_some]

theorem put_put (h : bs.length ≤ cs.length) : put (put m a bs) a cs = put m a cs :=
  funext fun _ => put_congr fun hx => put_of_notMem (by omega)

/-- Writing over the middle of the bytes written. -/
theorem put_overwrite {k : ℕ} {ds es : List UInt8} (hk : bs.length = k) (hlen : cs.length = ds.length) :
    put (put m a (bs ++ (cs ++ es))) (a + k) ds = put m a (bs ++ (ds ++ es)) := by
  subst hk
  rw [put_append, put_append, put_append, put_append, put_comm (Or.inr (by rw [hlen])), put_put hlen.le,
    hlen]

theorem ofBytes_bytes {i : ℕ} (hi : i < n) : ofBytes (bytes m a n) i = m (a + i) := by
  have h : put (fun _ => 0) 0 (bytes m a n) (0 + i) = m (a + i) := by
    rw [put_add, getElem?_bytes hi, Option.getD_some]
  rwa [Nat.zero_add] at h

theorem word_ofBytes_bytes {i : ℕ} (hi : i + 4 ≤ n) :
    word (ofBytes (bytes m a n)) i = word m (a + i) := by
  rw [word, word, ofBytes_bytes (by omega), ofBytes_bytes (by omega), ofBytes_bytes (by omega),
    ofBytes_bytes (by omega)]
  rfl

theorem bytes_ofBytes (h : bs.length = n) : bytes (ofBytes bs) 0 n = bs := by
  rw [← h]
  exact bytes_put_self

/-- Four bytes `0xFF` are the word of all ones, and no others are. -/
theorem wordOf_eq_max {b₀ b₁ b₂ b₃ : UInt8} :
    wordOf b₀ b₁ b₂ b₃ = 0xFFFFFFFF ↔ b₀ = 0xFF ∧ b₁ = 0xFF ∧ b₂ = 0xFF ∧ b₃ = 0xFF := by
  have h₀ := b₀.toNat_lt
  have h₁ := b₁.toNat_lt
  have h₂ := b₂.toNat_lt
  have h₃ := b₃.toNat_lt
  simp only [← UInt8.toNat_inj, wordOf, UInt8.reduceToNat]
  omega

theorem word_eq_max : word m a = 0xFFFFFFFF ↔ ∀ i < 4, m (a + i) = 0xFF := by
  rw [word, wordOf_eq_max]
  constructor
  · rintro ⟨h₀, h₁, h₂, h₃⟩ i hi
    interval_cases i
    exacts [h₀, h₁, h₂, h₃]
  · intro h
    exact ⟨h 0 (by decide), h 1 (by decide), h 2 (by decide), h 3 (by decide)⟩

attribute [irreducible] wordOf

end ByteMemory
