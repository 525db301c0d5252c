import Mathlib.Data.List.Basic

/-!
# Files with a position

An open file as its contents and a position. A read delivers what is left of the file, at most as many items
as it is asked for, and goes on behind them; a write puts its items over what is at the position.
-/

structure PosixFile (α : Type*) where
  content : List α
  pos : ℕ

namespace PosixFile

variable {α : Type*} (f : PosixFile α)

/-- The items a read of length `n` delivers. -/
def read (n : ℕ) : List α := (f.content.drop f.pos).take n

def advance (n : ℕ) : PosixFile α := { f with pos := f.pos + n }

def seek (offset : ℕ) : PosixFile α := { f with pos := offset }

def write (bs : List α) : PosixFile α where
  content := f.content.take f.pos ++ bs ++ f.content.drop (f.pos + bs.length)
  pos := f.pos + bs.length

theorem length_read (n : ℕ) : (f.read n).length = min n (f.content.length - f.pos) := by
  rw [read, List.length_take, List.length_drop]

/-- A read delivers all it is asked for exactly when it ends in the file. -/
theorem length_read_eq {n : ℕ} : (f.read n).length = n ↔ n = 0 ∨ f.pos + n ≤ f.content.length := by
  rw [length_read]
  omega

theorem read_zero : f.read 0 = [] := List.take_zero

theorem write_nil : f.write [] = f := by
  rw [write, List.append_nil, List.length_nil, Nat.add_zero, List.take_append_drop]

/-- What is written reads back. -/
theorem read_write (bs : List α) (h : f.pos ≤ f.content.length) :
    ((f.write bs).seek f.pos).read bs.length = bs := by
  have htake : (f.content.take f.pos).length = f.pos := List.length_take_of_le h
  rw [read, seek, write, List.append_assoc, List.drop_left' htake, List.take_left]

end PosixFile
