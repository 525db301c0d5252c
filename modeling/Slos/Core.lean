import Mathlib.Logic.Function.Basic

/-!
# The two cores

The processors the kernel is started on, told apart by what `smp_processor_id` returns.
-/

namespace Slos

inductive Core
  | cpu0
  | cpu1
  deriving DecidableEq

namespace Core

def other : Core → Core
  | cpu0 => cpu1
  | cpu1 => cpu0

@[simp] theorem other_other (c : Core) : c.other.other = c := by
  cases c <;> rfl

@[simp] theorem other_ne (c : Core) : c.other ≠ c := by
  cases c <;> decide

@[simp] theorem ne_other (c : Core) : c ≠ c.other := c.other_ne.symm

theorem eq_or_eq_other (c d : Core) : d = c ∨ d = c.other := by
  cases c <;> cases d <;> decide

end Core

end Slos
