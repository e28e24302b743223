import Mathlib.Algebra.Order.Ring.Nat
import Mathlib.Tactic.Common

/-!
# Machine integers

Payload words, page-table entries and addresses are 64-bit vectors, since the code works on their bits.  Counters,
process ids and ticks are natural numbers kept below the bound of their type by `wrapAdd`: in the release profile an
overflowing `+=` wraps, in the dev profile it stops the kernel, so every run of the dev build is a run of this model.
-/

namespace Rost

/-- A `u64` that is used bit by bit. -/
abbrev Word := BitVec 64

/-- A `u8` of a buffer. -/
abbrev Byte := BitVec 8

/-- `u64::MAX`, also the deadline that never comes. -/
def u64Max : Nat := 2 ^ 64 - 1

/-- `a + b` on `w`-bit integers. -/
def wrapAdd (w a b : Nat) : Nat := (a + b) % 2 ^ w

/-- `a.saturating_add(b)` on `u64`. -/
def saturatingAdd (a b : Nat) : Nat := min (a + b) u64Max

end Rost
