import Mathlib.Algebra.Order.Ring.Nat
import Mathlib.Data.List.Basic

/-!
# Checked operations on words and lists

Operations that have no value where the plain ones go wrong: a sum that does not fit into a
word, a difference below zero, a length that is cut off, and skipping more elements than
there are.

Main results:

- Theorem {lit}`Checked.toNat_add`: a sum that fits is exact.
- Theorems {lit}`Checked.lt_add_one_iff` and {lit}`Checked.le_add_one_iff`: when counting on
  does not wrap around.
-/

namespace Checked

/-- A sum that fits into a word. -/
def add (a b : UInt64) : Option UInt64 :=
  if a.toNat + b.toNat < 2 ^ 64 then some (a + b) else none

/-- A difference that is not below zero. -/
def sub (a b : UInt64) : Option UInt64 :=
  if b ≤ a then some (a - b) else none

variable {α : Type}

/-- A length that fits into a word. -/
def length (xs : List α) : Option UInt64 :=
  if xs.length < 2 ^ 64 then some (UInt64.ofNat xs.length) else none

/-- What is left behind elements that are there. -/
def skip (xs : List α) (n : Nat) : Option (List α) :=
  if n ≤ xs.length then some (xs.drop n) else none

theorem add_eq {a b : UInt64} (hlt : a.toNat + b.toNat < 2 ^ 64) : add a b = some (a + b) :=
  if_pos hlt

theorem sub_eq {a b : UInt64} (hle : b ≤ a) : sub a b = some (a - b) :=
  if_pos hle

theorem length_eq {xs : List α} (hlt : xs.length < 2 ^ 64) :
    length xs = some (UInt64.ofNat xs.length) :=
  if_pos hlt

theorem skip_eq {xs : List α} {n : Nat} (hle : n ≤ xs.length) : skip xs n = some (xs.drop n) :=
  if_pos hle

/-- A sum that fits is exact. -/
theorem toNat_add {a b : UInt64} (hlt : a.toNat + b.toNat < 2 ^ 64) :
    (a + b).toNat = a.toNat + b.toNat := by
  rw [UInt64.toNat_add, Nat.mod_eq_of_lt hlt]

/-- A word that has a successor. -/
theorem toNat_add_one {a : UInt64} (hlt : a.toNat + 1 < 2 ^ 64) :
    (a + 1).toNat = a.toNat + 1 := by
  rw [toNat_add hlt, UInt64.toNat_one]

/-- The next word is greater unless it wraps around. -/
theorem lt_add_one_iff (a : UInt64) : a < a + 1 ↔ a.toNat + 1 < 2 ^ 64 := by
  have hlt := a.toNat_lt
  rw [UInt64.lt_iff_toNat_lt, UInt64.toNat_add, UInt64.toNat_one]
  omega

theorem le_add_one_iff (a : UInt64) : a ≤ a + 1 ↔ a.toNat + 1 < 2 ^ 64 := by
  have hlt := a.toNat_lt
  rw [UInt64.le_iff_toNat_le, UInt64.toNat_add, UInt64.toNat_one]
  omega

end Checked
