import Mathlib.Algebra.Order.Ring.Nat
import Mathlib.Tactic.NormNum

/-!
# Pointer-sized integers

A `usize` is as wide as the pointers of the target. A cast to it drops the high bits of a number;
a checked conversion refuses a number that has any.
-/

namespace HideProtocol.Lib

/-- `n as usize` on a target whose pointers have `bits` bits. -/
def asUsize (bits : ℕ) (n : UInt64) : ℕ := n.toNat % 2 ^ bits

/-- `usize::try_from(n)`. -/
def tryUsize (bits : ℕ) (n : UInt64) : Option ℕ :=
  if n.toNat < 2 ^ bits then some n.toNat else none

variable {bits : ℕ} {n : UInt64}

theorem asUsize_64 (n : UInt64) : asUsize 64 n = n.toNat := Nat.mod_eq_of_lt n.toNat_lt

theorem tryUsize_64 (n : UInt64) : tryUsize 64 n = some n.toNat := if_pos n.toNat_lt

theorem tryUsize_eq_some {index : ℕ} :
    tryUsize bits n = some index ↔ n.toNat < 2 ^ bits ∧ index = n.toNat := by
  unfold tryUsize
  by_cases h : n.toNat < 2 ^ bits
  · simp [h, eq_comm]
  · simp [h]

end HideProtocol.Lib
