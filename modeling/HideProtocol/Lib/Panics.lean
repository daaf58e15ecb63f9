import HideProtocol.Lib.Parser

/-!
# Calls that may panic

Slicing out of range and expecting what is not there end a program with a panic. A decoder written
with such steps never panics if it returns what a total one returns: `bind_returns` shows this
step by step.
-/

namespace HideProtocol.Lib

variable {ε α β : Type}

/-- What a fallible call comes to: it returns, or it panics, and then there is nothing. -/
abbrev Panics (ε α : Type) := ExceptT ε Option α

namespace Panics

/-- A call that returns. -/
def returns (x : Except ε α) : Panics ε α := ExceptT.mk (some x)

/-- A panic. -/
def panicked : Panics ε α := ExceptT.mk none

/-- `&bytes[start..stop]`. -/
def slice (bytes : Bytes) (start stop : ℕ) : Panics ε Bytes :=
  if start ≤ stop ∧ stop ≤ bytes.length then returns (.ok ((bytes.drop start).take (stop - start)))
  else panicked

/-- `bytes.split_at(n)`. -/
def splitAt (n : ℕ) (bytes : Bytes) : Panics ε (Bytes × Bytes) :=
  if n ≤ bytes.length then returns (.ok (bytes.take n, bytes.drop n)) else panicked

/-- `x.expect(..)`. -/
def expect : Option α → Panics ε α
  | some a => returns (.ok a)
  | none => panicked

theorem returns_ok_bind (a : α) (f : α → Panics ε β) : (returns (.ok a) >>= f) = f a := rfl

theorem slice_of_le {bytes : Bytes} {start stop : ℕ} (h : start ≤ stop) (hstop : stop ≤ bytes.length) :
    (slice bytes start stop : Panics ε Bytes) =
      returns (.ok ((bytes.drop start).take (stop - start))) := if_pos ⟨h, hstop⟩

theorem splitAt_of_le {n : ℕ} {bytes : Bytes} (h : n ≤ bytes.length) :
    (splitAt n bytes : Panics ε (Bytes × Bytes)) = returns (.ok (bytes.take n, bytes.drop n)) :=
  if_pos h

theorem expect_some (a : α) : (expect (some a) : Panics ε α) = returns (.ok a) := rfl

/-- A call that returns, followed by calls that return on its results. -/
theorem bind_returns {x : Except ε α} {f : α → Panics ε β} {g : α → Except ε β}
    (h : ∀ a, x = .ok a → f a = returns (g a)) : (returns x >>= f) = returns (x >>= g) := by
  cases x with
  | error e => rfl
  | ok a => exact h a rfl

end Panics

end HideProtocol.Lib
