import Mathlib.Data.List.Basic

/-!
# Collisions among what was hashed

A statement that rests on a hash function being injective ends in "or two different inputs
have one digest". Digests are finite and inputs are not, so some such pair always exists: what
a theorem exhibits is a pair among the inputs that were really hashed, given as a list.
-/

namespace HideProtocol.Lib

variable {α β : Type} {hash : α → β} {inputs : List α}

/-- Two different members of `inputs` have one digest. -/
def Collides (hash : α → β) (inputs : List α) : Prop :=
  ∃ a ∈ inputs, ∃ b ∈ inputs, a ≠ b ∧ hash a = hash b

theorem Collides.mono {more : List α} (h : Collides hash inputs) (hmore : inputs ⊆ more) :
    Collides hash more := by
  obtain ⟨a, ha, b, hb, hne, heq⟩ := h
  exact ⟨a, hmore ha, b, hmore hb, hne, heq⟩

theorem not_collides_self {a : α} : ¬Collides hash [a, a] := by
  rintro ⟨x, hx, y, hy, hne, -⟩
  simp only [List.mem_cons, List.not_mem_nil, or_false, or_self] at hx hy
  exact hne (hx.trans hy.symm)

/-- Equal digests come from equal inputs, or the inputs collide. -/
theorem eq_or_collides {a b : α} (ha : a ∈ inputs) (hb : b ∈ inputs) (h : hash a = hash b) :
    a = b ∨ Collides hash inputs := by
  by_cases heq : a = b
  · left
    exact heq
  · right
    exact ⟨a, ha, b, hb, heq, h⟩

end HideProtocol.Lib
