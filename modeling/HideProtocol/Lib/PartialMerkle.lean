import HideProtocol.Lib.Merkle

/-!
# Merkle trees seen through proofs

Somebody who holds roots only never sees the leaves: an audit path shows one of them under a root,
a consistency path shows that one root extends another. `Includes` and `Extends` say what such
paths show, without the paths, and with every child pair hashed on the way among `pairs`.

Up to a collision among these pairs, `Includes` gives one leaf at most for each place, `Extends` is
an order, and the extensions of a root keep its leaves. So roots that extend one another stand for
one growing list, though no list was ever seen.
-/

namespace HideProtocol.Lib.Merkle

variable {H : Type}

/-- `leaf` stands at `index` under the root of a tree of `size` leaves. -/
inductive Includes (node : H → H → H) (pairs : List (H × H)) :
    (index size : ℕ) → (leaf root : H) → Prop where
  | leaf (leaf : H) : Includes node pairs 0 1 leaf leaf
  | left {index size : ℕ} {leaf below sibling : H} (h2 : 2 ≤ size)
      (hturn : index < splitPoint size)
      (hbelow : Includes node pairs index (splitPoint size) leaf below)
      (hpair : (below, sibling) ∈ pairs) :
      Includes node pairs index size leaf (node below sibling)
  | right {index size : ℕ} {leaf below sibling : H} (h2 : 2 ≤ size)
      (hturn : splitPoint size ≤ index)
      (hbelow : Includes node pairs (index - splitPoint size) (size - splitPoint size) leaf below)
      (hpair : (sibling, below) ∈ pairs) :
      Includes node pairs index size leaf (node sibling below)

/-- The root of a tree of `new` leaves extends the root of one of `old` leaves. Past a left turn
the sibling is all new; past a right turn it belongs to both trees. -/
inductive Extends (node : H → H → H) (pairs : List (H × H)) :
    (old new : ℕ) → (oldRoot newRoot : H) → Prop where
  | same {size : ℕ} (root : H) (hpos : 1 ≤ size) : Extends node pairs size size root root
  | left {old new : ℕ} {oldRoot below sibling : H} (h2 : 2 ≤ new) (hturn : old ≤ splitPoint new)
      (hbelow : Extends node pairs old (splitPoint new) oldRoot below)
      (hpair : (below, sibling) ∈ pairs) :
      Extends node pairs old new oldRoot (node below sibling)
  | right {old new : ℕ} {sibling oldBelow newBelow : H} (hturn : splitPoint new < old)
      (hlt : old < new)
      (hbelow : Extends node pairs (old - splitPoint new) (new - splitPoint new) oldBelow newBelow)
      (hold : (sibling, oldBelow) ∈ pairs) (hnew : (sibling, newBelow) ∈ pairs) :
      Extends node pairs old new (node sibling oldBelow) (node sibling newBelow)

variable {node : H → H → H} {pairs more : List (H × H)}

theorem Collision.mono (h : Collision node pairs) (hmore : pairs ⊆ more) :
    Collision node more := by
  obtain ⟨p, hp, q, hq, hne, hnode⟩ := h
  exact ⟨p, hmore hp, q, hmore hq, hne, hnode⟩

/-! ## One leaf for each place -/

section Includes
variable {index size : ℕ} {leaf other root : H}

theorem Includes.lt (h : Includes node pairs index size leaf root) : index < size := by
  induction h with
  | leaf => omega
  | left h2 hturn hbelow hpair ih =>
    have hlt := splitPoint_lt h2
    omega
  | right h2 hturn hbelow hpair ih => omega

theorem Includes.mono (h : Includes node pairs index size leaf root) (hmore : pairs ⊆ more) :
    Includes node more index size leaf root := by
  induction h with
  | leaf => exact .leaf _
  | left h2 hturn hbelow hpair ih => exact .left h2 hturn ih (hmore hpair)
  | right h2 hturn hbelow hpair ih => exact .right h2 hturn ih (hmore hpair)

/-- Undoes a left turn, whatever root it ended in. -/
theorem Includes.of_left {l r : H} (h : Includes node pairs index size leaf root)
    (hroot : root = node l r) (hmem : (l, r) ∈ pairs) (h2 : 2 ≤ size)
    (hturn : index < splitPoint size) :
    Includes node pairs index (splitPoint size) leaf l ∨ Collision node pairs := by
  cases h with
  | leaf => omega
  | left _ _ hbelow hpair =>
    rcases node_inj_or_collision hpair hmem hroot with ⟨hl, -⟩ | hc
    · left
      rw [← hl]
      exact hbelow
    · right
      exact hc
  | right _ hright _ _ => omega

/-- Undoes a right turn. -/
theorem Includes.of_right {l r : H} (h : Includes node pairs index size leaf root)
    (hroot : root = node l r) (hmem : (l, r) ∈ pairs) (h2 : 2 ≤ size)
    (hturn : splitPoint size ≤ index) :
    Includes node pairs (index - splitPoint size) (size - splitPoint size) leaf r ∨
      Collision node pairs := by
  cases h with
  | leaf => omega
  | left _ hleft _ _ => omega
  | right _ _ hbelow hpair =>
    rcases node_inj_or_collision hpair hmem hroot with ⟨-, hr⟩ | hc
    · left
      rw [← hr]
      exact hbelow
    · right
      exact hc

/-- Two leaves shown at one place under one root are the same. -/
theorem Includes.unique (h : Includes node pairs index size leaf root)
    (h' : Includes node pairs index size other root) : leaf = other ∨ Collision node pairs := by
  induction h with
  | leaf =>
    cases h' with
    | leaf => exact Or.inl rfl
    | left h2 _ _ _ => omega
    | right h2 _ _ _ => omega
  | left h2 hturn hbelow hpair ih =>
    rcases h'.of_left rfl hpair h2 hturn with hleft | hc
    · exact ih hleft
    · exact Or.inr hc
  | right h2 hturn hbelow hpair ih =>
    rcases h'.of_right rfl hpair h2 hturn with hright | hc
    · exact ih hright
    · exact Or.inr hc

end Includes

/-! ## An order of roots -/

section Extends
variable {old new : ℕ} {oldRoot newRoot : H}

theorem Extends.le (h : Extends node pairs old new oldRoot newRoot) : 1 ≤ old ∧ old ≤ new := by
  induction h with
  | same root hpos => omega
  | left h2 hturn hbelow hpair ih =>
    have hlt := splitPoint_lt h2
    omega
  | right hturn hlt hbelow hold hnew ih => omega

/-- Nothing but itself extends a root at its own size. -/
theorem Extends.eq_of_size (h : Extends node pairs old new oldRoot newRoot) (hsize : old = new) :
    oldRoot = newRoot := by
  cases h with
  | same => rfl
  | left h2 hturn _ _ =>
    have hlt := splitPoint_lt h2
    omega
  | right hturn hlt _ _ _ => omega

/-- Undoes a left turn. -/
theorem Extends.of_left {l r : H} (h : Extends node pairs old new oldRoot newRoot)
    (hroot : newRoot = node l r) (hmem : (l, r) ∈ pairs) (hturn : old ≤ splitPoint new)
    (hlt : old < new) :
    Extends node pairs old (splitPoint new) oldRoot l ∨ Collision node pairs := by
  cases h with
  | same => omega
  | left _ _ hbelow hpair =>
    rcases node_inj_or_collision hpair hmem hroot with ⟨hl, -⟩ | hc
    · left
      rw [← hl]
      exact hbelow
    · right
      exact hc
  | right hright _ _ _ _ => omega

/-- Undoes a right turn: the old root has the same left child. -/
theorem Extends.of_right {l r : H} (h : Extends node pairs old new oldRoot newRoot)
    (hroot : newRoot = node l r) (hmem : (l, r) ∈ pairs) (hturn : splitPoint new < old)
    (hlt : old < new) :
    (∃ below, oldRoot = node l below ∧ (l, below) ∈ pairs ∧
      Extends node pairs (old - splitPoint new) (new - splitPoint new) below r) ∨
      Collision node pairs := by
  cases h with
  | same => omega
  | left _ hleft _ _ => omega
  | right _ _ hbelow hold hnew =>
    rcases node_inj_or_collision hnew hmem hroot with ⟨hl, hr⟩ | hc
    · left
      rw [← hl, ← hr]
      exact ⟨_, rfl, hold, hbelow⟩
    · right
      exact hc

/-- **Growth keeps the leaves.** A leaf shown under a root stands at the same place under every
root that extends it. -/
theorem Includes.extend {index : ℕ} {leaf : H}
    (h : Includes node pairs index old leaf oldRoot)
    (hgrow : Extends node pairs old new oldRoot newRoot) :
    Includes node pairs index new leaf newRoot ∨ Collision node pairs := by
  induction hgrow generalizing index with
  | same => exact Or.inl h
  | left h2 hturn hbelow hpair ih =>
    have hindex := h.lt
    rcases ih h with hshown | hc
    · exact Or.inl (.left h2 (by omega) hshown hpair)
    · exact Or.inr hc
  | @right old new sibling oldBelow newBelow hturn hlt hbelow hold hnew ih =>
    -- both trees split at the same point, and the old root shows the sibling on the left
    have hpos := splitPoint_pos new
    have hsplit := splitPoint_between hturn (by omega)
    by_cases hindex : index < splitPoint new
    · rcases h.of_left rfl hold (by omega) (by omega) with hleft | hc
      · rw [hsplit] at hleft
        exact Or.inl (.left (by omega) hindex hleft hnew)
      · exact Or.inr hc
    · rcases h.of_right rfl hold (by omega) (by omega) with hright | hc
      · rw [hsplit] at hright
        rcases ih hright with hshown | hc
        · exact Or.inl (.right (by omega) (by omega) hshown hnew)
        · exact Or.inr hc
      · exact Or.inr hc

/-- Extensions compose. -/
theorem Extends.trans {last : ℕ} {lastRoot : H} (h : Extends node pairs old new oldRoot newRoot)
    (h' : Extends node pairs new last newRoot lastRoot) :
    Extends node pairs old last oldRoot lastRoot ∨ Collision node pairs := by
  induction h' generalizing old oldRoot with
  | same => exact Or.inl h
  | left h2 hturn hbelow hpair ih =>
    have hle := h.le
    rcases ih h with hext | hc
    · exact Or.inl (.left h2 (by omega) hext hpair)
    · exact Or.inr hc
  | @right new last sibling newBelow lastBelow hturn hlt hbelow hnew hlast ih =>
    have hle := h.le
    have hpos := splitPoint_pos last
    have hsplit := splitPoint_between hturn (by omega)
    by_cases heq : old = new
    · subst heq
      rw [h.eq_of_size rfl]
      exact Or.inl (.right hturn hlt hbelow hnew hlast)
    by_cases hside : old ≤ splitPoint last
    · rcases h.of_left rfl hnew (by omega) (by omega) with hleft | hc
      · rw [hsplit] at hleft
        exact Or.inl (.left (by omega) hside hleft hlast)
      · exact Or.inr hc
    · rcases h.of_right rfl hnew (by omega) (by omega) with ⟨below, hroot, hmem, hright⟩ | hc
      · rw [hsplit] at hright
        rcases ih hright with hext | hc
        · rw [hroot]
          exact Or.inl (.right (by omega) (by omega) hext hmem hlast)
        · exact Or.inr hc
      · exact Or.inr hc

/-- **What meets was never apart.** Of two roots with a common extension, the larger extends the
smaller. -/
theorem Extends.between {mid : ℕ} {midRoot : H} (h : Extends node pairs old new oldRoot newRoot)
    (h' : Extends node pairs mid new midRoot newRoot) (hle : old ≤ mid) :
    Extends node pairs old mid oldRoot midRoot ∨ Collision node pairs := by
  induction h' generalizing old oldRoot with
  | same => exact Or.inl h
  | left h2 hturn hbelow hpair ih =>
    have hlt := splitPoint_lt h2
    rcases h.of_left rfl hpair (by omega) (by omega) with hleft | hc
    · exact ih hleft hle
    · exact Or.inr hc
  | @right mid new sibling midBelow newBelow hturn hlt hbelow hmid hnew ih =>
    have hpos := splitPoint_pos new
    have hsplit := splitPoint_between hturn (by omega)
    by_cases hside : old ≤ splitPoint new
    · rcases h.of_left rfl hnew hside (by omega) with hleft | hc
      · rw [← hsplit] at hleft
        exact Or.inl (.left (by omega) (by omega) hleft hmid)
      · exact Or.inr hc
    · rcases h.of_right rfl hnew (by omega) (by omega) with ⟨below, hroot, hmem, hright⟩ | hc
      · rcases ih hright (by omega) with hext | hc
        · rw [hroot]
          by_cases heq : old = mid
          · subst heq
            rw [hext.eq_of_size rfl]
            exact Or.inl (.same _ (by omega))
          · rw [← hsplit] at hext
            exact Or.inl (.right (by omega) (by omega) hext hmem hmid)
        · exact Or.inr hc
      · exact Or.inr hc

end Extends

end HideProtocol.Lib.Merkle
