import HideProtocol.Lib.Parser

/-!
# Runs of a fallible step

A log is replayed by folding a fallible step over its entries. What such a run says about its
own prefixes, when two runs succeed together, and the rule that a property of numbered states
that turns true does so at some step.
-/

namespace HideProtocol.Lib

section Run
variable {ε σ α : Type} {step : σ → α → Except ε σ} {start final : σ} {xs : List α}

/-- A run that succeeds has succeeded on each of its prefixes, and goes on from there. -/
theorem run_take (h : xs.foldlM step start = .ok final) (i : ℕ) :
    ∃ mid, (xs.take i).foldlM step start = .ok mid ∧ (xs.drop i).foldlM step mid = .ok final := by
  rw [← List.take_append_drop i xs, List.foldlM_append] at h
  exact bind_eq_ok.mp h

/-- The step a successful run takes at position `i`, between the runs over the prefixes that
end before and after it. -/
theorem run_step (h : xs.foldlM step start = .ok final) {i : ℕ} {x : α} (hx : xs[i]? = some x) :
    ∃ before after, (xs.take i).foldlM step start = .ok before ∧ step before x = .ok after ∧
      (xs.take (i + 1)).foldlM step start = .ok after := by
  obtain ⟨after, hafter, -⟩ := run_take h (i + 1)
  have hsplit := hafter
  rw [List.take_add_one, hx, List.foldlM_append] at hsplit
  obtain ⟨before, hbefore, hstep⟩ := bind_eq_ok.mp hsplit
  have hlast : step before x = .ok after := by simpa using hstep
  exact ⟨before, after, hbefore, hlast, hafter⟩

end Run

/-! ## Two runs side by side -/

section Matches
variable {ε ε' σ σ' τ τ' α α' : Type}

/-- Two fallible computations that succeed together, with related results. -/
def Matches (related : σ → σ' → Prop) : Except ε σ → Except ε' σ' → Prop
  | .ok s, .ok s' => related s s'
  | .error _, .error _ => True
  | .ok _, .error _ => False
  | .error _, .ok _ => False

namespace Matches
variable {related : σ → σ' → Prop} {x : Except ε σ} {y : Except ε' σ'}

theorem ok_right (h : Matches related x y) {s : σ} (hx : x = .ok s) :
    ∃ s', y = .ok s' ∧ related s s' := by
  subst hx
  cases y with
  | error _ => exact h.elim
  | ok s' => exact ⟨s', rfl, h⟩

theorem ok_left (h : Matches related x y) {s' : σ'} (hy : y = .ok s') :
    ∃ s, x = .ok s ∧ related s s' := by
  subst hy
  cases x with
  | error _ => exact h.elim
  | ok s => exact ⟨s, rfl, h⟩

theorem of_ok (hright : ∀ s, x = .ok s → ∃ s', y = .ok s' ∧ related s s')
    (hleft : ∀ s', y = .ok s' → ∃ s, x = .ok s) : Matches related x y := by
  cases x with
  | ok s =>
    obtain ⟨s', rfl, hrelated⟩ := hright s rfl
    exact hrelated
  | error e =>
    cases y with
    | error e' => trivial
    | ok s' =>
      obtain ⟨s, hs⟩ := hleft s' rfl
      cases hs

theorem imp {related' : σ → σ' → Prop} (h : Matches related x y)
    (himp : ∀ s s', related s s' → related' s s') : Matches related' x y := by
  apply of_ok
  · intro s hx
    obtain ⟨s', hy, hrelated⟩ := h.ok_right hx
    exact ⟨s', hy, himp s s' hrelated⟩
  · intro s' hy
    obtain ⟨s, hx, -⟩ := h.ok_left hy
    exact ⟨s, hx⟩

theorem bind {related' : τ → τ' → Prop} (h : Matches related x y) {f : σ → Except ε τ}
    {g : σ' → Except ε' τ'} (hfg : ∀ s s', related s s' → Matches related' (f s) (g s')) :
    Matches related' (x >>= f) (y >>= g) := by
  cases x with
  | ok s =>
    cases y with
    | ok s' => exact hfg s s' h
    | error _ => exact h.elim
  | error _ =>
    cases y with
    | ok s' => exact h.elim
    | error _ => trivial

/-- Other errors, the same verdict. -/
theorem mapErr {δ δ' : Type} {f : ε → δ} {g : ε' → δ'} (h : Matches related x y) :
    Matches related (Lib.mapErr f x) (Lib.mapErr g y) := by
  cases x with
  | ok s =>
    cases y with
    | ok s' => exact h
    | error _ => exact h.elim
  | error _ =>
    cases y with
    | ok s' => exact h.elim
    | error _ => trivial

/-- Two checks of the same condition, in front of what follows. -/
theorem check {related' : τ → τ' → Prop} {c c' : Prop} [Decidable c] [Decidable c'] {e : ε}
    {e' : ε'} (hc : c ↔ c') {r : Except ε τ} {r' : Except ε' τ'}
    (h : ¬c → Matches related' r r') :
    Matches related' (do failIf c e; r) (do failIf c' e'; r') := by
  by_cases hcond : c
  · rw [failIf_pos _ hcond, failIf_pos _ (hc.mp hcond)]
    trivial
  · rw [failIf_neg _ hcond, failIf_neg _ (mt hc.mpr hcond)]
    exact h hcond

/-- Steps that match make runs that match. -/
theorem run {step : σ → α → Except ε σ} {step' : σ' → α' → Except ε' σ'} {f : α → α'}
    {xs : List α}
    (h : ∀ a ∈ xs, ∀ s s', related s s' → Matches related (step s a) (step' s' (f a)))
    {s : σ} {s' : σ'} (hs : related s s') :
    Matches related (xs.foldlM step s) ((xs.map f).foldlM step' s') := by
  induction xs generalizing s s' with
  | nil => exact hs
  | cons a xs ih =>
    rw [List.map_cons, List.foldlM_cons, List.foldlM_cons]
    apply (h a List.mem_cons_self s s' hs).bind
    intro t t' ht
    exact ih (fun b hb => h b (List.mem_cons_of_mem _ hb)) ht

end Matches

end Matches

/-! ## The same verdict for the same reason -/

section Alike
variable {ε ε' σ σ' τ τ' α : Type} {related : σ → σ' → Prop} {same : ε → ε' → Prop}
  {x : Except ε σ} {y : Except ε' σ'}

/-- Two fallible results are both accepted, with related values, or both refused, with related
errors. -/
def Alike (related : σ → σ' → Prop) (same : ε → ε' → Prop) : Except ε σ → Except ε' σ' → Prop
  | .ok s, .ok s' => related s s'
  | .error e, .error e' => same e e'
  | _, _ => False

namespace Alike

theorem toMatches (h : Alike related same x y) : Matches related x y := by
  cases x with
  | ok s =>
    cases y with
    | ok s' => exact h
    | error _ => exact h.elim
  | error _ =>
    cases y with
    | ok s' => exact h.elim
    | error _ => trivial

theorem bind {related' : τ → τ' → Prop} (h : Alike related same x y) {f : σ → Except ε τ}
    {g : σ' → Except ε' τ'} (hfg : ∀ s s', related s s' → Alike related' same (f s) (g s')) :
    Alike related' same (x >>= f) (y >>= g) := by
  cases x with
  | ok s =>
    cases y with
    | ok s' => exact hfg s s' h
    | error _ => exact h.elim
  | error _ =>
    cases y with
    | ok s' => exact h.elim
    | error _ => exact h

/-- The value of one side, turned into another. -/
theorem pure_left {related' : τ → σ' → Prop} {g : σ → τ} (h : Alike related same x y)
    (hg : ∀ s s', x = .ok s → related s s' → related' (g s) s') :
    Alike related' same (do let s ← x; pure (g s)) y := by
  cases x with
  | ok s =>
    cases y with
    | ok s' => exact hg s s' rfl h
    | error _ => exact h.elim
  | error _ =>
    cases y with
    | ok s' => exact h.elim
    | error _ => exact h

/-- Two checks of the same condition, in front of what follows. -/
theorem check {c c' : Prop} [Decidable c] [Decidable c'] {e : ε} {e' : ε'} (hc : c ↔ c')
    (he : same e e') (h : ¬c → Alike related same x y) :
    Alike related same (do failIf c e; x) (do failIf c' e'; y) := by
  by_cases hcond : c
  · rw [failIf_pos _ hcond, failIf_pos _ (hc.mp hcond)]
    exact he
  · rw [failIf_neg _ hcond, failIf_neg _ (mt hc.mpr hcond)]
    exact h hcond

/-- Two checks that nothing follows. -/
theorem lastCheck {c c' : Prop} [Decidable c] [Decidable c'] {e : ε} {e' : ε'} (hc : c ↔ c')
    (he : same e e') : Alike (fun _ _ => True) same (failIf c e) (failIf c' e') := by
  by_cases hcond : c
  · rw [failIf_pos _ hcond, failIf_pos _ (hc.mp hcond)]
    exact he
  · rw [failIf_neg _ hcond, failIf_neg _ (mt hc.mpr hcond)]
    trivial

/-- Steps that are alike make runs that are alike. -/
theorem run {step : σ → α → Except ε σ} {β : Type} {step' : σ' → β → Except ε' σ'} {f : α → β}
    {xs : List α}
    (h : ∀ a ∈ xs, ∀ s s', related s s' → Alike related same (step s a) (step' s' (f a)))
    {s : σ} {s' : σ'} (hs : related s s') :
    Alike related same (xs.foldlM step s) ((xs.map f).foldlM step' s') := by
  induction xs generalizing s s' with
  | nil => exact hs
  | cons a xs ih =>
    rw [List.map_cons, List.foldlM_cons, List.foldlM_cons]
    apply (h a List.mem_cons_self s s' hs).bind
    intro t t' ht
    exact ih (fun b hb => h b (List.mem_cons_of_mem _ hb)) ht

end Alike

end Alike

/-- Numbering a prefix is a prefix of the numbering. -/
theorem take_zipIdx {α : Type} (xs : List α) (i : ℕ) : xs.zipIdx.take i = (xs.take i).zipIdx := by
  apply List.ext_getElem?
  intro j
  by_cases hj : j < i
  · rw [List.getElem?_take_of_lt hj, List.getElem?_zipIdx, List.getElem?_zipIdx,
      List.getElem?_take_of_lt hj]
  · rw [List.getElem?_eq_none (by simp; omega), List.getElem?_eq_none (by simp; omega)]

/-- A property that fails at `n` and holds at `m` turns true at some step between them. -/
theorem exists_turn {p : ℕ → Prop} {n m : ℕ} (hle : n ≤ m) (hn : ¬p n) (hm : p m) :
    ∃ k, n ≤ k ∧ k < m ∧ ¬p k ∧ p (k + 1) := by
  induction m, hle using Nat.le_induction with
  | base => exact absurd hm hn
  | succ m hle ih =>
    by_cases hpm : p m
    · obtain ⟨k, h₁, h₂, h₃⟩ := ih hpm
      exact ⟨k, h₁, by omega, h₃⟩
    · exact ⟨m, hle, by omega, hpm, hm⟩

/-! ## The latest position -/

section Latest
variable {p : ℕ → Prop} {n i : ℕ}

/-- `i` is the last position below `n` at which `p` holds. -/
def LatestBelow (p : ℕ → Prop) (n i : ℕ) : Prop := i < n ∧ p i ∧ ∀ j, i < j → j < n → ¬p j

theorem LatestBelow.here (h : p n) : LatestBelow p (n + 1) n :=
  ⟨Nat.lt_succ_self n, h, fun j hj hlt => by omega⟩

/-- A step at which `p` does not hold leaves the last position where it was. -/
theorem LatestBelow.step (h : LatestBelow p n i) (hn : ¬p n) : LatestBelow p (n + 1) i := by
  obtain ⟨hlt, hp, hlast⟩ := h
  refine ⟨by omega, hp, ?_⟩
  intro j hij hj
  by_cases hjn : j = n
  · rw [hjn]
    exact hn
  · exact hlast j hij (by omega)

theorem LatestBelow.unique {j : ℕ} (hi : LatestBelow p n i) (hj : LatestBelow p n j) : i = j := by
  obtain ⟨hin, hpi, hafteri⟩ := hi
  obtain ⟨hjn, hpj, hafterj⟩ := hj
  rcases Nat.lt_trichotomy i j with hlt | heq | hlt
  · exact absurd hpj (hafteri j hlt hjn)
  · exact heq
  · exact absurd hpi (hafterj i hlt hin)

/-- Some position below `n + 1` is below `n`, or is `n`. -/
theorem exists_below_succ : (∃ i < n + 1, p i) ↔ (∃ i < n, p i) ∨ p n := by
  constructor
  · intro ⟨i, hi, hp⟩
    by_cases hin : i = n
    · right
      rwa [← hin]
    · left
      exact ⟨i, by omega, hp⟩
  · rintro (⟨i, hi, hp⟩ | hp)
    · exact ⟨i, by omega, hp⟩
    · exact ⟨n, by omega, hp⟩

end Latest

end HideProtocol.Lib
