import Mathlib.Algebra.Order.Ring.Nat
import Mathlib.Tactic.NormNum

/-!
# Steps that may panic, and loops over them

Arithmetic on 64-bit words in a build with overflow checks: an operation that would wrap around
panics, and then there is nothing. A loop is a test and a body over the variables it changes. What
every iteration keeps holds in every state that the loop reaches; and if some measure gets smaller
in every iteration, the loop ends, after at most as many iterations as the measure says.
-/

namespace HideProtocol.Lib

/-! ## Arithmetic -/

/-- `a - b`, which panics below zero. -/
def checkedSub (a b : UInt64) : Option UInt64 := if b ≤ a then some (a - b) else none

/-- `n.ilog2()`, which panics at zero. -/
def ilog2 (n : UInt64) : Option ℕ := if n = 0 then none else some n.toNat.log2

/-- `n << k`, which panics unless `k` is below the width. -/
def checkedShl (n : UInt64) (k : ℕ) : Option UInt64 :=
  if k < 64 then some (n <<< UInt64.ofNat k) else none

theorem checkedSub_of_le {a b : UInt64} (h : b ≤ a) :
    ∃ c, checkedSub a b = some c ∧ c.toNat = a.toNat - b.toNat :=
  ⟨a - b, if_pos h, UInt64.toNat_sub_of_le a b h⟩

theorem ilog2_of_pos {n : UInt64} (h : 0 < n.toNat) : ilog2 n = some n.toNat.log2 := by
  have hne : n ≠ 0 := by
    rintro rfl
    exact Nat.lt_irrefl 0 h
  exact if_neg hne

/-- The logarithm of a word numbers one of its bits, so a shift by it stays inside the word. -/
theorem log2_toNat_lt (n : UInt64) : n.toNat.log2 < 64 := by
  by_cases h : n.toNat = 0
  · rw [h]
    decide
  · exact (Nat.log2_lt h).mpr n.toNat_lt

theorem checkedShl_one {k : ℕ} (h : k < 64) : ∃ c, checkedShl 1 k = some c ∧ c.toNat = 2 ^ k := by
  have hk : (UInt64.ofNat k).toNat = k := by
    rw [UInt64.toNat_ofNat', Nat.mod_eq_of_lt (h.trans (by norm_num))]
  have hpow : 2 ^ k < 2 ^ 64 := Nat.pow_lt_pow_right (by norm_num) h
  refine ⟨1 <<< UInt64.ofNat k, if_pos h, ?_⟩
  rw [UInt64.toNat_shiftLeft, hk, Nat.mod_eq_of_lt h, UInt64.toNat_one, Nat.one_shiftLeft,
    Nat.mod_eq_of_lt hpow]

/-! ## Loops -/

/-- `while test { body }`. A body that panics leaves nothing. -/
structure While (σ : Type) where
  test : σ → Bool
  body : σ → Option σ

namespace While
variable {σ : Type}

/-- The variables after `n` iterations, if the loop makes so many. -/
def after (loop : While σ) : ℕ → σ → Option σ
  | 0, s => some s
  | n + 1, s => if loop.test s then (loop.body s).bind (loop.after n) else none

/-- The loop makes `n` iterations and then stops, with the variables `t`. -/
def Ends (loop : While σ) (s : σ) (n : ℕ) (t : σ) : Prop :=
  loop.after n s = some t ∧ loop.test t = false

/-- Runs the loop to its end, in at most `limit` iterations. -/
def run (loop : While σ) (limit : ℕ) (s : σ) : Option σ :=
  if loop.test s then
    match limit with
    | 0 => none
    | limit + 1 => (loop.body s).bind (loop.run limit)
  else some s

/-- Every iteration finds `inv` and goes through, and there are at most `limit` of them. -/
structure Safe (loop : While σ) (inv : σ → Prop) (limit : ℕ) (s : σ) : Prop where
  keeps : ∀ n t, loop.after n s = some t → inv t
  goes : ∀ n t, loop.after n s = some t → loop.test t = true → loop.body t ≠ none
  ends : ∃ n ≤ limit, ∃ t, loop.Ends s n t

variable {loop : While σ} {inv : σ → Prop} {s t : σ} {n : ℕ}

theorem after_succ_eq_some : loop.after (n + 1) s = some t ↔
    loop.test s = true ∧ ∃ u, loop.body s = some u ∧ loop.after n u = some t := by
  rw [after]
  by_cases h : loop.test s = true
  · rw [if_pos h, Option.bind_eq_some_iff, and_iff_right h]
  · rw [if_neg h]
    simp [h]

/-- A loop that ends in time runs to its end. -/
theorem Ends.run_eq (h : loop.Ends s n t) {limit : ℕ} (hlimit : n ≤ limit) :
    loop.run limit s = some t := by
  induction n generalizing s limit with
  | zero =>
    obtain ⟨hafter, hstop⟩ := h
    cases hafter
    rw [run.eq_def, if_neg (by simp [hstop])]
  | succ n ih =>
    obtain ⟨htest, u, hbody, hrest⟩ := after_succ_eq_some.mp h.1
    cases limit with
    | zero => omega
    | succ limit =>
      rw [run.eq_def, if_pos htest]
      show (loop.body s).bind (loop.run limit) = some t
      rw [hbody, Option.bind_some]
      exact ih ⟨hrest, h.2⟩ (by omega)

/-- What every iteration keeps holds after any number of them. -/
theorem inv_of_after
    (hstep : ∀ s t, inv s → loop.test s = true → loop.body s = some t → inv t) (hs : inv s)
    (h : loop.after n s = some t) : inv t := by
  induction n generalizing s with
  | zero =>
    cases h
    exact hs
  | succ n ih =>
    obtain ⟨htest, u, hbody, hrest⟩ := after_succ_eq_some.mp h
    exact ih (hstep s u hs htest hbody) hrest

theorem Safe.imp {inv' : σ → Prop} {limit : ℕ} (h : loop.Safe inv limit s)
    (himp : ∀ t, inv t → inv' t) : loop.Safe inv' limit s where
  keeps n t hafter := himp t (h.keeps n t hafter)
  goes := h.goes
  ends := h.ends

section Measure
variable {measure : σ → ℕ}

/-- Iterations that make a measure smaller are no more than it says. The induction is on the
measure, which a loop that goes on has not used up. -/
theorem ends_of_step
    (hstep : ∀ s, inv s → loop.test s = true →
      ∃ t, loop.body s = some t ∧ inv t ∧ measure t < measure s)
    {limit : ℕ} (hs : inv s) (hlimit : measure s ≤ limit) :
    ∃ n ≤ limit, ∃ t, loop.Ends s n t := by
  induction limit generalizing s with
  | zero =>
    refine ⟨0, le_rfl, s, rfl, ?_⟩
    by_contra htest
    obtain ⟨t, -, -, hless⟩ := hstep s hs (by simpa using htest)
    omega
  | succ limit ih =>
    by_cases htest : loop.test s = true
    · obtain ⟨t, hbody, hinv, hless⟩ := hstep s hs htest
      obtain ⟨n, hn, u, hafter, hstop⟩ := ih hinv (by omega)
      exact ⟨n + 1, by omega, u, after_succ_eq_some.mpr ⟨htest, t, hbody, hafter⟩, hstop⟩
    · exact ⟨0, Nat.zero_le _, s, rfl, by simpa using htest⟩

/-- The rule for safe loops: from the invariant, an iteration goes through, keeps the invariant and
makes the measure smaller. -/
theorem safe_of_step
    (hstep : ∀ s, inv s → loop.test s = true →
      ∃ t, loop.body s = some t ∧ inv t ∧ measure t < measure s)
    {limit : ℕ} (hs : inv s) (hlimit : measure s ≤ limit) : loop.Safe inv limit s := by
  have hkeeps : ∀ n t, loop.after n s = some t → inv t := by
    intro n t h
    refine inv_of_after ?_ hs h
    intro s t hinv htest hbody
    obtain ⟨u, hbody', hnext, -⟩ := hstep s hinv htest
    have hsame : t = u := Option.some.inj (hbody.symm.trans hbody')
    rw [hsame]
    exact hnext
  refine ⟨hkeeps, ?_, ends_of_step hstep hs hlimit⟩
  intro n t h htest
  obtain ⟨u, hbody, -⟩ := hstep t (hkeeps n t h) htest
  rw [hbody]
  exact Option.some_ne_none u

/-- The same, with a value that no iteration changes. It is the one the loop started with. -/
theorem safe_of_preserves {β : Type} {value : σ → β}
    (hstep : ∀ s, inv s → loop.test s = true →
      ∃ t, loop.body s = some t ∧ (inv t ∧ value t = value s) ∧ measure t < measure s)
    {limit : ℕ} (hs : inv s) (hlimit : measure s ≤ limit) :
    loop.Safe (fun t => inv t ∧ value t = value s) limit s := by
  apply safe_of_step _ ⟨hs, rfl⟩ hlimit
  intro t ht htest
  obtain ⟨u, hbody, ⟨hinv, hvalue⟩, hless⟩ := hstep t ht.1 htest
  exact ⟨u, hbody, ⟨hinv, hvalue.trans ht.2⟩, hless⟩

end Measure

end While

end HideProtocol.Lib
