import HideProtocol.Lib.Montgomery

/-!
# Doubling on a twisted Edwards curve

Points of `y² - x² = 1 + d x² y²` over a field in which `-1` is a square and `d` is not: the
addition has no exceptions, and the identity is `(0, 1)`. The points that three doublings bring
there are found by their `y` alone: first one and minus one, then zero, then the coordinates of the
points of order eight.
-/

namespace HideProtocol.Lib.Edwards

open Montgomery (isSquare_of_mul_sq)

variable {F : Type} [Field F]

def OnCurve (d : F) (P : F × F) : Prop := P.2 ^ 2 - P.1 ^ 2 = 1 + d * P.1 ^ 2 * P.2 ^ 2

def identity : F × F := (0, 1)

/-- The addition, for two points that may be the same. -/
def add (d : F) (P Q : F × F) : F × F :=
  ((P.1 * Q.2 + Q.1 * P.2) / (1 + d * P.1 * Q.1 * P.2 * Q.2),
    (P.2 * Q.2 + P.1 * Q.1) / (1 - d * P.1 * Q.1 * P.2 * Q.2))

def double (d : F) (P : F × F) : F × F := add d P P

/-- A coefficient for which the points of low order are known: `y` is a coordinate of order
eight. -/
structure Coefficient (d i y : F) : Prop where
  two_ne_zero : (2 : F) ≠ 0
  nonsquare : ¬IsSquare d
  root : i ^ 2 = -1
  low : d * y ^ 4 + 2 * y ^ 2 = 1

variable {d i y₁ : F} (h : Coefficient d i y₁) {P : F × F} (hP : OnCurve d P)
include h

/-- The coefficient times a square is not minus one. -/
theorem mul_sq_ne_neg_one (c : F) : d * c ^ 2 ≠ -1 := by
  intro heq
  by_cases hc : c = 0
  · rw [hc] at heq
    have hone : (1 : F) = 0 := by linear_combination heq
    exact one_ne_zero hone
  · exact h.nonsquare (isSquare_of_mul_sq hc (heq.trans h.root.symm))

theorem mul_sq_ne_one (c : F) : d * c ^ 2 ≠ 1 := by
  intro heq
  apply mul_sq_ne_neg_one h (i * c)
  linear_combination d * c ^ 2 * h.root - heq

theorem one_add_ne_zero : 1 + d ≠ 0 := by
  intro heq
  apply mul_sq_ne_neg_one h 1
  linear_combination heq

theorem plus_ne_zero (P : F × F) : 1 + d * P.1 * P.1 * P.2 * P.2 ≠ 0 := by
  intro heq
  apply mul_sq_ne_neg_one h (P.1 * P.2)
  linear_combination heq

theorem minus_ne_zero (P : F × F) : 1 - d * P.1 * P.1 * P.2 * P.2 ≠ 0 := by
  intro heq
  apply mul_sq_ne_one h (P.1 * P.2)
  linear_combination -heq

theorem double_fst (P : F × F) :
    (double d P).1 * (1 + d * P.1 * P.1 * P.2 * P.2) = 2 * P.1 * P.2 := by
  have hdiv := div_mul_cancel₀ (P.1 * P.2 + P.1 * P.2) (plus_ne_zero h P)
  show (P.1 * P.2 + P.1 * P.2) / (1 + d * P.1 * P.1 * P.2 * P.2) * _ = _
  linear_combination hdiv

theorem double_snd (P : F × F) :
    (double d P).2 * (1 - d * P.1 * P.1 * P.2 * P.2) = P.1 ^ 2 + P.2 ^ 2 := by
  have hdiv := div_mul_cancel₀ (P.2 * P.2 + P.1 * P.1) (minus_ne_zero h P)
  show (P.2 * P.2 + P.1 * P.1) / (1 - d * P.1 * P.1 * P.2 * P.2) * _ = _
  linear_combination hdiv

/-! ## One doubling -/

include hP

/-- The double of a point of the curve is on the curve. -/
theorem onCurve_double : OnCurve d (double d P) := by
  have hplus := plus_ne_zero h P
  have hminus := minus_ne_zero h P
  have hfst := double_fst h P
  have hsnd := double_snd h P
  unfold OnCurve at hP ⊢
  generalize double d P = Q at hfst hsnd ⊢
  apply mul_right_cancel₀ (pow_ne_zero 2 (mul_ne_zero hplus hminus))
  generalize hA : 1 + d * P.1 * P.1 * P.2 * P.2 = A at hfst
  generalize hB : 1 - d * P.1 * P.1 * P.2 * P.2 = B at hsnd
  have hcurve : P.2 ^ 2 - P.1 ^ 2 = A := by linear_combination hP + hA
  have hsquare : B ^ 2 = A ^ 2 - 4 * d * P.1 ^ 2 * P.2 ^ 2 := by
    rw [← hA, ← hB]
    ring
  have hfst : Q.1 ^ 2 * A ^ 2 = (2 * P.1 * P.2) ^ 2 := by rw [← hfst, mul_pow]
  have hsnd : Q.2 ^ 2 * B ^ 2 = (P.1 ^ 2 + P.2 ^ 2) ^ 2 := by rw [← hsnd, mul_pow]
  linear_combination A ^ 2 * hsnd - B ^ 2 * hfst - d * (Q.2 ^ 2 * B ^ 2) * hfst -
    4 * d * P.1 ^ 2 * P.2 ^ 2 * hsnd + B ^ 2 * (P.2 ^ 2 - P.1 ^ 2 + A) * hcurve -
    (P.1 ^ 2 + P.2 ^ 2) ^ 2 * hsquare

theorem fst_eq_zero (hsnd : P.2 ^ 2 = 1) : P.1 = 0 := by
  unfold OnCurve at hP
  have hmul : (1 + d) * P.1 ^ 2 = 0 := by
    linear_combination -hP + (1 - d * P.1 ^ 2) * hsnd
  rcases mul_eq_zero.mp hmul with heq | heq
  · exact absurd heq (one_add_ne_zero h)
  · exact pow_eq_zero_iff two_ne_zero |>.mp heq

/-- The double has `y = 1` for the points with `y` one or minus one. -/
theorem double_eq_one_iff : (double d P).2 = 1 ↔ P.2 ^ 2 = 1 := by
  have hsnd := double_snd h P
  constructor
  · intro heq
    rw [heq] at hsnd
    unfold OnCurve at hP
    apply mul_left_cancel₀ h.two_ne_zero
    linear_combination hP - hsnd
  · intro heq
    have hzero := fst_eq_zero h hP heq
    rw [hzero] at hsnd
    linear_combination hsnd + heq

/-- It has `y = -1` for those with `y` zero. -/
theorem double_eq_neg_one_iff : (double d P).2 = -1 ↔ P.2 = 0 := by
  have hsnd := double_snd h P
  unfold OnCurve at hP
  constructor
  · intro heq
    rw [heq] at hsnd
    have hfst : P.1 ^ 2 = -1 := by
      apply mul_left_cancel₀ h.two_ne_zero
      linear_combination -hP - hsnd
    have hmul : (1 + d) * P.2 ^ 2 = 0 := by
      linear_combination hP + (1 + d * P.2 ^ 2) * hfst
    rcases mul_eq_zero.mp hmul with heq | heq
    · exact absurd heq (one_add_ne_zero h)
    · exact pow_eq_zero_iff two_ne_zero |>.mp heq
  · intro heq
    rw [heq] at hsnd hP
    linear_combination hsnd - hP

/-- It has `y = 0` for those with a `y` of order eight. -/
theorem double_eq_zero_iff : (double d P).2 = 0 ↔ P.2 ^ 2 = y₁ ^ 2 := by
  have hsnd := double_snd h P
  unfold OnCurve at hP
  constructor
  · intro heq
    rw [heq] at hsnd
    have hfst : P.1 ^ 2 = -P.2 ^ 2 := by linear_combination -hsnd
    have hmul : (P.2 ^ 2 - y₁ ^ 2) * (d * P.2 ^ 2 + (2 + d * y₁ ^ 2)) = 0 := by
      linear_combination hP - h.low + (1 + d * P.2 ^ 2) * hfst
    rcases mul_eq_zero.mp hmul with heq | heq
    · linear_combination heq
    · -- the other factor makes a square of the coefficient
      exfalso
      apply h.nonsquare
      refine ⟨i * d * P.2 * y₁, ?_⟩
      linear_combination -d * h.low + d * y₁ ^ 2 * heq - d ^ 2 * P.2 ^ 2 * y₁ ^ 2 * h.root
  · intro heq
    have hmul : (1 + d * P.2 ^ 2) * (P.1 ^ 2 + P.2 ^ 2) = 0 := by
      linear_combination h.low - hP + (d * P.2 ^ 2 + d * y₁ ^ 2 + 2) * heq
    rcases mul_eq_zero.mp hmul with heq | heq
    · exact absurd (by linear_combination heq) (mul_sq_ne_neg_one h P.2)
    · rw [heq] at hsnd
      exact (mul_eq_zero.mp hsnd).resolve_right (minus_ne_zero h P)

/-! ## Three doublings -/

omit hP in
/-- The five coordinates are those of points of the curve. -/
theorem exists_onCurve {y : F} (hy : y = 0 ∨ y = 1 ∨ y = -1 ∨ y = y₁ ∨ y = -y₁) :
    ∃ x, OnCurve d (x, y) := by
  unfold OnCurve
  rcases hy with hy | hy | hy | hy | hy
  · refine ⟨i, ?_⟩
    rw [hy]
    linear_combination -h.root
  · refine ⟨0, ?_⟩
    rw [hy]
    ring
  · refine ⟨0, ?_⟩
    rw [hy]
    ring
  · refine ⟨i * y₁, ?_⟩
    rw [hy]
    linear_combination h.low - (y₁ ^ 2 + d * y₁ ^ 4) * h.root
  · refine ⟨i * y₁, ?_⟩
    rw [hy]
    linear_combination h.low - (y₁ ^ 2 + d * y₁ ^ 4) * h.root

/-- **Points of low order.** Three doublings come to the identity for five coordinates. -/
theorem third_eq_identity_iff : (double d)^[3] P = identity ↔
    P.2 = 0 ∨ P.2 = 1 ∨ P.2 = -1 ∨ P.2 = y₁ ∨ P.2 = -y₁ := by
  have hfirst := onCurve_double h hP
  have hsecond := onCurve_double h hfirst
  have hthird := onCurve_double h hsecond
  have hsnd : (double d)^[3] P = identity ↔ ((double d)^[3] P).2 = 1 := by
    constructor
    · intro heq
      rw [heq]
      rfl
    · intro heq
      apply Prod.ext
      · apply fst_eq_zero h hthird
        show ((double d)^[3] P).2 ^ 2 = 1
        rw [heq, one_pow]
      · exact heq
  rw [hsnd]
  show (double d (double d (double d P))).2 = 1 ↔ _
  rw [double_eq_one_iff h hsecond, sq_eq_one_iff, double_eq_one_iff h hfirst,
    double_eq_neg_one_iff h hfirst, sq_eq_one_iff, double_eq_one_iff h hP,
    double_eq_neg_one_iff h hP, double_eq_zero_iff h hP, sq_eq_one_iff,
    sq_eq_sq_iff_eq_or_eq_neg]
  tauto

end HideProtocol.Lib.Edwards
