import Mathlib.AlgebraicGeometry.EllipticCurve.Affine.Point
import Mathlib.Tactic.LinearCombination

/-!
# Doubling on a Montgomery curve

The `x`-only doubling of `y² = x³ + A x² + x`, over a field in which `A² - 4` is not a square. The
coordinates that come to `Z = 0` are found one doubling at a time: first zero, then one and minus
one, then the coordinates of the points of order eight. What they are follows from three more facts
about squares.
-/

namespace HideProtocol.Lib.Montgomery

section
variable {F : Type} [Field F]

/-- From `(X : Z)` to the coordinate of twice the point. -/
def xDouble (A : F) (P : F × F) : F × F :=
  ((P.1 ^ 2 - P.2 ^ 2) ^ 2, 4 * P.1 * P.2 * (P.1 ^ 2 + A * P.1 * P.2 + P.2 ^ 2))

/-- Zero stays zero. -/
theorem xDouble_snd_of_zero (A : F) {P : F × F} (h : P.2 = 0) : (xDouble A P).2 = 0 := by
  rw [xDouble, h, mul_zero, zero_mul]

theorem iterate_xDouble_snd_of_zero (A : F) {P : F × F} {n m : ℕ} (hle : n ≤ m)
    (h : ((xDouble A)^[n] P).2 = 0) : ((xDouble A)^[m] P).2 = 0 := by
  induction m, hle using Nat.le_induction with
  | base => exact h
  | succ m _ ih =>
    rw [Function.iterate_succ_apply']
    exact xDouble_snd_of_zero A ih

/-- An equation of squares with a factor that is not zero. -/
theorem isSquare_of_mul_sq {a b c : F} (hc : c ≠ 0) (h : a * c ^ 2 = b ^ 2) : IsSquare a := by
  refine ⟨b / c, ?_⟩
  rw [div_mul_div_comm, eq_div_iff (mul_ne_zero hc hc), ← sq, ← sq, h]

theorem four_ne_zero (h2 : (2 : F) ≠ 0) : (4 : F) ≠ 0 := by
  have hfour : (4 : F) = 2 * 2 := by norm_num
  rw [hfour]
  exact mul_ne_zero h2 h2

/-- A coefficient for which the points of low order are known: `s` is a root of `A + 2`. -/
structure Coefficient (A s : F) : Prop where
  two_ne_zero : (2 : F) ≠ 0
  discriminant : ¬IsSquare (A ^ 2 - 4)
  root : s ^ 2 = A + 2
  sum : ¬IsSquare (2 - A)
  other : ¬IsSquare (s ^ 2 - 2 * s)

variable {A s : F} (h : Coefficient A s)
include h

/-- The quadratic form of the doubling has no zero but the trivial one. -/
theorem form_eq_zero {X Z : F} (hform : X ^ 2 + A * X * Z + Z ^ 2 = 0) : X = 0 := by
  by_cases hZ : Z = 0
  · rw [hZ] at hform
    have hX : X ^ 2 = 0 := by linear_combination hform
    exact pow_eq_zero_iff two_ne_zero |>.mp hX
  · have hsquare : (A ^ 2 - 4) * Z ^ 2 = (2 * X + A * Z) ^ 2 := by
      linear_combination -4 * hform
    exact absurd (isSquare_of_mul_sq hZ hsquare) h.discriminant

/-- Doubling comes to zero from a coordinate that is zero, or from zero. -/
theorem xDouble_snd_eq_zero_iff (P : F × F) : (xDouble A P).2 = 0 ↔ P.1 = 0 ∨ P.2 = 0 := by
  constructor
  · intro hzero
    rcases mul_eq_zero.mp hzero with hzero | hform
    · rcases mul_eq_zero.mp hzero with hzero | hZ
      · exact Or.inl ((mul_eq_zero.mp hzero).resolve_left (four_ne_zero h.two_ne_zero))
      · exact Or.inr hZ
    · exact Or.inl (form_eq_zero h hform)
  · intro hzero
    rcases hzero with hX | hZ
    · rw [xDouble, hX, mul_zero, zero_mul, zero_mul]
    · exact xDouble_snd_of_zero A hZ

theorem first_eq_zero_iff (u : F) : (xDouble A (u, 1)).2 = 0 ↔ u = 0 := by
  rw [xDouble_snd_eq_zero_iff h]
  simp

theorem second_eq_zero_iff (u : F) :
    (xDouble A (xDouble A (u, 1))).2 = 0 ↔ u = 0 ∨ u = 1 ∨ u = -1 := by
  have hfst : (xDouble A (u, 1)).1 = 0 ↔ u = 1 ∨ u = -1 := by
    rw [xDouble, pow_eq_zero_iff two_ne_zero, sub_eq_zero, sq_eq_sq_iff_eq_or_eq_neg]
  rw [xDouble_snd_eq_zero_iff h, first_eq_zero_iff h, hfst, or_comm]

/-- The coordinates of the points of order eight. -/
theorem fst_eq_snd_iff {u₁ u₂ : F} (hsum : u₁ + u₂ = 2 + 2 * s) (hprod : u₁ * u₂ = 1) (u : F) :
    (xDouble A (u, 1)).1 = (xDouble A (u, 1)).2 ↔ u = u₁ ∨ u = u₂ := by
  have hfactors : (xDouble A (u, 1)).1 - (xDouble A (u, 1)).2 =
      ((u - u₁) * (u - u₂)) * ((u - (1 - s)) ^ 2 - (s ^ 2 - 2 * s)) := by
    rw [xDouble]
    linear_combination u * ((u - (1 - s)) ^ 2 - (s ^ 2 - 2 * s)) * hsum -
      ((u - (1 - s)) ^ 2 - (s ^ 2 - 2 * s)) * hprod + 4 * u ^ 2 * h.root
  have hother : (u - (1 - s)) ^ 2 - (s ^ 2 - 2 * s) ≠ 0 := by
    intro hzero
    apply h.other
    exact ⟨u - (1 - s), by linear_combination -hzero⟩
  rw [← sub_eq_zero, hfactors, mul_eq_zero, or_iff_left hother, mul_eq_zero, sub_eq_zero,
    sub_eq_zero]

/-- The other equation has no solution. -/
theorem fst_ne_neg_snd (u : F) : (xDouble A (u, 1)).1 ≠ -(xDouble A (u, 1)).2 := by
  intro heq
  have hsquare : (2 - A) * (2 * u) ^ 2 = ((u + 1) ^ 2) ^ 2 := by
    have heq : (u ^ 2 - 1 ^ 2) ^ 2 = -(4 * u * 1 * (u ^ 2 + A * u * 1 + 1 ^ 2)) := heq
    linear_combination -heq
  by_cases hu : u = 0
  · rw [hu] at hsquare
    simp at hsquare
  · exact h.sum (isSquare_of_mul_sq (mul_ne_zero h.two_ne_zero hu) hsquare)

theorem third_eq_zero_iff {u₁ u₂ : F} (hsum : u₁ + u₂ = 2 + 2 * s) (hprod : u₁ * u₂ = 1) (u : F) :
    (xDouble A (xDouble A (xDouble A (u, 1)))).2 = 0 ↔
      u = 0 ∨ u = 1 ∨ u = -1 ∨ u = u₁ ∨ u = u₂ := by
  have hfst : (xDouble A (xDouble A (u, 1))).1 = 0 ↔ u = u₁ ∨ u = u₂ := by
    rw [← fst_eq_snd_iff h hsum hprod]
    rw [xDouble, pow_eq_zero_iff two_ne_zero, sub_eq_zero, sq_eq_sq_iff_eq_or_eq_neg,
      or_iff_left (fst_ne_neg_snd h u)]
  rw [xDouble_snd_eq_zero_iff h, second_eq_zero_iff h, hfst, or_comm, or_assoc, or_assoc]

end

/-! ## What the doubling means

The curve is `y² = x³ + d A x² + d² x`: the Montgomery curve for `d = 1`, and a twist of it
otherwise. The coordinate `u` stands for the points with `x = d u`.
-/

section
variable {F : Type} [Field F]

def curve (A d : F) : WeierstrassCurve.Affine F where
  a₁ := 0
  a₂ := d * A
  a₃ := 0
  a₄ := d ^ 2
  a₆ := 0

variable {A d : F}

/-- The coordinate of a point, which is none for the point at infinity. -/
def Represents (P : (curve A d).Point) (Q : F × F) : Prop :=
  match P with
  | .zero => Q.2 = 0
  | .some x _ _ => Q.2 ≠ 0 ∧ x * Q.2 = d * Q.1

theorem equation_curve {x y : F} (h : (curve A d).Nonsingular x y) :
    y ^ 2 = x ^ 3 + d * A * x ^ 2 + d ^ 2 * x := by
  have hequation := ((curve A d).equation_iff x y).mp h.left
  simp only [curve] at hequation
  linear_combination hequation

/-- The coordinate of twice a point with `y ≠ 0`. -/
theorem addX_slope [DecidableEq F] {x y : F} (h2 : (2 : F) ≠ 0)
    (h : (curve A d).Nonsingular x y) (hy : y ≠ 0) :
    (curve A d).addX x x ((curve A d).slope x x y y) * (4 * y ^ 2) = (x ^ 2 - d ^ 2) ^ 2 := by
  have hneg : y ≠ (curve A d).negY x y := by
    simp only [WeierstrassCurve.Affine.negY, curve]
    intro heq
    have htwo : 2 * y = 0 := by linear_combination heq
    exact hy ((mul_eq_zero.mp htwo).resolve_left h2)
  have hslope : (curve A d).slope x x y y * (2 * y) = 3 * x ^ 2 + 2 * (d * A) * x + d ^ 2 := by
    rw [WeierstrassCurve.Affine.slope_of_Y_ne rfl hneg]
    simp only [WeierstrassCurve.Affine.negY, curve]
    have hdenominator : y - (-y - 0 * x - 0) = 2 * y := by ring
    rw [hdenominator, div_mul_cancel₀ _ (mul_ne_zero h2 hy)]
    ring
  have hequation := equation_curve h
  generalize (curve A d).slope x x y y = slope at hslope ⊢
  show (slope ^ 2 + 0 * slope - d * A - x - x) * (4 * y ^ 2) = (x ^ 2 - d ^ 2) ^ 2
  linear_combination (slope * (2 * y) + (3 * x ^ 2 + 2 * (d * A) * x + d ^ 2)) * hslope -
    4 * (d * A + 2 * x) * hequation

theorem negY_curve (x y : F) : (curve A d).negY x y = -y := by
  show -y - 0 * x - 0 = -y
  ring

/-- Doubling the coordinate doubles the point. -/
theorem Represents.double [DecidableEq F] (h2 : (2 : F) ≠ 0) (hd : d ≠ 0) {P : (curve A d).Point}
    {Q : F × F} (h : Represents P Q) : Represents (P + P) (xDouble A Q) := by
  cases P with
  | zero =>
    have hzero : Q.2 = 0 := h
    show (xDouble A Q).2 = 0
    exact xDouble_snd_of_zero A hzero
  | some x y hns =>
    have hne : Q.2 ≠ 0 := h.1
    have hx : x * Q.2 = d * Q.1 := h.2
    -- the curve's equation, over the denominator of the coordinate
    have hZ : d ^ 3 * (xDouble A Q).2 = 4 * y ^ 2 * Q.2 ^ 4 := by
      simp only [xDouble]
      linear_combination -4 * Q.2 ^ 4 * equation_curve hns - 4 * Q.2 * ((x * Q.2) ^ 2 +
        x * Q.2 * (d * Q.1) + (d * Q.1) ^ 2 + d * A * Q.2 * (x * Q.2 + d * Q.1) +
        d ^ 2 * Q.2 ^ 2) * hx
    by_cases hy : y = 0
    · have hneg : y = (curve A d).negY x y := by rw [negY_curve, hy, neg_zero]
      rw [WeierstrassCurve.Affine.Point.add_self_of_Y_eq hneg]
      show (xDouble A Q).2 = 0
      rw [hy] at hZ
      have hzero : d ^ 3 * (xDouble A Q).2 = 0 := by linear_combination hZ
      exact (mul_eq_zero.mp hzero).resolve_left (pow_ne_zero 3 hd)
    · have hneg : y ≠ (curve A d).negY x y := by
        rw [negY_curve]
        intro heq
        have htwo : 2 * y = 0 := by linear_combination heq
        exact hy ((mul_eq_zero.mp htwo).resolve_left h2)
      have hadd := addX_slope h2 hns hy
      rw [WeierstrassCurve.Affine.Point.add_self_of_Y_ne hneg]
      refine ⟨?_, ?_⟩
      · intro hzero
        rw [hzero, mul_zero] at hZ
        have hy' := mul_ne_zero (four_ne_zero h2) (pow_ne_zero 2 hy)
        exact mul_ne_zero hy' (pow_ne_zero 4 hne) hZ.symm
      · generalize (curve A d).addX x x ((curve A d).slope x x y y) = double at hadd ⊢
        apply mul_left_cancel₀ (pow_ne_zero 3 hd)
        have hfst : (xDouble A Q).1 = (Q.1 ^ 2 - Q.2 ^ 2) ^ 2 := rfl
        rw [hfst]
        linear_combination double * hZ + Q.2 ^ 4 * hadd + (x * Q.2 + d * Q.1) *
          ((x * Q.2) ^ 2 + (d * Q.1) ^ 2 - 2 * d ^ 2 * Q.2 ^ 2) * hx

/-- A point that comes to infinity after `n` doublings has a coordinate that comes to zero. -/
theorem iterate_eq_zero [DecidableEq F] (h2 : (2 : F) ≠ 0) (hd : d ≠ 0) {u y : F} {n : ℕ}
    (hns : (curve A d).Nonsingular (d * u) y)
    (h : 2 ^ n • (WeierstrassCurve.Affine.Point.some (d * u) y hns) = 0) :
    ((xDouble A)^[n] (u, 1)).2 = 0 := by
  have hrepresents : ∀ n : ℕ, Represents (2 ^ n • (WeierstrassCurve.Affine.Point.some (d * u) y hns))
      ((xDouble A)^[n] (u, 1)) := by
    intro n
    induction n with
    | zero =>
      rw [pow_zero, one_nsmul]
      exact ⟨one_ne_zero, by show d * u * 1 = d * u; ring⟩
    | succ n ih =>
      rw [Function.iterate_succ_apply', pow_succ, mul_two, add_nsmul]
      exact ih.double h2 hd
  have hn := hrepresents n
  rw [h] at hn
  exact hn

end

end HideProtocol.Lib.Montgomery
