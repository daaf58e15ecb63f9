import Mathlib.NumberTheory.LegendreSymbol.Basic
import Mathlib.NumberTheory.LucasPrimality
import Mathlib.Tactic.NormNum.Prime

/-!
# Certificates of large primes

Lucas' criterion with the powers taken by squaring, so that the kernel checks a certificate with a
few hundred multiplications. The same powers tell squares from non-squares modulo a prime.
-/

namespace HideProtocol.Lib

/-- Square and multiply, from the lowest bit of the exponent. -/
def powModFrom (m : ℕ) : (bits base exponent acc : ℕ) → ℕ
  | 0, _, _, acc => acc
  | bits + 1, base, exponent, acc =>
    powModFrom m bits (base * base % m) (exponent / 2)
      (if exponent % 2 = 1 then acc * base % m else acc)

def powMod (m base exponent : ℕ) : ℕ := powModFrom m (exponent.log2 + 1) base exponent 1 % m

section
variable {m : ℕ}

theorem cast_powModFrom {bits exponent : ℕ} (base acc : ℕ) (h : exponent < 2 ^ bits) :
    (powModFrom m bits base exponent acc : ZMod m) = acc * (base : ZMod m) ^ exponent := by
  induction bits generalizing base exponent acc with
  | zero =>
    have hzero : exponent = 0 := by omega
    rw [hzero, powModFrom, pow_zero, mul_one]
  | succ bits ih =>
    have hhalf : exponent / 2 < 2 ^ bits := by
      rw [pow_succ] at h
      omega
    rw [powModFrom, ih _ _ hhalf]
    -- the lowest bit goes to the accumulator, the others to the square of the base
    have hsplit : exponent = 2 * (exponent / 2) + exponent % 2 := by omega
    rcases Nat.mod_two_eq_zero_or_one exponent with hbit | hbit
    · rw [if_neg (by omega), ZMod.natCast_mod, Nat.cast_mul, ← sq, ← pow_mul]
      congr 2
      omega
    · rw [if_pos hbit, ZMod.natCast_mod, ZMod.natCast_mod, Nat.cast_mul, Nat.cast_mul, ← sq,
        ← pow_mul, mul_assoc, ← pow_succ']
      congr 2
      omega

theorem cast_powMod (base exponent : ℕ) :
    (powMod m base exponent : ZMod m) = (base : ZMod m) ^ exponent := by
  rw [powMod, ZMod.natCast_mod, cast_powModFrom base 1 Nat.lt_log2_self, Nat.cast_one, one_mul]

/-- A power is one exactly when the computed one is. -/
theorem pow_eq_one_iff_powMod (hm : 1 < m) (base exponent : ℕ) :
    (base : ZMod m) ^ exponent = 1 ↔ powMod m base exponent = 1 := by
  have hlt : powMod m base exponent < m := Nat.mod_lt _ (by omega)
  rw [← cast_powMod, ← Nat.cast_one, ZMod.natCast_eq_natCast_iff', Nat.mod_eq_of_lt hlt,
    Nat.mod_eq_of_lt hm]

/-- A number, a base of full order, and the factors of the number before it. -/
structure Certificate where
  number : ℕ
  base : ℕ
  factors : List ℕ

/-- What is computed of a certificate. That the factors are prime is left to others. -/
def Certificate.check (c : Certificate) : Bool :=
  decide (1 < c.number) && c.factors.prod == c.number - 1 &&
    powMod c.number c.base (c.number - 1) == 1 &&
    c.factors.all fun q => powMod c.number c.base ((c.number - 1) / q) != 1

theorem Certificate.prime {c : Certificate} (h : c.check = true)
    (hfactors : ∀ q ∈ c.factors, q.Prime) : c.number.Prime := by
  simp only [Certificate.check, Bool.and_eq_true, decide_eq_true_eq, beq_iff_eq,
    List.all_eq_true, bne_iff_ne] at h
  obtain ⟨⟨⟨hlt, hprod⟩, hpow⟩, hne⟩ := h
  apply lucas_primality c.number c.base
  · exact (pow_eq_one_iff_powMod hlt c.base (c.number - 1)).mpr hpow
  · intro q hq hdvd
    rw [← hprod] at hdvd
    have hmem : q ∈ c.factors :=
      mem_list_primes_of_dvd_prod hq.prime (fun r hr => (hfactors r hr).prime) hdvd
    rw [Ne, pow_eq_one_iff_powMod hlt]
    exact hne q hmem

/-- **Pratt's certificates.** Each factor is known to be prime, or certified before. -/
def checkAll (known : List ℕ) : List Certificate → Bool
  | [] => true
  | c :: certificates =>
    c.check && c.factors.all (fun q => known.contains q) &&
      checkAll (c.number :: known) certificates

theorem prime_of_checkAll {known : List ℕ} {certificates : List Certificate}
    (hknown : ∀ q ∈ known, q.Prime) (h : checkAll known certificates = true) :
    ∀ c ∈ certificates, c.number.Prime := by
  induction certificates generalizing known with
  | nil =>
    intro c hc
    cases hc
  | cons first certificates ih =>
    rw [checkAll, Bool.and_eq_true, Bool.and_eq_true] at h
    obtain ⟨⟨hcheck, hfactors⟩, hrest⟩ := h
    have hprime : first.number.Prime := by
      apply Certificate.prime hcheck
      intro q hq
      exact hknown q (List.contains_iff_mem.mp (List.all_eq_true.mp hfactors q hq))
    intro c hc
    rcases List.mem_cons.mp hc with heq | hc
    · rw [heq]
      exact hprime
    · exact ih (List.forall_mem_cons.mpr ⟨hprime, hknown⟩) hrest c hc

/-- Euler's criterion. -/
theorem not_isSquare_of_powMod {p : ℕ} [hp : Fact p.Prime] {n : ℕ} (hn : n % p ≠ 0)
    (h : powMod p n (p / 2) ≠ 1) : ¬IsSquare (n : ZMod p) := by
  have hne : (n : ZMod p) ≠ 0 := by
    rw [Ne, ZMod.natCast_eq_zero_iff]
    exact fun hdvd => hn (Nat.mod_eq_zero_of_dvd hdvd)
  rw [ZMod.euler_criterion p hne, pow_eq_one_iff_powMod hp.out.one_lt]
  exact h

end

end HideProtocol.Lib
