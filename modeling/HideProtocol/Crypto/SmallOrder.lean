import HideProtocol.Crypto.PublicKeys
import HideProtocol.Lib.Montgomery
import HideProtocol.Lib.Pratt
import Mathlib.Data.Nat.Bitwise

/-!
# Points of small order

`fromBytes` compares the X25519 half of a key with seven byte strings and asks that it is
canonical. Together these leave no coordinate of a point whose order divides eight, on the curve or
on its twist:

* the modulus is prime, by Pratt's certificate;
* four numbers are squares or not, by Euler's criterion, which settles when three doublings come to
  zero;
* a canonical string is told apart by its value, so the strings of the list are all there are.
-/

namespace HideProtocol.Crypto

open Lib Montgomery

/-! ## The field -/

/-- The modulus of X25519. -/
def fieldPrime : ℕ := 2 ^ 255 - 19

/-- The factors below that are prime by trial division. -/
def smallFactors : List ℕ := [2, 3, 5, 7, 13, 19, 31, 47, 107, 127, 223, 353, 2437, 4153, 57467,
  65147, 75707, 132049, 430751, 569003, 1923133, 8574133]

theorem prime_smallFactors : ∀ q ∈ smallFactors, q.Prime := by
  simp only [smallFactors, List.forall_mem_cons]
  norm_num

/-- The modulus, and the larger factors that lead to it. -/
def certificates : List Certificate := [
  ⟨2773320623, 5, [2, 2437, 569003]⟩,
  ⟨72106336199, 7, [2, 13, 2773320623]⟩,
  ⟨1919519569386763, 2, [2, 3, 7, 19, 47, 47, 127, 8574133]⟩,
  ⟨31757755568855353, 10, [2, 2, 2, 3, 31, 107, 223, 4153, 430751]⟩,
  ⟨75445702479781427272750846543864801, 7,
    [2, 2, 2, 2, 2, 3, 3, 5, 5, 75707, 72106336199, 1919519569386763]⟩,
  ⟨74058212732561358302231226437062788676166966415465897661863160754340907, 2,
    [2, 3, 353, 57467, 132049, 1923133, 31757755568855353, 75445702479781427272750846543864801]⟩,
  ⟨fieldPrime, 2, [2, 2, 3, 65147,
    74058212732561358302231226437062788676166966415465897661863160754340907]⟩]

theorem checkAll_certificates : checkAll smallFactors certificates = true := by decide +kernel

theorem prime_fieldPrime : fieldPrime.Prime := by
  have hprimes := prime_of_checkAll prime_smallFactors checkAll_certificates
  simp only [certificates, List.forall_mem_cons] at hprimes
  exact hprimes.2.2.2.2.2.2.1

instance : Fact fieldPrime.Prime := ⟨prime_fieldPrime⟩

abbrev Field25519 := ZMod fieldPrime

/-- Numbers that leave the same remainder are the same in the field. -/
theorem cast_eq_of_mod_eq {n m : ℕ} (h : n % fieldPrime = m % fieldPrime) :
    (n : Field25519) = (m : Field25519) := (ZMod.natCast_eq_natCast_iff' n m fieldPrime).mpr h

/-- The coefficient of Curve25519. -/
def curveA : ℕ := 486662

/-- A root of `A + 2`. -/
def rootA : ℕ := 48802004052532134862652268456126542835229456083994414501085850622543968879637

/-- The coordinates of the points of order eight. -/
def orderEight₁ : ℕ := 325606250916557431795983626356110631294008115727848805560023387167927233504
def orderEight₂ : ℕ := 39382357235489614581723060781553021112529911719440698176882885853963445705823

/-- Euler's criterion at the three numbers of the curve that are no squares. -/
theorem powMod_nonresidues :
    powMod fieldPrime (curveA ^ 2 - 4) (fieldPrime / 2) ≠ 1 ∧
      powMod fieldPrime (fieldPrime + 2 - curveA) (fieldPrime / 2) ≠ 1 ∧
      powMod fieldPrime (rootA ^ 2 - 2 * rootA) (fieldPrime / 2) ≠ 1 := by
  decide +kernel

theorem curve25519_coefficient : Coefficient (curveA : Field25519) (rootA : Field25519) where
  two_ne_zero := by
    have hne : ((2 : ℕ) : Field25519) ≠ 0 := by
      rw [Ne, ZMod.natCast_eq_zero_iff]
      decide
    exact_mod_cast hne
  discriminant := by
    have hcast : (curveA : Field25519) ^ 2 - 4 = ((curveA ^ 2 - 4 : ℕ) : Field25519) := by
      rw [Nat.cast_sub (by decide), Nat.cast_pow]
      rfl
    rw [hcast]
    exact not_isSquare_of_powMod (by decide) powMod_nonresidues.1
  root := by
    have hroot : ((rootA ^ 2 : ℕ) : Field25519) = ((curveA + 2 : ℕ) : Field25519) :=
      cast_eq_of_mod_eq (by decide)
    exact_mod_cast hroot
  sum := by
    have hcast : 2 - (curveA : Field25519) = ((fieldPrime + 2 - curveA : ℕ) : Field25519) := by
      rw [Nat.cast_sub (by decide), Nat.cast_add, ZMod.natCast_self, zero_add]
      rfl
    rw [hcast]
    exact not_isSquare_of_powMod (by decide) powMod_nonresidues.2.1
  other := by
    have hcast : (rootA : Field25519) ^ 2 - 2 * rootA =
        ((rootA ^ 2 - 2 * rootA : ℕ) : Field25519) := by
      rw [Nat.cast_sub (by decide), Nat.cast_pow, Nat.cast_mul]
      rfl
    rw [hcast]
    exact not_isSquare_of_powMod (by decide) powMod_nonresidues.2.2

theorem orderEight_sum :
    (orderEight₁ : Field25519) + (orderEight₂ : Field25519) = 2 + 2 * (rootA : Field25519) := by
  have hsum : ((orderEight₁ + orderEight₂ : ℕ) : Field25519) = ((2 + 2 * rootA : ℕ) : Field25519) :=
    cast_eq_of_mod_eq (by decide)
  exact_mod_cast hsum

theorem orderEight_prod : (orderEight₁ : Field25519) * (orderEight₂ : Field25519) = 1 := by
  have hprod : ((orderEight₁ * orderEight₂ : ℕ) : Field25519) = ((1 : ℕ) : Field25519) :=
    cast_eq_of_mod_eq (by decide)
  exact_mod_cast hprod

/-! ## Canonical strings -/

theorem high_bit_iff (b : UInt8) : b &&& 0x80 ≠ 0 ↔ 128 ≤ b.toNat := by
  have hlt : b.toNat < 256 := b.toNat_lt
  have hand : (b &&& 0x80).toNat = b.toNat / 2 ^ 7 % 2 * 2 ^ 7 := by
    rw [UInt8.toNat_and, show (0x80 : UInt8).toNat = 2 ^ 7 from rfl, Nat.and_two_pow,
      Nat.toNat_testBit]
  rw [Ne, ← UInt8.toNat_inj, hand]
  show ¬b.toNat / 2 ^ 7 % 2 * 2 ^ 7 = 0 ↔ _
  omega

/-- The largest value of a string has every byte at its largest. -/
theorem ofLe_eq_max_iff (bs : Bytes) :
    ofLe bs + 1 = 256 ^ bs.length ↔ bs.all (· = 0xff) = true := by
  induction bs with
  | nil => simp [ofLe, ofBe]
  | cons b bs ih =>
    have hb : b.toNat < 256 := b.toNat_lt
    have hlt := ofLe_lt bs
    have hbyte : b = 0xff ↔ b.toNat = 255 := by
      rw [← UInt8.toNat_inj]
      rfl
    rw [List.all_cons, Bool.and_eq_true, ← ih, decide_eq_true_iff, hbyte, ofLe_cons,
      List.length_cons, pow_succ]
    omega

/-- The first byte, the thirty in the middle and the last one. -/
theorem toList_eq_ends (bytes : Vector UInt8 32) :
    bytes.toList = bytes.get 0 :: ((bytes.toList.drop 1).take 30 ++ [bytes.get 31]) := by
  have hlen : bytes.toList.length = 32 := Vector.length_toList
  have hmiddle : ((bytes.toList.drop 1).take 30).length = 30 := by
    rw [List.length_take, List.length_drop, hlen]
    rfl
  apply List.ext_getElem
  · rw [List.length_cons, List.length_append, hmiddle, hlen]
    rfl
  · intro i hi hi'
    cases i with
    | zero => rfl
    | succ i =>
      rw [List.getElem_cons_succ]
      by_cases hlast : i < 30
      · rw [List.getElem_append_left (by omega), List.getElem_take, List.getElem_drop]
        simp only [Nat.add_comm]
      · have hi : i = 30 := by omega
        subst hi
        rw [List.getElem_append_right (by omega)]
        simp only [hmiddle]
        rfl

/-- Canonical strings are those whose value is below the modulus. -/
theorem isCanonicalX25519_iff (bytes : Vector UInt8 32) :
    isCanonicalX25519 bytes = true ↔ ofLe bytes.toList < fieldPrime := by
  have hlen : ((bytes.toList.drop 1).take 30).length = 30 := by
    rw [List.length_take, List.length_drop, Vector.length_toList]
    rfl
  have hvalue : ofLe bytes.toList = (ofLe ((bytes.toList.drop 1).take 30) +
      256 ^ 30 * (bytes.get 31).toNat) * 256 + (bytes.get 0).toNat := by
    have hlast : ofLe [bytes.get 31] = (bytes.get 31).toNat := by
      rw [ofLe_cons]
      exact Nat.zero_add _
    conv_lhs => rw [toList_eq_ends bytes]
    rw [ofLe_cons, ofLe_append, hlen, hlast]
  have hmiddle := ofLe_lt ((bytes.toList.drop 1).take 30)
  have hmax := ofLe_eq_max_iff ((bytes.toList.drop 1).take 30)
  rw [hlen] at hmiddle hmax
  have hfirst : (bytes.get 0).toNat < 256 := (bytes.get 0).toNat_lt
  have hlast : (bytes.get 31).toNat < 256 := (bytes.get 31).toNat_lt
  have hprime : fieldPrime = 256 ^ 31 * 128 - 19 := by decide
  unfold isCanonicalX25519
  split
  next hhigh =>
    have hhigh := (high_bit_iff _).mp hhigh
    simp only [Bool.false_eq_true, false_iff]
    omega
  next hhigh =>
    have hhigh := mt (high_bit_iff _).mpr hhigh
    have hbyte : bytes.get 31 = 0x7f ↔ (bytes.get 31).toNat = 127 := by
      rw [← UInt8.toNat_inj]
      rfl
    have hlow : bytes.get 0 ≥ 0xed ↔ 237 ≤ (bytes.get 0).toNat := UInt8.le_iff_toNat_le
    dsimp only
    rw [Bool.not_eq_true', decide_eq_false_iff_not, hbyte, ← hmax, hlow]
    omega

/-! ## Accepted keys -/

/-- The value of the X25519 half of a key. -/
def x25519Value (bytes : Bytes) : ℕ := ofLe (bytes.drop x25519Offset)

section
variable {accepts : Vector UInt8 publicKeyLength → Bool} {bytes : Bytes}
  {recipient : RecipientPublic}

/-- What is checked of the X25519 half of an accepted key. -/
theorem checks_of_fromBytes (h : RecipientPublic.fromBytes accepts bytes = .ok recipient) :
    ∃ half : Vector UInt8 32, half.toList = bytes.drop x25519Offset ∧
      half.toList ∉ smallOrderPoints ∧ isCanonicalX25519 half = true := by
  unfold RecipientPublic.fromBytes at h
  obtain ⟨_, -, h⟩ := bind_eq_ok.mp h
  obtain ⟨_, -, h⟩ := bind_eq_ok.mp h
  obtain ⟨half, hhalf, h⟩ := bind_eq_ok.mp h
  obtain ⟨_, hlisted, h⟩ := bind_eq_ok.mp h
  obtain ⟨_, hcanonical, -⟩ := bind_eq_ok.mp h
  refine ⟨half, (tryInto_eq_some (okOr_eq_ok.mp hhalf)).symm, failIf_eq_ok.mp hlisted, ?_⟩
  have hcanonical := failIf_eq_ok.mp hcanonical
  rwa [Bool.not_eq_true', Bool.not_eq_false] at hcanonical

theorem length_smallOrderPoint {point : Bytes} (h : point ∈ smallOrderPoints) :
    point.length = 32 := by
  simp only [smallOrderPoints, List.mem_cons, List.not_mem_nil, or_false] at h
  rcases h with rfl | rfl | rfl | rfl | rfl | rfl | rfl
  all_goals rfl

/-- Below the modulus, a number is its own class. -/
theorem cast_ne_cast {n m : ℕ} (hn : n < fieldPrime) (hm : m < fieldPrime) (hne : n ≠ m) :
    (n : Field25519) ≠ (m : Field25519) := by
  rw [Ne, ZMod.natCast_eq_natCast_iff', Nat.mod_eq_of_lt hn, Nat.mod_eq_of_lt hm]
  exact hne

/-- The values that the list spells. The last two are not canonical. -/
theorem values_smallOrderPoints : smallOrderPoints.map ofLe =
    [0, 1, orderEight₁, orderEight₂, fieldPrime - 1, fieldPrime, fieldPrime + 1] := rfl

/-- The half of an accepted key has none of these values. -/
theorem x25519Value_ne (h : RecipientPublic.fromBytes accepts bytes = .ok recipient) {n : ℕ}
    (hn : n ∈ smallOrderPoints.map ofLe) (hlt : n < fieldPrime) :
    (x25519Value bytes : Field25519) ≠ (n : Field25519) := by
  obtain ⟨half, hhalf, hlisted, hcanonical⟩ := checks_of_fromBytes h
  have hcanonical := (isCanonicalX25519_iff half).mp hcanonical
  obtain ⟨point, hpoint, rfl⟩ := List.mem_map.mp hn
  unfold x25519Value
  rw [← hhalf]
  apply cast_ne_cast hcanonical hlt
  intro hvalue
  have hlen : half.toList.length = point.length := by
    rw [Vector.length_toList, length_smallOrderPoint hpoint]
  apply hlisted
  rw [ofLe_inj hlen hvalue]
  exact hpoint

/-- Three doublings of an accepted key do not come to zero. -/
theorem third_doubling_ne_zero (h : RecipientPublic.fromBytes accepts bytes = .ok recipient) :
    ((xDouble (curveA : Field25519))^[3] (x25519Value bytes, 1)).2 ≠ 0 := by
  have hne : ∀ n ∈ [0, 1, orderEight₁, orderEight₂, fieldPrime - 1], n < fieldPrime →
      (x25519Value bytes : Field25519) ≠ (n : Field25519) := by
    intro n hn
    apply x25519Value_ne h
    rw [values_smallOrderPoints]
    exact List.mem_append_left [fieldPrime, fieldPrime + 1] hn
  simp only [List.forall_mem_cons] at hne
  obtain ⟨hzero, hone, hfirst, hsecond, hminus, -⟩ := hne
  have hcast : ((fieldPrime - 1 : ℕ) : Field25519) = -1 := by
    rw [Nat.cast_sub (by decide), ZMod.natCast_self, Nat.cast_one, zero_sub]
  have hminus := hminus (by decide)
  rw [hcast] at hminus
  intro hthird
  rcases (third_eq_zero_iff curve25519_coefficient orderEight_sum orderEight_prod _).mp hthird with
    heq | heq | heq | heq | heq
  · exact hzero (by decide) (by rw [heq, Nat.cast_zero])
  · exact hone (by decide) (by rw [heq, Nat.cast_one])
  · exact hminus heq
  · exact hfirst (by decide) heq
  · exact hsecond (by decide) heq

end

/-- **No accepted key has an X25519 half of low order.** A string is canonical exactly when its
value is below the modulus. No doubling of an accepted key, up to the third, comes to `Z = 0`, and
no point with its coordinate, on the curve or on a twist of it, has an order that divides eight. -/
theorem accepted_not_small_order (accepts : Vector UInt8 publicKeyLength → Bool) :
    (∀ bytes : Vector UInt8 32, isCanonicalX25519 bytes = true ↔ ofLe bytes.toList < fieldPrime) ∧
    ∀ bytes recipient, RecipientPublic.fromBytes accepts bytes = .ok recipient →
      bytes.length = 1216 ∧
      (∀ n ≤ 3, ((xDouble (curveA : Field25519))^[n] (x25519Value bytes, 1)).2 ≠ 0) ∧
      ∀ (d y : Field25519) (_ : d ≠ 0)
        (hns : (curve (curveA : Field25519) d).Nonsingular (d * x25519Value bytes) y),
        8 • WeierstrassCurve.Affine.Point.some (d * x25519Value bytes : Field25519) y hns ≠ 0 := by
  refine ⟨isCanonicalX25519_iff, ?_⟩
  intro bytes recipient h
  have hthird := third_doubling_ne_zero h
  refine ⟨?_, ?_, ?_⟩
  · rw [bytes_of_fromBytes h, Vector.length_toList]
    rfl
  · intro n hn hzero
    exact hthird (iterate_xDouble_snd_of_zero _ hn hzero)
  · intro d y hd hns hzero
    exact hthird (iterate_eq_zero curve25519_coefficient.two_ne_zero hd hns hzero)

/-- A key of the toy instance is accepted, so it doubles three times. -/
theorem accepted_not_small_order_toy :
    ((xDouble (curveA : Field25519))^[3]
      (x25519Value (toyPublic (Vector.replicate 32 7)).toList, 1)).2 ≠ 0 :=
  ((accepted_not_small_order fun _ => true).2 _ _
    (fromBytes_toyPublic (Vector.replicate 32 7))).2.1 3 (le_refl 3)

end HideProtocol.Crypto
