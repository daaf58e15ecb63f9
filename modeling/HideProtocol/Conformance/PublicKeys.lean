import HideProtocol.Conformance.Keys
import HideProtocol.Crypto.SmallOrder
import HideProtocol.Lib.Edwards
import HideProtocol.Sign.Hybrid

/-!
# The second reader's lists of points

The library that verifies Ed25519 for the second reader takes keys and nonces of small order. A list
of seven byte strings, compared without the sign bit, is the whole of its strictness. The list has
every spelling of every point of the curve that three doublings bring to the identity, and no
other.
-/

namespace HideProtocol.Conformance

open Lib Crypto Edwards

/-! ## The reader -/

/-- The order of the group that signatures are made in. -/
def ed25519L : ℕ := 2 ^ 252 + 27742317777372353535851937790883648493

def smallOrderEd25519 : List Bytes := [
  List.replicate 32 0,
  1 :: List.replicate 31 0,
  [38, 232, 149, 143, 194, 178, 39, 176, 69, 195, 244, 137, 242, 239, 152, 240, 213, 223, 172, 5,
    211, 198, 51, 57, 177, 56, 2, 136, 109, 83, 252, 5],
  [199, 23, 106, 112, 61, 77, 216, 79, 186, 60, 11, 118, 13, 16, 103, 15, 42, 32, 83, 250, 44, 57,
    204, 198, 78, 199, 253, 119, 146, 172, 3, 122],
  236 :: (List.replicate 30 255 ++ [127]),
  237 :: (List.replicate 30 255 ++ [127]),
  238 :: (List.replicate 30 255 ++ [127])]

/-- What two strings differ by, over the bytes before the last and the last without its sign. -/
def difference (point blocked : Bytes) : UInt8 :=
  (List.range 31).foldl (fun diff i => diff ||| (point.getD i 0 ^^^ blocked.getD i 0)) 0 |||
    ((point.getD 31 0 &&& 0x7f) ^^^ blocked.getD 31 0)

def hasSmallOrder (point : Bytes) : Bool :=
  smallOrderEd25519.any fun blocked => difference point blocked == 0

def littleEndian (bytes : Bytes) : ℕ := bytes.foldr (fun byte value => value <<< 8 ||| byte.toNat) 0

/-- `nodeVerify` is what the library says of a key, a message and a signature. It throws for a key
that it does not take. -/
def ed25519Strict (nodeVerify : Bytes → Bytes → Bytes → Option Bool)
    (publicKey signature message : Bytes) : Bool :=
  if hasSmallOrder publicKey then false
  else if hasSmallOrder (signature.take 32) then false
  else if littleEndian ((signature.drop 32).take 32) ≥ ed25519L then false
  else (nodeVerify publicKey message signature).getD false

def x25519SmallOrder : List Bytes := [
  List.replicate 32 0,
  1 :: List.replicate 31 0,
  [224, 235, 122, 124, 59, 65, 184, 174, 22, 86, 227, 250, 241, 159, 196, 106, 218, 9, 141,
    235, 156, 50, 177, 253, 134, 98, 5, 22, 95, 73, 184, 0],
  [95, 156, 149, 188, 163, 80, 140, 36, 177, 208, 177, 85, 156, 131, 239, 91, 4, 68, 92, 196,
    88, 28, 142, 134, 216, 34, 78, 221, 208, 159, 17, 87],
  236 :: (List.replicate 30 255 ++ [127]),
  237 :: (List.replicate 30 255 ++ [127]),
  238 :: (List.replicate 30 255 ++ [127])]

/-- A recipient's public key or a signing public key: `none` for one that may be used. -/
def publicKeyProblem (bytes : Bytes) : Option String :=
  if bytes.length = 1216 then
    let x25519 := (bytes.drop 1184).take 32
    if x25519SmallOrder.any (· == x25519) then some "small-order X25519 component"
    else if ofBe x25519.reverse ≥ 2 ^ 255 - 19 then some "non-canonical X25519 component"
    else none
  else if bytes.length = Sign.verifyingKeyLength then
    if hasSmallOrder (bytes.take 32) then some "small-order Ed25519 component" else none
  else some ("length " ++ toString bytes.length)

/-! ## The curve -/

/-- The coefficient of Ed25519. -/
def edwardsD : ℕ := 37095705934669439343138083508754565189542113879843219016388785533085940283555

/-- A root of minus one. -/
def rootI : ℕ := 19681161376707505956807079304988542015446066515923890162744021073123829784752

/-- A coordinate of the points of order eight. -/
def lowY : ℕ := 2707385501144840649318225287225658788936804267575313519463743609750303402022

theorem cast_minus_one : ((fieldPrime - 1 : ℕ) : Field25519) = -1 := by
  rw [Nat.cast_sub (by decide), ZMod.natCast_self, Nat.cast_one, zero_sub]

theorem cast_rootI : (rootI : Field25519) ^ 2 = -1 := by
  have hroot : ((rootI ^ 2 : ℕ) : Field25519) = ((fieldPrime - 1 : ℕ) : Field25519) :=
    cast_eq_of_mod_eq (by decide)
  rw [cast_minus_one] at hroot
  exact_mod_cast hroot

theorem ed25519_coefficient :
    Coefficient (edwardsD : Field25519) (rootI : Field25519) (lowY : Field25519) where
  two_ne_zero := curve25519_coefficient.two_ne_zero
  nonsquare := by
    rintro ⟨r, hr⟩
    -- minus the coefficient, times a square, is the discriminant of Curve25519
    have hcast : ((edwardsD * (curveA + 2) ^ 2 : ℕ) : Field25519) =
        (((fieldPrime - 1) * (curveA ^ 2 - 4) : ℕ) : Field25519) :=
      cast_eq_of_mod_eq (by decide)
    have hdiscriminant : ((curveA ^ 2 - 4 : ℕ) : Field25519) = (curveA : Field25519) ^ 2 - 4 := by
      rw [Nat.cast_sub (by decide), Nat.cast_pow]
      rfl
    rw [Nat.cast_mul, Nat.cast_mul, cast_minus_one, hdiscriminant, hr] at hcast
    push_cast at hcast
    apply curve25519_coefficient.discriminant
    refine ⟨rootI * r * (curveA + 2), ?_⟩
    linear_combination hcast - r ^ 2 * (curveA + 2) ^ 2 * cast_rootI
  root := cast_rootI
  low := by
    have hlow : ((edwardsD * lowY ^ 4 + 2 * lowY ^ 2 : ℕ) : Field25519) = ((1 : ℕ) : Field25519) :=
      cast_eq_of_mod_eq (by decide)
    exact_mod_cast hlow

/-! ## The list -/

/-- A string without its sign bit. -/
def withoutSign (point : Vector UInt8 32) : Bytes :=
  point.toList.take 31 ++ [point.toList.getD 31 0 &&& 0x7f]

theorem length_withoutSign (point : Vector UInt8 32) : (withoutSign point).length = 32 := by
  unfold withoutSign
  rw [List.length_append, List.length_take, Vector.length_toList]
  rfl

/-- An accumulator of differences is zero when there are none. -/
theorem foldl_or_eq_zero (f : ℕ → UInt8) (positions : List ℕ) (diff : UInt8) :
    positions.foldl (fun diff i => diff ||| f i) diff = 0 ↔
      diff = 0 ∧ ∀ i ∈ positions, f i = 0 := by
  induction positions generalizing diff with
  | nil => simp
  | cons i positions ih =>
    rw [List.foldl_cons, ih, UInt8.or_eq_zero_iff, List.forall_mem_cons, and_assoc]

theorem withoutSign_getD {point : Vector UInt8 32} {i : ℕ} (hi : i < 31) :
    (withoutSign point).getD i 0 = point.toList.getD i 0 := by
  have hpoint : point.toList.length = 32 := Vector.length_toList
  unfold withoutSign
  rw [List.getD_append _ _ _ _ (by rw [List.length_take]; omega),
    List.getD_eq_getElem _ _ (by rw [List.length_take]; omega), List.getElem_take,
    List.getD_eq_getElem _ _ (by omega)]

theorem withoutSign_getD_last (point : Vector UInt8 32) :
    (withoutSign point).getD 31 0 = point.toList.getD 31 0 &&& 0x7f := by
  have htake : (point.toList.take 31).length = 31 := by
    rw [List.length_take, Vector.length_toList]
    rfl
  unfold withoutSign
  rw [List.getD_append_right _ _ _ _ (by omega), htake]
  rfl

theorem difference_eq_zero_iff (point : Vector UInt8 32) {blocked : Bytes}
    (hlen : blocked.length = 32) :
    difference point.toList blocked = 0 ↔ withoutSign point = blocked := by
  unfold difference
  rw [UInt8.or_eq_zero_iff, foldl_or_eq_zero, UInt8.xor_eq_zero_iff, ← withoutSign_getD_last]
  constructor
  · intro h
    have hbytes : ∀ i < 32, (withoutSign point).getD i 0 = blocked.getD i 0 := by
      intro i hi
      by_cases hlast : i = 31
      · rw [hlast]
        exact h.2
      · have hi : i < 31 := by omega
        rw [withoutSign_getD hi]
        exact UInt8.xor_eq_zero_iff.mp (h.1.2 i (List.mem_range.mpr hi))
    apply List.ext_getElem
    · rw [length_withoutSign, hlen]
    · intro i hi hi'
      have hbyte := hbytes i (by omega)
      rwa [List.getD_eq_getElem _ _ hi, List.getD_eq_getElem _ _ hi'] at hbyte
  · intro h
    subst h
    refine ⟨⟨rfl, ?_⟩, rfl⟩
    intro i hi
    rw [withoutSign_getD (List.mem_range.mp hi), UInt8.xor_self]

/-- What the strings of the list are worth. The last two are not canonical. -/
theorem values_smallOrderEd25519 : smallOrderEd25519.map ofLe =
    [0, 1, lowY, fieldPrime - lowY, fieldPrime - 1, fieldPrime, fieldPrime + 1] := rfl

theorem length_smallOrderEd25519 {blocked : Bytes} (h : blocked ∈ smallOrderEd25519) :
    blocked.length = 32 := by
  simp only [smallOrderEd25519, List.mem_cons, List.not_mem_nil, or_false] at h
  rcases h with rfl | rfl | rfl | rfl | rfl | rfl | rfl
  all_goals rfl

/-- The `y` that a string spells. -/
def yValue (point : Vector UInt8 32) : ℕ := ofLe (withoutSign point)

theorem hasSmallOrder_iff_mem (point : Vector UInt8 32) :
    hasSmallOrder point.toList = true ↔ yValue point ∈ smallOrderEd25519.map ofLe := by
  unfold hasSmallOrder yValue
  rw [List.any_eq_true, List.mem_map]
  constructor
  · rintro ⟨blocked, hblocked, heq⟩
    have hlen := length_smallOrderEd25519 hblocked
    have heq := (difference_eq_zero_iff point hlen).mp (eq_of_beq heq)
    exact ⟨blocked, hblocked, by rw [heq]⟩
  · rintro ⟨blocked, hblocked, heq⟩
    have hlen := length_smallOrderEd25519 hblocked
    refine ⟨blocked, hblocked, beq_iff_eq.mpr ?_⟩
    rw [difference_eq_zero_iff point hlen]
    exact (ofLe_inj (hlen.trans (length_withoutSign point).symm) heq).symm

theorem yValue_lt (point : Vector UInt8 32) : yValue point < 2 ^ 255 := by
  have hlen : (point.toList.take 31).length = 31 := by
    rw [List.length_take, Vector.length_toList]
    rfl
  have hlow := ofLe_lt (point.toList.take 31)
  have hhigh : (point.toList.getD 31 0 &&& 0x7f).toNat < 128 := by
    rw [UInt8.toNat_and, show (0x7f : UInt8).toNat = 2 ^ 7 - 1 from rfl,
      Nat.and_two_pow_sub_one_eq_mod]
    omega
  unfold yValue withoutSign
  rw [ofLe_append, ofLe_cons, hlen]
  rw [hlen] at hlow
  show _ + 256 ^ 31 * (0 * 256 + _) < _
  omega

/-- Below `2 ^ 255` a class has its number, and at most one spelling more. -/
theorem cast_eq_cast_iff {v m : ℕ} (hv : v < 2 ^ 255) (hm : m < fieldPrime) :
    (v : Field25519) = (m : Field25519) ↔ v = m ∨ v = m + fieldPrime := by
  have hbound : 2 ^ 255 = fieldPrime + 19 := by decide
  rw [ZMod.natCast_eq_natCast_iff', Nat.mod_eq_of_lt hm]
  by_cases hlt : v < fieldPrime
  · rw [Nat.mod_eq_of_lt hlt]
    omega
  · rw [Nat.mod_eq_sub_mod (by omega), Nat.mod_eq_of_lt (by omega)]
    omega

/-- The values of the list are the numbers of the five coordinates. -/
theorem mem_values_iff {v : ℕ} (hv : v < 2 ^ 255) :
    v ∈ smallOrderEd25519.map ofLe ↔ (v : Field25519) = 0 ∨ (v : Field25519) = 1 ∨
      (v : Field25519) = -1 ∨ (v : Field25519) = lowY ∨ (v : Field25519) = -lowY := by
  have hbound : 2 ^ 255 = fieldPrime + 19 := by decide
  have hlow : 19 < lowY := by decide
  have hhigh : lowY + 19 < fieldPrime := by decide
  have hneg : ((fieldPrime - lowY : ℕ) : Field25519) = -lowY := by
    rw [Nat.cast_sub (by omega), ZMod.natCast_self, zero_sub]
  rw [← hneg, ← cast_minus_one, ← Nat.cast_zero, ← Nat.cast_one, cast_eq_cast_iff hv (by omega),
    cast_eq_cast_iff hv (by omega), cast_eq_cast_iff hv (by omega), cast_eq_cast_iff hv (by omega),
    cast_eq_cast_iff hv (by omega), values_smallOrderEd25519]
  simp only [List.mem_cons, List.not_mem_nil, or_false]
  omega

/-! ## Points of low order -/

/-- A string spells a point that three doublings bring to the identity. -/
def LowOrder (point : Vector UInt8 32) : Prop :=
  ∃ x : Field25519, OnCurve (edwardsD : Field25519) (x, (yValue point : Field25519)) ∧
    (double (edwardsD : Field25519))^[3] (x, (yValue point : Field25519)) = identity

/-- For a point of the curve, the list decides whether three doublings come to the identity. -/
theorem hasSmallOrder_iff_third {point : Vector UInt8 32} {x : Field25519}
    (hcurve : OnCurve (edwardsD : Field25519) (x, (yValue point : Field25519))) :
    hasSmallOrder point.toList = true ↔
      (double (edwardsD : Field25519))^[3] (x, (yValue point : Field25519)) = identity := by
  rw [hasSmallOrder_iff_mem, mem_values_iff (yValue_lt point),
    third_eq_identity_iff ed25519_coefficient hcurve]

theorem hasSmallOrder_iff (point : Vector UInt8 32) :
    hasSmallOrder point.toList = true ↔ LowOrder point := by
  constructor
  · intro h
    have hlow := (mem_values_iff (yValue_lt point)).mp ((hasSmallOrder_iff_mem point).mp h)
    obtain ⟨x, hcurve⟩ := exists_onCurve ed25519_coefficient hlow
    exact ⟨x, hcurve, (hasSmallOrder_iff_third hcurve).mp h⟩
  · rintro ⟨x, hcurve, hthird⟩
    exact (hasSmallOrder_iff_third hcurve).mpr hthird

theorem hasSmallOrder_eq_false_iff (point : Vector UInt8 32) :
    hasSmallOrder point.toList = false ↔ ¬LowOrder point := by
  rw [← hasSmallOrder_iff, Bool.not_eq_true]

/-! ## Signatures -/

theorem littleEndian_eq (bytes : Bytes) : littleEndian bytes = ofLe bytes := by
  induction bytes with
  | nil => rfl
  | cons byte bytes ih =>
    have hbyte : byte.toNat < 2 ^ 8 := byte.toNat_lt
    show littleEndian bytes <<< 8 ||| byte.toNat = _
    rw [ih, ofLe_cons, ← Nat.shiftLeft_add_eq_or_of_lt hbyte, Nat.shiftLeft_eq]

/-- What a strict verification asks beside the library's. -/
theorem ed25519Strict_iff (nodeVerify : Bytes → Bytes → Bytes → Option Bool)
    (key nonce scalar : Vector UInt8 32) (message : Bytes) :
    ed25519Strict nodeVerify key.toList (nonce.toList ++ scalar.toList) message = true ↔
      ¬LowOrder key ∧ ¬LowOrder nonce ∧ ofLe scalar.toList < ed25519L ∧
        nodeVerify key.toList message (nonce.toList ++ scalar.toList) = some true := by
  have hnonce : nonce.toList.length = 32 := Vector.length_toList
  have hscalar : scalar.toList.length = 32 := Vector.length_toList
  have hhead : (nonce.toList ++ scalar.toList).take 32 = nonce.toList :=
    List.take_left' hnonce
  have htail : ((nonce.toList ++ scalar.toList).drop 32).take 32 = scalar.toList := by
    rw [List.drop_left' hnonce, List.take_of_length_le (by omega)]
  unfold ed25519Strict
  rw [hhead, htail, littleEndian_eq, ← hasSmallOrder_eq_false_iff, ← hasSmallOrder_eq_false_iff]
  cases nodeVerify key.toList message (nonce.toList ++ scalar.toList) <;> simp

/-! ## Public keys -/

/-- Both readers list the same points. -/
theorem any_x25519SmallOrder {half : Bytes} :
    (x25519SmallOrder.any (· == half)) = true ↔ half ∈ smallOrderPoints := by
  rw [List.any_eq_true]
  constructor
  · rintro ⟨point, hpoint, heq⟩
    rwa [← eq_of_beq heq]
  · intro h
    exact ⟨half, h, beq_self_eq_true half⟩

/-- A signing key has no problem when its classical half is no point of low order. -/
theorem publicKeyProblem_signing (classical : Vector UInt8 32)
    (quantum : Vector UInt8 Sign.mlDsaPublicLen) :
    publicKeyProblem (classical.toList ++ quantum.toList) = none ↔ ¬LowOrder classical := by
  have hclassical : classical.toList.length = 32 := Vector.length_toList
  have hlen : (classical.toList ++ quantum.toList).length = Sign.verifyingKeyLength := by
    rw [List.length_append, hclassical, Vector.length_toList]
    rfl
  have htake : (classical.toList ++ quantum.toList).take 32 = classical.toList :=
    List.take_left' hclassical
  unfold publicKeyProblem
  rw [if_neg (by rw [hlen]; decide), if_pos hlen, htake, ← hasSmallOrder_eq_false_iff]
  cases hasSmallOrder classical.toList <;> simp

/-- A recipient's key has no problem when the first reader finds none in its X25519 half. -/
theorem publicKeyProblem_recipient (accepts : Vector UInt8 publicKeyLength → Bool)
    (key : Vector UInt8 publicKeyLength) :
    (∃ recipient, RecipientPublic.fromBytes accepts key.toList = .ok recipient) ↔
      publicKeyProblem key.toList = none ∧ accepts key = true := by
  have hlen : key.toList.length = 1216 := Vector.length_toList
  have hhalf : (key.toList.drop x25519Offset).length = 32 := by
    rw [List.length_drop, hlen]
    rfl
  obtain ⟨half, hhalf'⟩ : ∃ half : Vector UInt8 32, half.toList = key.toList.drop x25519Offset :=
    ⟨⟨(key.toList.drop x25519Offset).toArray, hhalf⟩, rfl⟩
  have htake : (key.toList.drop 1184).take 32 = half.toList := by
    rw [hhalf']
    exact List.take_of_length_le hhalf.le
  have hread : (∃ recipient, RecipientPublic.fromBytes accepts key.toList = .ok recipient) ↔
      accepts key = true ∧ half.toList ∉ smallOrderPoints ∧ isCanonicalX25519 half = true := by
    unfold RecipientPublic.fromBytes
    rw [← hhalf', tryInto_toList, tryInto_toList, okOr_some, okOr_some]
    simp only [ok_bind, bind_eq_ok, failIf_eq_ok, pure_eq_ok, exists_const, exists_and_left,
      exists_eq, Bool.not_eq_true', Bool.not_eq_false, and_true]
  have hproblem : publicKeyProblem key.toList = none ↔
      half.toList ∉ smallOrderPoints ∧ ofLe half.toList < fieldPrime := by
    unfold publicKeyProblem
    rw [if_pos hlen, htake, refuse_eq_none, refuse_eq_none, any_x25519SmallOrder]
    show _ ∧ ¬fieldPrime ≤ ofLe half.toList ∧ none = none ↔ _
    rw [not_le, and_iff_left rfl]
  rw [hread, hproblem, isCanonicalX25519_iff]
  tauto

/-- **The lists of points are complete.** A string is on the list of seven exactly when some point
of the curve that it spells comes to the identity by three doublings, and exactly when every such
point does. A strict signature has neither a key nor a nonce of low order, and a scalar below the
order of the group. A signing key has no problem exactly when its classical half has no low order;
of recipients' keys both readers refuse the same. -/
theorem blocklists_complete :
    (∀ point : Vector UInt8 32, (hasSmallOrder point.toList = true ↔ LowOrder point) ∧
      ∀ x, OnCurve (edwardsD : Field25519) (x, (yValue point : Field25519)) →
        (hasSmallOrder point.toList = true ↔
          (double (edwardsD : Field25519))^[3] (x, (yValue point : Field25519)) = identity)) ∧
    (∀ nodeVerify (key nonce scalar : Vector UInt8 32) (message : Bytes),
      ed25519Strict nodeVerify key.toList (nonce.toList ++ scalar.toList) message = true ↔
        ¬LowOrder key ∧ ¬LowOrder nonce ∧ ofLe scalar.toList < ed25519L ∧
          nodeVerify key.toList message (nonce.toList ++ scalar.toList) = some true) ∧
    (∀ (classical : Vector UInt8 32) (quantum : Vector UInt8 Sign.mlDsaPublicLen),
      publicKeyProblem (classical.toList ++ quantum.toList) = none ↔ ¬LowOrder classical) ∧
    ∀ (accepts : Vector UInt8 publicKeyLength → Bool) (key : Vector UInt8 publicKeyLength),
      (∃ recipient, RecipientPublic.fromBytes accepts key.toList = .ok recipient) ↔
        publicKeyProblem key.toList = none ∧ accepts key = true :=
  ⟨fun point => ⟨hasSmallOrder_iff point, fun _ => hasSmallOrder_iff_third⟩, ed25519Strict_iff,
    publicKeyProblem_signing, publicKeyProblem_recipient⟩

/-- The identity, spelled with its sign bit set. -/
def signedIdentity : Vector UInt8 32 := ⟨(1 :: (List.replicate 30 0 ++ [128])).toArray, rfl⟩

/-- The theorem at this string. -/
theorem blocklists_complete_identity :
    (double (edwardsD : Field25519))^[3] (0, 1) = (identity : Field25519 × Field25519) := by
  have hvalue : yValue signedIdentity = 1 := by decide
  have hexact := (blocklists_complete.1 signedIdentity).2 0
  rw [hvalue, Nat.cast_one] at hexact
  have hcurve : OnCurve (edwardsD : Field25519) (0, 1) := by
    unfold OnCurve
    ring
  exact (hexact hcurve).mp (by decide)

end HideProtocol.Conformance
