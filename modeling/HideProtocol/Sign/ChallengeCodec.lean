import HideProtocol.Lib.Panics
import HideProtocol.Lib.Usize
import HideProtocol.Sign.Challenge

/-!
# Challenges on the wire

A challenge is not secret, so it is handed to the prover as the bytes that are signed. Reading
takes the fields off in the order they were written and leaves nothing over.

The length in the middle is the sender's to choose. `decodeOn` follows the source on a target of
any pointer width, with the steps that could panic; none of them does (`codec_exact`).
-/

namespace HideProtocol.Sign.Challenge

open Lib

/-- `Challenge::new`; `nonce` is what the operating system's generator answers. -/
def new (nonce : Option (Vector UInt8 nonceLength)) (audience : String) (now validFor : UInt64) :
    Except SignError Challenge := do
  let nonce ← okOr nonce .random
  if h : (utf8 audience).length < 2 ^ 64 then
    pure { nonce, audience, issuedAt := now, validFor, audience_lt := h }
  else
    -- no string in memory is longer
    .error .random

def encode (self : Challenge) : Bytes := self.toSignedBytes

def decode (bytes : Bytes) : Except SignError Challenge := do
  let (nonce, rest) ← okOr (splitAtChecked nonceLength bytes) .malformedChallenge
  let (length, rest) ← okOr (splitAtChecked 8 rest) .malformedChallenge
  -- a length that does not fit `usize` is refused here or, being longer than the rest, below
  let length := ofBe length
  let (audience, rest) ← okOr (splitAtChecked length rest) .malformedChallenge
  let (issuedAt, rest) ← okOr (splitAtChecked 8 rest) .malformedChallenge
  let (validFor, rest) ← okOr (splitAtChecked 8 rest) .malformedChallenge
  failIf (rest ≠ []) .malformedChallenge
  -- cannot fail after the split
  let nonce ← okOr (tryInto nonceLength nonce) .malformedChallenge
  let audience ← okOr (fromUtf8 audience) .malformedChallenge
  if h : (utf8 audience).length < 2 ^ 64 then
    pure { nonce, audience, issuedAt := UInt64.ofNat (ofBe issuedAt)
           validFor := UInt64.ofNat (ofBe validFor), audience_lt := h }
  else
    -- eight bytes hold no larger length
    .error .malformedChallenge

/-- The decoder on a target whose pointers have `bits` bits, with the steps that may panic. -/
def decodeOn (bits : ℕ) (bytes : Bytes) : Panics SignError Challenge := do
  let (nonce, rest) ← Panics.returns (okOr (splitAtChecked nonceLength bytes) .malformedChallenge)
  let (length, rest) ← Panics.returns (okOr (splitAtChecked 8 rest) .malformedChallenge)
  let length ← Panics.expect (tryInto 8 length)
  let length ← Panics.returns
    (okOr (tryUsize bits (UInt64.ofNat (ofBe length.toList))) .malformedChallenge)
  let (audience, rest) ← Panics.returns (okOr (splitAtChecked length rest) .malformedChallenge)
  let (issuedAt, rest) ← Panics.returns (okOr (splitAtChecked 8 rest) .malformedChallenge)
  let (validFor, rest) ← Panics.returns (okOr (splitAtChecked 8 rest) .malformedChallenge)
  Panics.returns (failIf (rest ≠ []) .malformedChallenge)
  let nonce ← Panics.expect (tryInto nonceLength nonce)
  let audience ← Panics.returns (okOr (fromUtf8 audience) .malformedChallenge)
  let issuedAt ← Panics.expect (tryInto 8 issuedAt)
  let validFor ← Panics.expect (tryInto 8 validFor)
  if h : (utf8 audience).length < 2 ^ 64 then
    pure { nonce, audience, issuedAt := UInt64.ofNat (ofBe issuedAt.toList)
           validFor := UInt64.ofNat (ofBe validFor.toList), audience_lt := h }
  else
    -- eight bytes hold no larger length
    Panics.returns (.error .malformedChallenge)

/-! ## Fields -/

theorem length_encode (challenge : Challenge) :
    challenge.encode.length = 56 + (utf8 challenge.audience).length := by
  have hnonce : challenge.nonce.toList.length = 32 := Vector.length_toList
  simp only [encode, toSignedBytes, lenPrefixed, List.length_append, length_beBytes, hnonce]
  omega

/-- Splitting off a field at the length it was written with. -/
theorem split_field {field rest : Bytes} {n : ℕ} (h : field.length = n) :
    okOr (splitAtChecked n (field ++ rest)) SignError.malformedChallenge = .ok (field, rest) :=
  okOr_eq_ok.mpr (splitAtChecked_eq_some.mpr ⟨rfl, h⟩)

/-! ## Written and read

On a target of any width the source reads what `decode` reads, but for an audience that is longer
than the target's memory. -/

/-- A challenge in the memory of a target: its audience is a string there, and the length of a
string is a `usize`. -/
abbrev HeldOn (bits : ℕ) := { challenge : Challenge // (utf8 challenge.audience).length < 2 ^ bits }

/-- A checked split finds too few bytes, or cuts a field off. -/
theorem split_cases (n : ℕ) (bytes : Bytes) :
    splitAtChecked n bytes = none ∨
      ∃ field rest, splitAtChecked n bytes = some (field, rest) ∧ bytes = field ++ rest ∧
        field.length = n := by
  cases h : splitAtChecked n bytes with
  | none => exact Or.inl rfl
  | some parts =>
    right
    exact ⟨parts.1, parts.2, rfl, splitAtChecked_eq_some.mp h⟩

/-- A field of eight bytes, as the integer it holds. -/
theorem field_toNat {field : Bytes} (h : field.length = 8) :
    (UInt64.ofNat (ofBe field)).toNat = ofBe field ∧
      beBytes 8 (UInt64.ofNat (ofBe field)).toNat = field := by
  have hlt : ofBe field < 2 ^ 64 := by
    have := ofBe_lt field
    rwa [h] at this
  rw [UInt64.toNat_ofNat_of_lt' hlt]
  exact ⟨rfl, beBytes_ofBe h⟩

/-- The eight bytes an integer was written in, as the reader takes them. -/
theorem exists_field {n : ℕ} (h : n < 2 ^ 64) :
    ∃ field, tryInto 8 (beBytes 8 n) = some field ∧ ofBe field.toList = n := by
  obtain ⟨field, hfield⟩ := exists_vector (length_beBytes 8 n)
  refine ⟨field, ?_, ?_⟩
  · rw [← hfield, tryInto_toList]
  · rw [hfield, ofBe_beBytes (by simpa using h)]

/-- Nothing but a challenge of this target is accepted, and nothing panics. -/
theorem decodeOn_cases (bits : ℕ) (bytes : Bytes) :
    decodeOn bits bytes = Panics.returns (.error .malformedChallenge) ∨
      ∃ challenge : HeldOn bits, bytes = challenge.1.encode ∧
        decodeOn bits bytes = Panics.returns (.ok challenge.1) := by
  unfold decodeOn
  rcases split_cases nonceLength bytes with hnone | ⟨nonce, rest, hsplit, rfl, hnonce⟩
  · left
    rw [hnone]
    rfl
  rw [hsplit, okOr_some, Panics.returns_ok_bind]
  simp only []
  rcases split_cases 8 rest with hnone | ⟨length, rest, hsplit, rfl, hlength⟩
  · left
    rw [hnone]
    rfl
  obtain ⟨length, rfl⟩ := exists_vector hlength
  obtain ⟨hvalue, hbytes⟩ := field_toNat hlength
  rw [hvalue] at hbytes
  rw [hsplit, okOr_some, Panics.returns_ok_bind]
  simp only []
  rw [tryInto_toList, Panics.expect_some, Panics.returns_ok_bind]
  by_cases hfits : ofBe length.toList < 2 ^ bits
  swap
  · left
    rw [tryUsize, hvalue, if_neg hfits]
    rfl
  rw [tryUsize, hvalue, if_pos hfits, okOr_some, Panics.returns_ok_bind]
  rcases split_cases (ofBe length.toList) rest with hnone | ⟨audience, rest, hsplit, rfl, haudience⟩
  · left
    rw [hnone]
    rfl
  rw [hsplit, okOr_some, Panics.returns_ok_bind]
  simp only []
  rcases split_cases 8 rest with hnone | ⟨issuedAt, rest, hsplit, rfl, hissuedAt⟩
  · left
    rw [hnone]
    rfl
  obtain ⟨issuedAt, rfl⟩ := exists_vector hissuedAt
  rw [hsplit, okOr_some, Panics.returns_ok_bind]
  simp only []
  rcases split_cases 8 rest with hnone | ⟨validFor, rest, hsplit, rfl, hvalidFor⟩
  · left
    rw [hnone]
    rfl
  obtain ⟨validFor, rfl⟩ := exists_vector hvalidFor
  rw [hsplit, okOr_some, Panics.returns_ok_bind]
  simp only []
  by_cases hrest : rest = []
  swap
  · left
    rw [failIf_pos _ hrest]
    rfl
  obtain ⟨nonce, rfl⟩ := exists_vector hnonce
  rw [failIf_neg _ (by simpa using hrest), Panics.returns_ok_bind, tryInto_toList,
    Panics.expect_some, Panics.returns_ok_bind]
  cases htext : fromUtf8 audience with
  | none =>
    left
    rfl
  | some text =>
    have hutf8 := utf8_of_fromUtf8 htext
    have hlt : (utf8 text).length < 2 ^ 64 := by
      rw [hutf8, haudience, ← hvalue]
      exact UInt64.toNat_lt _
    right
    refine ⟨⟨⟨nonce, text, UInt64.ofNat (ofBe issuedAt.toList), UInt64.ofNat (ofBe validFor.toList),
      hlt⟩, ?_⟩, ?_, ?_⟩
    · rwa [hutf8, haudience]
    · simp only [encode, toSignedBytes, lenPrefixed, hutf8, haudience, (field_toNat hissuedAt).2,
        (field_toNat hvalidFor).2, hbytes, hrest, List.append_assoc, List.append_nil]
    · rw [okOr_some, Panics.returns_ok_bind, tryInto_toList, Panics.expect_some,
        Panics.returns_ok_bind, tryInto_toList, Panics.expect_some, Panics.returns_ok_bind,
        dif_pos hlt]
      rfl

/-- On a 64-bit target the source does what `decode` does. -/
theorem decodeOn_64 (bytes : Bytes) : decodeOn 64 bytes = Panics.returns (decode bytes) := by
  unfold decodeOn decode
  apply Panics.bind_returns
  intro ⟨nonce, rest⟩ hsplit
  obtain ⟨-, hnonce⟩ := splitAtChecked_eq_some.mp (okOr_eq_ok.mp hsplit)
  apply Panics.bind_returns
  intro ⟨length, rest⟩ hsplit
  obtain ⟨-, hlength⟩ := splitAtChecked_eq_some.mp (okOr_eq_ok.mp hsplit)
  obtain ⟨length, rfl⟩ := exists_vector hlength
  simp only []
  rw [tryInto_toList, Panics.expect_some, Panics.returns_ok_bind, tryUsize_64, okOr_some,
    Panics.returns_ok_bind, (field_toNat hlength).1]
  apply Panics.bind_returns
  intro ⟨audience, rest⟩ _
  apply Panics.bind_returns
  intro ⟨issuedAt, rest⟩ hsplit
  obtain ⟨-, hissuedAt⟩ := splitAtChecked_eq_some.mp (okOr_eq_ok.mp hsplit)
  obtain ⟨issuedAt, rfl⟩ := exists_vector hissuedAt
  apply Panics.bind_returns
  intro ⟨validFor, rest⟩ hsplit
  obtain ⟨-, hvalidFor⟩ := splitAtChecked_eq_some.mp (okOr_eq_ok.mp hsplit)
  obtain ⟨validFor, rfl⟩ := exists_vector hvalidFor
  apply Panics.bind_returns
  intro _ _
  obtain ⟨nonce, rfl⟩ := exists_vector hnonce
  simp only []
  rw [tryInto_toList, Panics.expect_some, Panics.returns_ok_bind, okOr_some, ok_bind]
  apply Panics.bind_returns
  intro text _
  rw [tryInto_toList, Panics.expect_some, Panics.returns_ok_bind, tryInto_toList,
    Panics.expect_some, Panics.returns_ok_bind]
  by_cases hlt : (utf8 text).length < 2 ^ 64
  · rw [dif_pos hlt, dif_pos hlt]
    rfl
  · rw [dif_neg hlt, dif_neg hlt]

/-- What is read was written. -/
theorem encode_of_decodeOn {bits : ℕ} {bytes : Bytes} {challenge : Challenge}
    (h : decodeOn bits bytes = Panics.returns (.ok challenge)) :
    challenge.encode = bytes ∧ (utf8 challenge.audience).length < 2 ^ bits := by
  rcases decodeOn_cases bits bytes with herror | ⟨found, hbytes, hok⟩
  · rw [herror] at h
    cases h
  · rw [hok] at h
    cases h
    exact ⟨hbytes.symm, found.2⟩

/-- What was written is read on every target that can hold it. -/
theorem decodeOn_encode {bits : ℕ} (challenge : HeldOn bits) :
    decodeOn bits challenge.1.encode = Panics.returns (.ok challenge.1) := by
  obtain ⟨⟨nonce, audience, issuedAt, validFor, hlt⟩, hheld⟩ := challenge
  have hnonce : nonce.toList.length = nonceLength := Vector.length_toList
  have hinto : tryInto nonceLength nonce.toList = some nonce := tryInto_toList nonce
  have hlast : okOr (splitAtChecked 8 (beBytes 8 validFor.toNat)) SignError.malformedChallenge =
      .ok (beBytes 8 validFor.toNat, []) := by
    have hsplit := @split_field (beBytes 8 validFor.toNat) [] 8 (length_beBytes _ _)
    rwa [List.append_nil] at hsplit
  obtain ⟨length, hlength, hfits⟩ := exists_field (n := (utf8 audience).length) hlt
  obtain ⟨issued, hissued, hissuedAt⟩ := exists_field issuedAt.toNat_lt
  obtain ⟨valid, hvalid, hvalidFor⟩ := exists_field validFor.toNat_lt
  unfold decodeOn encode toSignedBytes lenPrefixed
  simp only [List.append_assoc]
  -- one field after the other
  rw [split_field hnonce, Panics.returns_ok_bind, split_field (length_beBytes _ _),
    Panics.returns_ok_bind]
  simp only []
  rw [hlength, Panics.expect_some, Panics.returns_ok_bind, hfits, tryUsize,
    UInt64.toNat_ofNat_of_lt' hlt, if_pos hheld, okOr_some, Panics.returns_ok_bind,
    split_field rfl, Panics.returns_ok_bind, split_field (length_beBytes _ _),
    Panics.returns_ok_bind]
  simp only []
  rw [hlast, Panics.returns_ok_bind]
  simp only []
  rw [failIf_neg _ (by simp), Panics.returns_ok_bind, hinto, Panics.expect_some,
    Panics.returns_ok_bind, fromUtf8_utf8, okOr_some, Panics.returns_ok_bind, hissued,
    Panics.expect_some, Panics.returns_ok_bind, hvalid, Panics.expect_some,
    Panics.returns_ok_bind, dif_pos hlt, hissuedAt, hvalidFor, UInt64.ofNat_toNat,
    UInt64.ofNat_toNat]
  rfl

theorem decode_encode (challenge : Challenge) : decode challenge.encode = .ok challenge := by
  have h := @decodeOn_encode 64 ⟨challenge, challenge.audience_lt⟩
  rw [decodeOn_64] at h
  exact Option.some.inj h

/-- **Challenge codec exactness.** On a target of any pointer width: every challenge it can hold is
written and read back; what is read is written back as it was; no two challenges have the same
signed bytes; and reading returns, whatever length is declared for the audience. -/
theorem codec_exact (bits : ℕ) :
    (∀ challenge : HeldOn bits,
      decodeOn bits challenge.1.encode = Panics.returns (.ok challenge.1)) ∧
    (∀ bytes challenge, decodeOn bits bytes = Panics.returns (.ok challenge) →
      challenge.encode = bytes) ∧
    (∀ challenge challenge' : Challenge,
      challenge.toSignedBytes = challenge'.toSignedBytes → challenge = challenge') ∧
    ∀ bytes, ∃ result, decodeOn bits bytes = Panics.returns result := by
  refine ⟨decodeOn_encode, ?_, ?_, ?_⟩
  · intro bytes challenge h
    exact (encode_of_decodeOn h).1
  · intro challenge challenge' h
    exact toSignedBytes_inj h
  · intro bytes
    rcases decodeOn_cases bits bytes with herror | ⟨_, -, hok⟩
    · exact ⟨_, herror⟩
    · exact ⟨_, hok⟩

theorem codec_exact_32 : decodeOn 32 lastChallenge.encode = Panics.returns (.ok lastChallenge) :=
  (codec_exact 32).1 ⟨lastChallenge, by decide⟩

/-! ## Answered at once -/

/-- What a new challenge states. -/
theorem new_eq_ok {nonce : Option (Vector UInt8 nonceLength)} {audience : String}
    {now validFor : UInt64} {challenge : Challenge}
    (h : new nonce audience now validFor = .ok challenge) :
    challenge.audience = audience ∧ challenge.issuedAt = now := by
  unfold new at h
  obtain ⟨nonce, -, h⟩ := bind_eq_ok.mp h
  by_cases hlt : (utf8 audience).length < 2 ^ 64
  · rw [dif_pos hlt, pure_eq_ok] at h
    rw [h]
    exact ⟨rfl, rfl⟩
  · rw [dif_neg hlt] at h
    cases h

theorem le_saturatingAdd (a b : UInt64) : a ≤ saturatingAdd a b := by
  rw [UInt64.le_iff_toNat_le]
  unfold saturatingAdd
  have ha := a.toNat_lt
  have hsize : UInt64.size = 2 ^ 64 := rfl
  by_cases hlt : a.toNat + b.toNat < UInt64.size
  · rw [if_pos hlt, UInt64.toNat_add, Nat.mod_eq_of_lt (by omega)]
    omega
  · rw [if_neg hlt, UInt64.toNat_ofNat']
    omega

/-- A fresh record accepts an honest answer at the time the challenge was issued. -/
theorem accept_answer {P : Primitives} (hP : P.Correct) (challenge : Challenge)
    (identity : SigningIdentity) :
    (SpentNonces.new.accept challenge (challenge.answer P identity).toList
      (identity.verifyingKey P) challenge.issuedAt).1 = .ok () := by
  have hfresh : Fresh SpentNonces.new challenge.nonce challenge.issuedAt := by
    intro e he
    cases he
  have hlive : challenge.issuedAt ≤ challenge.expiresAt := le_saturatingAdd _ _
  let call := Call.answered P challenge identity challenge.issuedAt
  have hsigned : call.Signed := Call.signed_answered hP challenge identity challenge.issuedAt
  show (call.on SpentNonces.new).1 = .ok ()
  exact (on_eq_ok_iff hsigned hlive).mpr hfresh

end HideProtocol.Sign.Challenge
