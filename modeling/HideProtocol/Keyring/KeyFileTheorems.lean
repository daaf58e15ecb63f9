import HideProtocol.Keyring.KeyFile

/-!
# Sealed seeds open

A seed that `protect_seed` sealed is opened by `unprotect_seed` under the same passphrase, with
the purpose it was sealed for. The reader tries the normalized spelling first, which is the one
the writer used, so nothing about Unicode matters; the rest is that every field of the header is
read from the offset it was written at.
-/

namespace HideProtocol.Keyring

open Lib Crypto

variable {K : Primitives}

/-- Argon2id accepts the parameters that writers emit, and ChaCha20-Poly1305 seals a seed to 48
bytes that open again. -/
structure Primitives.Correct (K : Primitives) : Prop where
  derives : ∀ passphrase salt, salt.length = saltLen → ∃ key,
    K.argon2id passphrase salt memoryKib.toNat iterations.toNat parallelism.toNat = some key
  opens : ∀ key nonce aad (seed : Key), ∃ sealed,
    K.crypto.aeadSeal key nonce aad seed.toList = some sealed ∧
    sealed.length = seedLen + tagLen ∧
    K.crypto.aeadOpen key nonce aad sealed = some seed.toList

/-! ## The header -/

theorem length_magic : magic.length = 8 := by decide

theorem length_writer : Argon2Params.writer.encode.length = Argon2Params.paramsLen := by decide

theorem parse_writer : Argon2Params.parse Argon2Params.writer.encode = .ok .writer := by
  decide +kernel

theorem fromTag_tag (purpose : KeyPurpose) : KeyPurpose.fromTag purpose.tag = some purpose := by
  cases purpose <;> rfl

/-- A field that stands behind `n` bytes and is `m` long. -/
theorem slice_middle {before field rest : Bytes} {n m : ℕ} (hn : before.length = n)
    (hm : field.length = m) : ((before ++ (field ++ rest)).drop n).take m = field := by
  rw [List.drop_left' hn, List.take_left' hm]

theorem byte_at {before rest : Bytes} {b : UInt8} {n : ℕ} (hn : before.length = n) :
    (before ++ b :: rest)[n]? = some b := by
  rw [← hn, List.getElem?_append_right le_rfl, Nat.sub_self]
  rfl

section Header
variable (salt : Vector UInt8 saltLen) (nonce : Nonce) (purpose : KeyPurpose) (sealed : Bytes)

theorem length_sealHeader : (sealHeader salt nonce purpose).length = headerLen := by
  simp only [sealHeader, List.length_append, length_magic, length_writer, Vector.length_toList,
    List.length_singleton]
  rfl

/-- The whole file, field by field. -/
theorem file_eq : sealHeader salt nonce purpose ++ sealed =
    magic ++ (formatVersion :: (Argon2Params.writer.encode ++ (salt.toList ++
      (nonce.toList ++ purpose.tag :: sealed)))) := by
  simp only [sealHeader, List.append_assoc, List.cons_append, List.nil_append]

theorem file_magic : magic.isPrefixOf (sealHeader salt nonce purpose ++ sealed) = true := by
  rw [file_eq, List.isPrefixOf_iff_prefix]
  exact List.prefix_append _ _

theorem file_version : (sealHeader salt nonce purpose ++ sealed)[8]? = some formatVersion := by
  rw [file_eq]
  exact byte_at length_magic

theorem file_params : ((sealHeader salt nonce purpose ++ sealed).drop 9).take
    Argon2Params.paramsLen = Argon2Params.writer.encode := by
  have hsplit : sealHeader salt nonce purpose ++ sealed =
      (magic ++ [formatVersion]) ++ (Argon2Params.writer.encode ++ (salt.toList ++
        (nonce.toList ++ purpose.tag :: sealed))) := by
    rw [file_eq, List.append_assoc]
    rfl
  rw [hsplit]
  exact slice_middle (by decide) length_writer

theorem file_salt : ((sealHeader salt nonce purpose ++ sealed).drop 18).take saltLen =
    salt.toList := by
  have hsplit : sealHeader salt nonce purpose ++ sealed =
      (magic ++ [formatVersion] ++ Argon2Params.writer.encode) ++ (salt.toList ++
        (nonce.toList ++ purpose.tag :: sealed)) := by
    rw [file_eq, List.append_assoc, List.append_assoc]
    rfl
  rw [hsplit]
  exact slice_middle (by decide) Vector.length_toList

theorem file_nonce : ((sealHeader salt nonce purpose ++ sealed).drop (18 + saltLen)).take nonceLen =
    nonce.toList := by
  have hsplit : sealHeader salt nonce purpose ++ sealed =
      (magic ++ [formatVersion] ++ Argon2Params.writer.encode ++ salt.toList) ++
        (nonce.toList ++ purpose.tag :: sealed) := by
    rw [file_eq, List.append_assoc, List.append_assoc, List.append_assoc]
    rfl
  rw [hsplit]
  apply slice_middle
  · rw [List.length_append, Vector.length_toList]
    rfl
  · exact Vector.length_toList

theorem file_purpose : (sealHeader salt nonce purpose ++ sealed)[legacyHeaderLen]? =
    some purpose.tag := by
  have hsplit : sealHeader salt nonce purpose ++ sealed =
      (magic ++ [formatVersion] ++ Argon2Params.writer.encode ++ salt.toList ++ nonce.toList) ++
        purpose.tag :: sealed := by
    rw [file_eq]
    simp only [List.append_assoc, List.cons_append, List.nil_append]
  rw [hsplit]
  apply byte_at
  rw [List.length_append, List.length_append, Vector.length_toList, Vector.length_toList]
  rfl

end Header

/-! ## Sealing and opening -/

theorem candidates_head (passphrase : String) :
    ∃ others, passphraseCandidates K passphrase = normalizePassphrase K passphrase :: others := by
  unfold passphraseCandidates
  simp only [List.foldl_cons, List.foldl_nil, List.not_mem_nil, if_false, List.nil_append]
  split_ifs <;> exact ⟨_, rfl⟩

/-- What a seed is sealed to. -/
theorem protectSeed_succeeds (hK : K.Correct) (seed : Key) {passphrase : String}
    (hlong : minPassphraseLen ≤ (K.nfc passphrase).length) (purpose : KeyPurpose)
    (salt : Vector UInt8 saltLen) (nonce : Nonce) :
    ∃ wrapping sealed, protectSeed K seed.toList passphrase purpose salt nonce =
        .ok (sealHeader salt nonce purpose ++ sealed) ∧
      Argon2Params.writer.derive K (K.nfc passphrase) salt.toList = .ok wrapping ∧
      sealed.length = seedLen + tagLen ∧
      K.crypto.aeadOpen wrapping nonce (sealHeader salt nonce purpose) sealed =
        some seed.toList := by
  obtain ⟨wrapping, hwrapping⟩ := hK.derives (utf8 (K.nfc passphrase)) salt.toList
    Vector.length_toList
  have hderive : Argon2Params.writer.derive K (K.nfc passphrase) salt.toList = .ok wrapping :=
    okOr_eq_ok.mpr hwrapping
  obtain ⟨sealed, hseal, hlen, hopen⟩ := hK.opens wrapping nonce (sealHeader salt nonce purpose) seed
  refine ⟨wrapping, sealed, ?_, hderive, hlen, hopen⟩
  have hseed : seed.toList.length = seedLen := Vector.length_toList
  unfold protectSeed normalizePassphrase
  simp only []
  rw [failIf_neg _ (by omega), ok_bind, failIf_neg _ (not_not.mpr hseed), ok_bind, hderive, ok_bind,
    hseal, okOr_some, ok_bind]
  rfl

/-- A sealed seed opens under every spelling of its passphrase with the same normal form, and
with its purpose. -/
theorem unprotectSeed_of_nfc_eq (hK : K.Correct) (seed : Key) {passphrase spelling : String}
    (hlong : minPassphraseLen ≤ (K.nfc passphrase).length) (hsame : K.nfc spelling = K.nfc passphrase)
    (purpose : KeyPurpose) (salt : Vector UInt8 saltLen) (nonce : Nonce) :
    ∃ file, protectSeed K seed.toList passphrase purpose salt nonce = .ok file ∧
      file.length = sealedLen ∧ magic.isPrefixOf file = true ∧
      file[8]? = some formatVersion ∧ file[legacyHeaderLen]? = some purpose.tag ∧
      unprotectSeed K file spelling = .ok (seed, purpose) := by
  obtain ⟨wrapping, sealed, hfile, hderive, hlen, hopen⟩ :=
    protectSeed_succeeds hK seed hlong purpose salt nonce
  obtain ⟨others, hcandidates⟩ := @candidates_head K spelling
  have hheader := length_sealHeader salt nonce purpose
  have hlength : (sealHeader salt nonce purpose ++ sealed).length = sealedLen := by
    rw [List.length_append, hheader, hlen]
    rfl
  have hpurpose : purposeOf (sealHeader salt nonce purpose ++ sealed) formatVersion =
      .ok purpose := by
    unfold purposeOf
    rw [if_neg (by decide), List.getD_eq_getElem?_getD, file_purpose, Option.getD_some,
      fromTag_tag, okOr_some]
  refine ⟨_, hfile, hlength, file_magic salt nonce purpose sealed,
    file_version salt nonce purpose sealed, file_purpose salt nonce purpose sealed, ?_⟩
  unfold unprotectSeed
  rw [file_magic, failIf_neg _ (by decide), ok_bind, file_version, okOr_some, ok_bind]
  show (do
    failIf ((sealHeader salt nonce purpose ++ sealed).length ≠ sealedLen) KeyringError.malformed
    let params ← Argon2Params.parse
      (((sealHeader salt nonce purpose ++ sealed).drop 9).take Argon2Params.paramsLen)
    let purpose' ← purposeOf (sealHeader salt nonce purpose ++ sealed) formatVersion
    let nonce' ← okOr (tryInto nonceLen (((sealHeader salt nonce purpose ++ sealed).drop
      (18 + saltLen)).take nonceLen)) KeyringError.malformed
    let seed ← tryCandidates K params
      (((sealHeader salt nonce purpose ++ sealed).drop 18).take saltLen) nonce'
      ((sealHeader salt nonce purpose ++ sealed).take headerLen)
      ((sealHeader salt nonce purpose ++ sealed).drop headerLen)
      (passphraseCandidates K spelling)
    pure (seed, purpose')) = Except.ok (seed, purpose)
  rw [failIf_neg _ (not_not.mpr hlength), ok_bind, file_params, parse_writer, ok_bind, hpurpose,
    ok_bind, file_nonce, file_salt, List.take_left' hheader, List.drop_left' hheader, hcandidates]
  have hnonce : tryInto nonceLen nonce.toList = some nonce := tryInto_toList nonce
  have hseed : tryInto seedLen seed.toList = some seed := tryInto_toList seed
  rw [hnonce, okOr_some, ok_bind, tryCandidates, normalizePassphrase, hsame, hderive, ok_bind, hopen]
  simp only [hseed, okOr_some, ok_bind]
  rfl

/-- A sealed seed opens under its passphrase, with its purpose. -/
theorem unprotectSeed_protectSeed (hK : K.Correct) (seed : Key) {passphrase : String}
    (hlong : minPassphraseLen ≤ (K.nfc passphrase).length) (purpose : KeyPurpose)
    (salt : Vector UInt8 saltLen) (nonce : Nonce) :
    ∃ file, protectSeed K seed.toList passphrase purpose salt nonce = .ok file ∧
      file.length = sealedLen ∧ magic.isPrefixOf file = true ∧
      file[8]? = some formatVersion ∧ file[legacyHeaderLen]? = some purpose.tag ∧
      unprotectSeed K file passphrase = .ok (seed, purpose) :=
  unprotectSeed_of_nfc_eq hK seed hlong rfl purpose salt nonce

/-! ## What an opened file says of itself -/

/-- The header checks that an opened file has passed. -/
theorem header_of_unprotectSeed {bytes : Bytes} {passphrase : String} {seed : Key}
    {purpose : KeyPurpose} (h : unprotectSeed K bytes passphrase = .ok (seed, purpose)) :
    magic.isPrefixOf bytes = true ∧ ∃ version lens, bytes[8]? = some version ∧
      versionLens version = .ok lens ∧ bytes.length = lens.2 ∧
      purposeOf bytes version = .ok purpose := by
  unfold unprotectSeed at h
  have ⟨_, hmagic, h⟩ := bind_eq_ok.mp h
  have ⟨version, hversion, h⟩ := bind_eq_ok.mp h
  have ⟨lens, hlens, h⟩ := bind_eq_ok.mp h
  have ⟨_, hlength, h⟩ := bind_eq_ok.mp h
  have ⟨_, _, h⟩ := bind_eq_ok.mp h
  have ⟨purpose', hpurpose, h⟩ := bind_eq_ok.mp h
  have ⟨_, _, h⟩ := bind_eq_ok.mp h
  have ⟨_, _, h⟩ := bind_eq_ok.mp h
  have hsame : purpose = purpose' := (Prod.mk.inj (pure_eq_ok.mp h)).2
  refine ⟨?_, version, lens, okOr_eq_ok.mp hversion, hlens, ?_, hsame ▸ hpurpose⟩
  · simpa using hmagic
  · simpa using hlength

theorem fromTag_eq_encryption {tag : UInt8} :
    KeyPurpose.fromTag tag = some .encryption ↔ tag = KeyPurpose.encryption.tag := by
  unfold KeyPurpose.fromTag
  constructor
  · intro h
    split_ifs at h with hidentity htag
    · cases h
    · exact htag
  · rintro rfl
    rfl

/-- A file is for encryption only if it is of version 1, or of version 2 and says so. -/
theorem purpose_eq_encryption {bytes : Bytes} {passphrase : String} {seed : Key}
    {purpose : KeyPurpose} (h : unprotectSeed K bytes passphrase = .ok (seed, purpose)) :
    purpose = .encryption ↔ bytes[8]? = some legacyVersion ∨
      bytes[legacyHeaderLen]? = some KeyPurpose.encryption.tag := by
  have ⟨_, version, lens, hversion, hlens, hlength, hpurpose⟩ := header_of_unprotectSeed h
  unfold versionLens at hlens
  unfold purposeOf at hpurpose
  by_cases hlegacy : version = legacyVersion
  · rw [if_pos hlegacy] at hpurpose
    have hencryption := Except.ok.inj hpurpose
    simp [← hencryption, hversion, hlegacy]
  · rw [if_neg hlegacy] at hpurpose
    by_cases hformat : version = formatVersion
    · rw [if_pos hformat] at hlens
      have hlt : legacyHeaderLen < bytes.length := by
        rw [hlength, ← Except.ok.inj hlens]
        decide
      -- the purpose byte is there, so `getD` reads it
      have hbyte := List.getElem?_eq_getElem hlt
      rw [List.getD_eq_getElem?_getD, hbyte, Option.getD_some, okOr_eq_ok] at hpurpose
      rw [hversion, hbyte, Option.some_inj, Option.some_inj, or_iff_right hlegacy,
        ← fromTag_eq_encryption, hpurpose, Option.some_inj]
    · rw [if_neg hformat, if_neg hlegacy] at hlens
      cases hlens

end HideProtocol.Keyring
