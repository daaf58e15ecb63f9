import HideProtocol.Cli.Keys
import HideProtocol.Keyring.EpochStoreParsing
import HideProtocol.Keyring.KeyFileTheorems

/-!
# The second reader's screen for keys

The reader that was written from the specification has no Argon2. Of a key file it decides what
can be decided before a passphrase is tried, and of a public key whether it may be used at all.
-/

namespace HideProtocol.Conformance

open Lib Crypto Keyring

def readUInt32BE (bytes : Bytes) (offset : ℕ) : ℕ := ofBe ((bytes.drop offset).take 4)

/-- `none` for a structurally acceptable file, else the reason it must be refused. -/
def keyFileProblem (bytes : Bytes) : Option String :=
  if bytes.take 8 ≠ utf8 "HIDE-KEY" then
    if bytes.length = 32 then none else some "neither a 32-byte seed nor a protected key"
  else
    match bytes[8]? with
    | none => some "unsupported version undefined"
    | some version =>
      if version ≠ 1 ∧ version ≠ 2 then some ("unsupported version " ++ toString version)
      else if bytes.length ≠ (if version = 2 then 95 else 94) then some "length"
      else
        let parallelism := (bytes.getD 9 0).toNat
        let memoryKib := readUInt32BE bytes 10
        let iterations := readUInt32BE bytes 14
        if memoryKib < 8192 ∨ memoryKib > 262144 then some ("memory_kib " ++ toString memoryKib)
        else if iterations < 1 ∨ iterations > 64 then some ("iterations " ++ toString iterations)
        -- a division of numbers keeps the fraction
        else if parallelism < 1 ∨ parallelism > 4 ∨ memoryKib < 8 * parallelism then
          some ("parallelism " ++ toString parallelism)
        else if version = 2 ∧ bytes.getD 46 0 ≠ 1 ∧ bytes.getD 46 0 ≠ 2 then
          some ("purpose " ++ toString (bytes.getD 46 0))
        else none

/-! ## What the header of a key file says -/

/-- The part of a protected file that is looked at before Argon2. -/
def headerOf (bytes : Bytes) : Except KeyringError ((ℕ × ℕ) × Argon2Params × KeyPurpose) := do
  let version ← okOr bytes[8]? .malformed
  let lens ← versionLens version
  failIf (bytes.length ≠ lens.2) .malformed
  let params ← Argon2Params.parse ((bytes.drop 9).take Argon2Params.paramsLen)
  let purpose ← purposeOf bytes version
  pure (lens, params, purpose)

theorem parse_ne_wrongPassphrase (bytes : Bytes) :
    Argon2Params.parse bytes ≠ .error .wrongPassphrase := by
  unfold Argon2Params.parse
  refine bind_ne_error (okOr_ne_error (by simp)) fun _ => ?_
  exact bind_ne_error (failIf_ne_error (by simp)) fun _ => pure_ne_error

/-- No header is refused for its passphrase. -/
theorem headerOf_ne_wrongPassphrase (bytes : Bytes) :
    headerOf bytes ≠ .error .wrongPassphrase := by
  unfold headerOf
  refine bind_ne_error (okOr_ne_error (by simp)) fun version => ?_
  refine bind_ne_error ?_ fun _ => ?_
  · unfold versionLens
    split_ifs <;> simp
  refine bind_ne_error (failIf_ne_error (by simp)) fun _ => ?_
  refine bind_ne_error (parse_ne_wrongPassphrase _) fun _ => ?_
  refine bind_ne_error ?_ fun _ => pure_ne_error
  unfold purposeOf
  split_ifs
  · simp
  · exact okOr_ne_error (by simp)

theorem unprotectSeed_eq (K : Keyring.Primitives) {bytes : Bytes}
    (h : Keyring.magic.isPrefixOf bytes = true) (passphrase : String) :
    unprotectSeed K bytes passphrase = (do
      let (lens, params, purpose) ← headerOf bytes
      let nonce ← okOr (tryInto nonceLen ((bytes.drop (18 + saltLen)).take nonceLen)) .malformed
      let seed ← tryCandidates K params ((bytes.drop 18).take saltLen) nonce
        (bytes.take lens.1) (bytes.drop lens.1) (passphraseCandidates K passphrase)
      pure (seed, purpose)) := by
  simp only [unprotectSeed, headerOf, h, Bool.not_true, Bool.false_eq_true, failIf_neg,
    not_false_eq_true, ok_bind, bind_assoc, pure_bind]

/-- A field inside of the parameters. -/
theorem take_drop_params {bytes : Bytes} {n m : ℕ} (h : n + m ≤ 9) :
    ((((bytes.drop 9).take 9).drop n).take m) = (bytes.drop (9 + n)).take m := by
  rw [List.drop_take, List.take_take, List.drop_drop, Nat.min_eq_left (by omega)]

/-- The numbers of a header are in range. -/
def InRange (bytes : Bytes) : Prop :=
  (8192 ≤ readUInt32BE bytes 10 ∧ readUInt32BE bytes 10 ≤ 262144) ∧
    (1 ≤ readUInt32BE bytes 14 ∧ readUInt32BE bytes 14 ≤ 64) ∧
    1 ≤ (bytes.getD 9 0).toNat ∧ (bytes.getD 9 0).toNat ≤ 4 ∧
    8 * (bytes.getD 9 0).toNat ≤ readUInt32BE bytes 10

theorem toNat_readUInt32BE (bytes : Bytes) (offset : ℕ) :
    (UInt32.ofNat (readUInt32BE bytes offset)).toNat = readUInt32BE bytes offset := by
  have hlt := ofBe_lt ((bytes.drop offset).take 4)
  have hpow := Nat.pow_le_pow_right (show 0 < 256 by omega)
    (List.length_take_le 4 (bytes.drop offset))
  have hsize : UInt32.size = 256 ^ 4 := rfl
  exact UInt32.toNat_ofNat_of_lt' (show ofBe _ < UInt32.size by omega)

/-- The parameters are read exactly when they are in range. -/
theorem exists_parse {bytes : Bytes} (hlen : 18 ≤ bytes.length) :
    (∃ params, Argon2Params.parse ((bytes.drop 9).take Argon2Params.paramsLen) = .ok params) ↔
      InRange bytes := by
  have hslice : ((bytes.drop 9).take 9).length = 9 := by
    rw [List.length_take, List.length_drop]
    omega
  obtain ⟨fields, hfields⟩ := exists_vector (n := Argon2Params.paramsLen) hslice
  have hinto : tryInto Argon2Params.paramsLen ((bytes.drop 9).take Argon2Params.paramsLen) =
      some fields := by
    rw [show (bytes.drop 9).take Argon2Params.paramsLen = fields.toList from hfields.symm,
      tryInto_toList]
  have hlanes : (((bytes.drop 9).take 9).getD 0 0).toNat = (bytes.getD 9 0).toNat := by
    simp [List.getD_eq_getElem?_getD]
  have hmemory : (UInt32.ofNat (ofBe ((bytes.drop (9 + 1)).take 4))).toNat =
      readUInt32BE bytes 10 := toNat_readUInt32BE bytes 10
  have hiterations : (UInt32.ofNat (ofBe ((bytes.drop (9 + 5)).take 4))).toNat =
      readUInt32BE bytes 14 := toNat_readUInt32BE bytes 14
  have hmin : minMemoryKib.toNat = 8192 := rfl
  have hmax : maxMemoryKib.toNat = 262144 := rfl
  have hone : minIterations.toNat = 1 := rfl
  have hmost : maxIterations.toNat = 64 := rfl
  have hfour : maxParallelism = 4 := rfl
  unfold Argon2Params.parse
  rw [hinto, okOr_some, ok_bind]
  simp only [hfields, take_drop_params (show 1 + 4 ≤ 9 by omega),
    take_drop_params (show 5 + 4 ≤ 9 by omega), hlanes]
  simp only [check_pure_eq_ok, failIf_eq_ok, UInt32.le_iff_toNat_le, hmemory, hiterations, hmin,
    hmax, hone, hmost, hfour, exists_and_left, exists_eq, and_true, InRange]
  omega

theorem take_eq_magic {bytes : Bytes} : bytes.take 8 = utf8 "HIDE-KEY" ↔
    Keyring.magic.isPrefixOf bytes = true := by
  rw [List.isPrefixOf_iff_prefix, List.prefix_iff_eq_take, length_magic, eq_comm]
  rfl

theorem versionLens_eq_ok {version : UInt8} {lens : ℕ × ℕ} :
    versionLens version = .ok lens ↔
      version = 1 ∧ lens = (46, 94) ∨ version = 2 ∧ lens = (47, 95) := by
  constructor
  · intro h
    unfold versionLens at h
    split_ifs at h with hcurrent hlegacy
    · right
      exact ⟨hcurrent, (Except.ok.inj h).symm⟩
    · left
      exact ⟨hlegacy, (Except.ok.inj h).symm⟩
  · rintro (⟨rfl, rfl⟩ | ⟨rfl, rfl⟩)
    · rfl
    · rfl

theorem exists_headerOf {bytes : Bytes} : (∃ header, headerOf bytes = .ok header) ↔
    ∃ version lens, bytes[8]? = some version ∧ versionLens version = .ok lens ∧
      bytes.length = lens.2 ∧ InRange bytes ∧ ∃ purpose, purposeOf bytes version = .ok purpose := by
  have hlong : ∀ version lens, versionLens version = .ok lens → bytes.length = lens.2 →
      18 ≤ bytes.length := by
    intro version lens hlens hlen
    rcases versionLens_eq_ok.mp hlens with ⟨-, rfl⟩ | ⟨-, rfl⟩
    · omega
    · omega
  simp only [headerOf, bind_eq_ok, okOr_eq_ok, failIf_eq_ok, pure_eq_ok, not_not, ne_eq,
    exists_const]
  constructor
  · rintro ⟨_, version, hversion, lens, hlens, hlen, params, hparams, purpose, hpurpose, -⟩
    have hrange := (exists_parse (hlong version lens hlens hlen)).mp ⟨params, hparams⟩
    exact ⟨version, lens, hversion, hlens, hlen, hrange, purpose, hpurpose⟩
  · rintro ⟨version, lens, hversion, hlens, hlen, hrange, purpose, hpurpose⟩
    obtain ⟨params, hparams⟩ := (exists_parse (hlong version lens hlens hlen)).mpr hrange
    exact ⟨_, version, hversion, lens, hlens, hlen, params, hparams, purpose, hpurpose, rfl⟩

theorem exists_purposeOf {bytes : Bytes} {version : UInt8} :
    (∃ purpose, purposeOf bytes version = .ok purpose) ↔
      version = 1 ∨ bytes.getD 46 0 = 1 ∨ bytes.getD 46 0 = 2 := by
  have hoffset : legacyHeaderLen = 46 := rfl
  unfold purposeOf KeyPurpose.fromTag
  rw [hoffset]
  by_cases hversion : version = legacyVersion
  · simp [hversion, legacyVersion]
  · have hne : version ≠ 1 := hversion
    rw [if_neg hversion]
    split_ifs <;> simp_all

/-- A file that a check lets pass. -/
theorem refuse_eq_none {c : Prop} [Decidable c] {reason : String} {rest : Option String} :
    (if c then some reason else rest) = none ↔ ¬c ∧ rest = none := by
  by_cases h : c <;> simp [h]

theorem keyFileProblem_raw {bytes : Bytes} (h : ¬Keyring.magic.isPrefixOf bytes = true) :
    keyFileProblem bytes = none ↔ bytes.length = 32 := by
  rw [keyFileProblem, if_pos (mt take_eq_magic.mp h)]
  by_cases hlen : bytes.length = 32 <;> simp [hlen]

/-- The three checks of the screen, and of the other reader. -/
theorem inRange_iff {bytes : Bytes} :
    InRange bytes ↔
      ¬(readUInt32BE bytes 10 < 8192 ∨ readUInt32BE bytes 10 > 262144) ∧
      ¬(readUInt32BE bytes 14 < 1 ∨ readUInt32BE bytes 14 > 64) ∧
      ¬((bytes.getD 9 0).toNat < 1 ∨ (bytes.getD 9 0).toNat > 4 ∨
        readUInt32BE bytes 10 < 8 * (bytes.getD 9 0).toNat) := by
  unfold InRange
  omega

/-- What a protected file has to be, given the byte of its version. -/
theorem keyFileProblem_of_version {bytes : Bytes} (h : Keyring.magic.isPrefixOf bytes = true)
    {version : UInt8} (hversion : bytes[8]? = some version) :
    keyFileProblem bytes = none ↔
      (version = 1 ∨ version = 2) ∧ bytes.length = (if version = 2 then 95 else 94) ∧
        InRange bytes ∧ (version = 2 → bytes.getD 46 0 = 1 ∨ bytes.getD 46 0 = 2) := by
  rw [keyFileProblem, if_neg (not_not.mpr (take_eq_magic.mpr h)), hversion]
  simp only [refuse_eq_none, inRange_iff]
  constructor
  · rintro ⟨hknown, hlen, hmemory, hiterations, hparallelism, hpurpose, -⟩
    refine ⟨?_, not_not.mp hlen, ⟨hmemory, hiterations, hparallelism⟩, ?_⟩
    · by_contra hneither
      exact hknown (not_or.mp hneither)
    · intro htwo
      by_contra hneither
      exact hpurpose ⟨htwo, not_or.mp hneither⟩
  · rintro ⟨hknown, hlen, ⟨hmemory, hiterations, hparallelism⟩, hpurpose⟩
    refine ⟨?_, not_not.mpr hlen, hmemory, hiterations, hparallelism, ?_, trivial⟩
    · rintro ⟨hone, htwo⟩
      exact hknown.elim hone htwo
    · rintro ⟨htwo, hfirst, hsecond⟩
      exact (hpurpose htwo).elim hfirst hsecond

/-- The screen looks at what the header says, number by number. -/
theorem keyFileProblem_protected {bytes : Bytes} (h : Keyring.magic.isPrefixOf bytes = true) :
    keyFileProblem bytes = none ↔ ∃ header, headerOf bytes = .ok header := by
  rw [exists_headerOf]
  simp only [exists_purposeOf]
  cases hversion : bytes[8]? with
  | none =>
    rw [keyFileProblem, if_neg (not_not.mpr (take_eq_magic.mpr h)), hversion]
    constructor
    · intro hnone
      cases hnone
    · rintro ⟨version, lens, hsome, -⟩
      cases hsome
  | some version =>
    rw [keyFileProblem_of_version h hversion]
    constructor
    · rintro ⟨rfl | rfl, hlen, hrange, hpurpose⟩
      · exact ⟨1, (46, 94), rfl, rfl, hlen, hrange, Or.inl rfl⟩
      · exact ⟨2, (47, 95), rfl, rfl, hlen, hrange, Or.inr (hpurpose rfl)⟩
    · rintro ⟨version', lens, hsome, hlens, hlen, hrange, hpurpose⟩
      obtain rfl := Option.some.inj hsome
      rcases versionLens_eq_ok.mp hlens with ⟨rfl, rfl⟩ | ⟨rfl, rfl⟩
      · exact ⟨Or.inl rfl, hlen, hrange, fun htwo => absurd htwo (by decide)⟩
      · exact ⟨Or.inr rfl, hlen, hrange, fun _ => hpurpose.resolve_left (by decide)⟩

/-! ## Opening -/

/-- Argon2id computes a key from every header in range, and what ChaCha20-Poly1305 seals is a tag
longer. -/
structure KeyPrimitives (K : Keyring.Primitives) : Prop where
  derives : ∀ passphrase salt (params : Argon2Params), salt.length = saltLen →
    params.WithinLimits → ∃ key, K.argon2id passphrase salt params.memory.toNat
      params.iterations.toNat params.parallelism.toNat = some key
  seals : ∀ key nonce aad plaintext sealed,
    K.crypto.aeadSeal key nonce aad plaintext = some sealed →
      sealed.length = plaintext.length + Keyring.tagLen
  opens : ∀ key nonce aad sealed plaintext,
    K.crypto.aeadOpen key nonce aad sealed = some plaintext →
      sealed.length = plaintext.length + Keyring.tagLen

variable {K : Keyring.Primitives} {bytes : Bytes}

/-- The loop over the spellings finds the seed, or the passphrase is wrong. -/
theorem tryCandidates_outcome (hK : KeyPrimitives K) {params : Argon2Params}
    (hparams : params.WithinLimits) {salt : Bytes} (hsalt : salt.length = saltLen) (nonce : Nonce)
    (header : Bytes) {sealed : Bytes} (hsealed : sealed.length = seedLen + Keyring.tagLen)
    (candidates : List String) :
    (∃ seed, tryCandidates K params salt nonce header sealed candidates = .ok seed) ∨
      tryCandidates K params salt nonce header sealed candidates = .error .wrongPassphrase := by
  induction candidates with
  | nil => exact .inr rfl
  | cons candidate candidates ih =>
    obtain ⟨wrapping, hwrapping⟩ := hK.derives (utf8 candidate) salt params hsalt hparams
    have hderive : params.derive K candidate salt = .ok wrapping := okOr_eq_ok.mpr hwrapping
    rw [tryCandidates, hderive, ok_bind]
    cases hopen : K.crypto.aeadOpen wrapping nonce header sealed with
    | none => exact ih
    | some seed =>
      have hlen := hK.opens _ _ _ _ _ hopen
      obtain ⟨v, hv⟩ := exists_vector (n := seedLen) (show seed.length = seedLen by omega)
      have hinto : tryInto seedLen seed = some v := by rw [← hv, tryInto_toList]
      left
      exact ⟨v, okOr_eq_ok.mpr hinto⟩

theorem headerOf_eq_ok {lens : ℕ × ℕ} {params : Argon2Params} {purpose : KeyPurpose}
    (h : headerOf bytes = .ok (lens, params, purpose)) :
    bytes.length = lens.2 ∧ lens.2 = lens.1 + (seedLen + Keyring.tagLen) ∧
      legacyHeaderLen ≤ lens.1 ∧ params.WithinLimits := by
  unfold headerOf at h
  obtain ⟨version, -, h⟩ := bind_eq_ok.mp h
  obtain ⟨lens', hlens, h⟩ := bind_eq_ok.mp h
  obtain ⟨_, hlen, h⟩ := bind_eq_ok.mp h
  obtain ⟨params', hparams, h⟩ := bind_eq_ok.mp h
  obtain ⟨purpose', -, h⟩ := bind_eq_ok.mp h
  have hsame := Prod.ext_iff.mp (pure_eq_ok.mp h)
  rw [failIf_eq_ok, not_not] at hlen
  rw [show lens = lens' from hsame.1, show params = params' from (Prod.ext_iff.mp hsame.2).1]
  refine ⟨hlen, ?_, ?_, (Argon2Params.encode_of_parse hparams).2⟩
  · unfold versionLens at hlens
    split_ifs at hlens <;> (rw [← Except.ok.inj hlens]; rfl)
  · unfold versionLens at hlens
    split_ifs at hlens with hversion hversion
    · rw [← Except.ok.inj hlens]
      decide
    · rw [← Except.ok.inj hlens]

/-- A protected file whose header is read opens, or the passphrase is wrong. -/
theorem unprotectSeed_outcome (hK : KeyPrimitives K)
    (hmagic : Keyring.magic.isPrefixOf bytes = true)
    {header : (ℕ × ℕ) × Argon2Params × KeyPurpose} (h : headerOf bytes = .ok header)
    (passphrase : String) :
    (∃ found, unprotectSeed K bytes passphrase = .ok found) ∨
      unprotectSeed K bytes passphrase = .error .wrongPassphrase := by
  obtain ⟨lens, params, purpose⟩ := header
  obtain ⟨hlen, hsum, hheader, hparams⟩ := headerOf_eq_ok h
  have h46 : legacyHeaderLen = 46 := rfl
  have h32 : seedLen = 32 := rfl
  have h16 : saltLen = 16 := rfl
  have h12 : nonceLen = 12 := rfl
  have htag : Keyring.tagLen = 16 := rfl
  have hsalt : ((bytes.drop 18).take saltLen).length = saltLen := by
    rw [List.length_take, List.length_drop]
    omega
  have hnonce : ((bytes.drop (18 + saltLen)).take nonceLen).length = nonceLen := by
    rw [List.length_take, List.length_drop]
    omega
  have hsealed : (bytes.drop lens.1).length = seedLen + Keyring.tagLen := by
    rw [List.length_drop]
    omega
  obtain ⟨nonce, hv⟩ := exists_vector hnonce
  rw [unprotectSeed_eq K hmagic, h, ok_bind]
  simp only [← hv, tryInto_toList, okOr_some, ok_bind]
  rcases tryCandidates_outcome hK hparams hsalt nonce (bytes.take lens.1) hsealed
    (passphraseCandidates K passphrase) with ⟨seed, hseed⟩ | hwrong
  · exact .inl ⟨_, by rw [hseed, ok_bind]; rfl⟩
  · exact .inr (by rw [hwrong, error_bind])

theorem open_of_screen (hK : KeyPrimitives K) (h : keyFileProblem bytes = none)
    (passphrase : String) :
    (∃ secret, Keyring.«open» K bytes (some passphrase) = .ok secret) ∨
      Keyring.«open» K bytes (some passphrase) = .error .wrongPassphrase := by
  unfold Keyring.«open» inspect
  by_cases hmagic : Keyring.magic.isPrefixOf bytes = true
  · rw [if_pos hmagic]
    obtain ⟨header, hheader⟩ := (keyFileProblem_protected hmagic).mp h
    rcases unprotectSeed_outcome hK hmagic hheader passphrase with
      ⟨⟨seed, purpose⟩, hfound⟩ | hwrong
    · left
      simp only [okOr_some, ok_bind, hfound]
      cases purpose with
      | identity => exact ⟨_, rfl⟩
      | encryption => exact ⟨_, rfl⟩
    · right
      simp only [okOr_some, ok_bind, hwrong, error_bind]
  · have hlen : bytes.length = 32 := (keyFileProblem_raw hmagic).mp h
    obtain ⟨seed, hseed⟩ := exists_vector (n := seedLen) hlen
    rw [if_neg hmagic]
    left
    simp only [← hseed, Vector.length_toList, ne_eq, not_true_eq_false, not_false_eq_true,
      failIf_neg, ok_bind, tryInto_toList, okOr_some]
    exact ⟨_, rfl⟩

/-- What is refused is refused whatever Argon2 and the AEAD would do. -/
theorem open_of_problem (h : keyFileProblem bytes ≠ none) :
    ∃ error ≠ KeyringError.wrongPassphrase, ∀ (K : Keyring.Primitives) (passphrase : String),
      Keyring.«open» K bytes (some passphrase) = .error error := by
  unfold Keyring.«open» inspect
  by_cases hmagic : Keyring.magic.isPrefixOf bytes = true
  · have hnone := mt (keyFileProblem_protected hmagic).mpr h
    cases hheader : headerOf bytes with
    | ok header => exact absurd ⟨header, hheader⟩ hnone
    | error error =>
      refine ⟨error, ?_, fun K passphrase => ?_⟩
      · intro hwrong
        exact headerOf_ne_wrongPassphrase bytes (hwrong ▸ hheader)
      · simp only [hmagic, if_true, okOr_some, ok_bind, unprotectSeed_eq K hmagic, hheader,
          error_bind]
  · have hlen : bytes.length ≠ seedLen := mt (keyFileProblem_raw hmagic).mpr h
    refine ⟨.malformed, by decide, fun K passphrase => ?_⟩
    rw [if_neg hmagic]
    show (do failIf _ _; _) = _
    rw [failIf_pos _ hlen, error_bind]

/-- Every file that is written passes. -/
theorem keyFileProblem_protectSeed (hK : KeyPrimitives K) {seed : Bytes} {passphrase : String}
    {purpose : KeyPurpose} {salt : Vector UInt8 saltLen} {nonce : Nonce}
    (h : protectSeed K seed passphrase purpose salt nonce = .ok bytes) :
    keyFileProblem bytes = none := by
  unfold protectSeed at h
  obtain ⟨_, -, h⟩ := bind_eq_ok.mp h
  obtain ⟨_, hseed, h⟩ := bind_eq_ok.mp h
  obtain ⟨wrapping, -, h⟩ := bind_eq_ok.mp h
  obtain ⟨sealed, hsealed, h⟩ := bind_eq_ok.mp h
  rw [failIf_eq_ok, not_not] at hseed
  have hlen := hK.seals _ _ _ _ _ (okOr_eq_ok.mp hsealed)
  have hfile : bytes = sealHeader salt nonce purpose ++ sealed := pure_eq_ok.mp h
  have hversion : versionLens formatVersion = .ok (headerLen, sealedLen) := rfl
  have hpurpose : purposeOf (sealHeader salt nonce purpose ++ sealed) formatVersion =
      .ok purpose := by
    unfold purposeOf
    rw [if_neg (by decide), List.getD_eq_getElem?_getD, file_purpose, Option.getD_some,
      fromTag_tag, okOr_some]
  have hlength : (sealHeader salt nonce purpose ++ sealed).length = sealedLen := by
    rw [List.length_append, length_sealHeader, hlen, hseed]
    rfl
  rw [hfile]
  apply (keyFileProblem_protected (file_magic salt nonce purpose sealed)).mpr
  refine ⟨((headerLen, sealedLen), .writer, purpose), ?_⟩
  rw [headerOf, file_version, okOr_some, ok_bind, hversion, ok_bind,
    failIf_neg _ (not_not.mpr hlength), ok_bind, file_params, parse_writer, ok_bind, hpurpose,
    ok_bind]
  rfl

/-- **The screen for key files is exact.** A file that passes opens for some passphrases and is
refused under others only as the wrong passphrase; a file that does not is refused for another
reason, under every passphrase and before any of the primitives is asked. What is written
passes. -/
theorem key_screen_exact (K : Keyring.Primitives) (hK : KeyPrimitives K) (bytes : Bytes) :
    (keyFileProblem bytes = none ↔ ∀ passphrase,
      (∃ secret, Keyring.«open» K bytes (some passphrase) = .ok secret) ∨
        Keyring.«open» K bytes (some passphrase) = .error .wrongPassphrase) ∧
    (keyFileProblem bytes ≠ none → ∃ error ≠ KeyringError.wrongPassphrase,
      ∀ (K' : Keyring.Primitives) (passphrase : String),
        Keyring.«open» K' bytes (some passphrase) = .error error) ∧
    ∀ seed passphrase purpose salt nonce,
      protectSeed K seed passphrase purpose salt nonce = .ok bytes →
        keyFileProblem bytes = none := by
  refine ⟨⟨open_of_screen hK, fun h => ?_⟩, open_of_problem,
    fun _ _ _ _ _ => keyFileProblem_protectSeed hK⟩
  by_contra hproblem
  obtain ⟨error, hne, hrefused⟩ := open_of_problem hproblem
  rcases h "" with ⟨secret, hok⟩ | hwrong
  · rw [hrefused] at hok
    cases hok
  · rw [hrefused, Except.error.injEq] at hwrong
    exact hne hwrong

theorem toyKeyring_keys : KeyPrimitives Cli.toyKeyring where
  derives _ _ _ _ _ := ⟨_, rfl⟩
  seals key nonce aad plaintext sealed h := by
    have hsealed : plaintext ++ List.replicate 16 0 = sealed := Option.some.inj h
    rw [← hsealed, List.length_append, List.length_replicate]
    rfl
  opens key nonce aad sealed plaintext h := by
    have hopen : (if sealed.drop (sealed.length - 16) = List.replicate 16 0 then
        some (sealed.take (sealed.length - 16)) else none) = some plaintext := h
    split_ifs at hopen with htag
    have hlen := congrArg List.length htag
    have h16 : Keyring.tagLen = 16 := rfl
    rw [List.length_drop, List.length_replicate] at hlen
    rw [← Option.some.inj hopen, List.length_take]
    omega

/-- The theorem at a file that was written. -/
theorem key_screen_exact_written :
    ∃ file, protectSeed Cli.toyKeyring Cli.toySeed.toList "first passphrase" .identity Cli.toySalt
        Cli.toyNonce = .ok file ∧ keyFileProblem file = none ∧
      ∀ passphrase, (∃ secret, Keyring.«open» Cli.toyKeyring file (some passphrase) = .ok secret) ∨
        Keyring.«open» Cli.toyKeyring file (some passphrase) = .error .wrongPassphrase := by
  obtain ⟨file, hfile, -⟩ := Cli.sealed_toy .identity
  have hexact := key_screen_exact Cli.toyKeyring toyKeyring_keys file
  have hnone := hexact.2.2 _ _ _ _ _ hfile
  exact ⟨file, hfile, hnone, hexact.1.mp hnone⟩

end HideProtocol.Conformance
