import HideProtocol.Object.ContainerTheorems

/-!
# Runs that succeed

The limits of the writer do not get in the way of ordinary runs: with an AEAD that never
refuses, valid metadata that leaves room for a signature, and one to sixty-four recipients,
`encryptInner` succeeds. The header stays far below its limit of one mebibyte because each of
its parts has a bound of its own.
-/

namespace HideProtocol.Object

open Lib Format Crypto

/-! ## Lengths -/

theorem length_stanza_le {s : Stanza} (hvalid : s.Valid) (hx : s.asXwing.isSome) :
    s.bytes.length ≤ 1204 := by
  rcases s with stanza | stanza
  · obtain ⟨h₁, h₂⟩ := hvalid
    have := Cbor.headLen_le stanza.encapsulation.length
    have := Cbor.headLen_le stanza.wrappedCek.length
    have := Cbor.headLen_le 3
    have := Cbor.headLen_le xwingTag
    simp only [Stanza.bytes, Cbor.array, Cbor.uint, Cbor.bytes, List.length_append, Cbor.length_head]
    rw [encapsulationLen] at h₁
    rw [wrappedCekLen] at h₂
    omega
  · cases hx

theorem length_signature_le {s : SignatureStanza} (hvalid : s.Valid) : s.bytes.length ≤ 5393 := by
  obtain ⟨h₁, h₂⟩ := hvalid
  have := Cbor.headLen_le s.verifyingKey.length
  have := Cbor.headLen_le s.signature.length
  have := Cbor.headLen_le 3
  have := Cbor.headLen_le 1
  simp only [SignatureStanza.bytes, Cbor.array, Cbor.uint, Cbor.bytes, List.length_append,
    Cbor.length_head]
  rw [verifyingKeyLen] at h₁
  rw [signatureLen] at h₂
  omega

/-- A valid header of short stanzas and few extensions encodes, well below the limit. -/
theorem header_encode_succeeds {header : ProtectedHeader} (hvalid : header.Valid true)
    (hshort : ∀ s ∈ header.recipients, s.bytes.length ≤ 1204)
    (hext : (header.extensions.flatMap encodeExtension).length ≤ 100000) :
    ∃ b, header.encode = .ok b ∧ b.length ≠ 0 ∧ b.length ≤ 500000 := by
  have hstanzas : (header.recipients.flatMap Stanza.bytes).length ≤
      header.recipients.length * 1204 :=
    length_flatMap_le hshort
  have hsigs : ((header.slot true).flatMap SignatureStanza.bytes).length ≤
      (header.slot true).length * 5393 :=
    length_flatMap_le fun s hs => length_signature_le (hvalid.signature s hs)
  have hslot : (header.slot true).length ≤ 1 := hvalid.signatures_le
  have hrec := hvalid.recipients_le
  have hmeta := hvalid.metadata_le
  rw [maxRecipients] at hrec
  rw [maxMetadataLen, tagLen] at hmeta
  have hlen : (header.bytes true).length ≠ 0 ∧ (header.bytes true).length ≤ 500000 := by
    have h₁ := Cbor.headLen_le (5 + header.extensions.length)
    have h₂ := Cbor.headLen_le header.objectId.toList.length
    have h₃ := Cbor.headLen_le header.recipients.length
    have h₄ := Cbor.headLen_le header.encryptedMetadata.length
    have h₅ := Cbor.headLen_le (header.slot true).length
    have h₆ : Cbor.headLen 1 = 1 := rfl
    have h₇ : Cbor.headLen 2 = 1 := rfl
    have h₈ : Cbor.headLen 3 = 1 := rfl
    have h₉ : Cbor.headLen 4 = 1 := rfl
    have h₁₀ : Cbor.headLen 5 = 1 := rfl
    have h₁₁ : Cbor.headLen suite = 1 := rfl
    have hid : header.objectId.toList.length = 32 := Vector.length_toList
    simp only [ProtectedHeader.bytes, Cbor.map, Cbor.array, Cbor.uint, Cbor.bytes,
      List.length_append, Cbor.length_head]
    omega
  refine ⟨header.bytes true, ?_, hlen⟩
  apply (ProtectedHeader.encodeWithSignatures_eq_ok header true _).mpr
  refine ⟨hvalid, rfl, ?_⟩
  rw [maxHeaderLen]
  omega

/-- An outer header around few bytes encodes, whatever the MAC. -/
theorem encodeHeader_succeeds {protectedBytes : Bytes} (hne : protectedBytes.length ≠ 0)
    (hle : protectedBytes.length ≤ 500000) (mac : Key) :
    ∃ b, encodeHeader protectedBytes mac = .ok b ∧ b.length ≠ 0 ∧ b.length ≤ maxHeaderLen := by
  have hlen : (Cbor.array 2 ++ Cbor.bytes protectedBytes ++ Cbor.bytes mac.toList).length ≠ 0 ∧
      (Cbor.array 2 ++ Cbor.bytes protectedBytes ++ Cbor.bytes mac.toList).length ≤
        maxHeaderLen := by
    have h₁ := Cbor.headLen_le 2
    have h₂ := Cbor.headLen_le protectedBytes.length
    have h₃ := Cbor.headLen_le mac.toList.length
    have hmac : mac.toList.length = 32 := Vector.length_toList
    simp only [Cbor.array, Cbor.bytes, List.length_append, Cbor.length_head, maxHeaderLen]
    omega
  refine ⟨_, ?_, hlen⟩
  unfold encodeHeader checkHeaderLen
  rw [failIf_neg _ (by rw [maxHeaderLen]; omega), ok_bind]
  simp only [failIf_neg FormatError.headerTooLarge (by omega :
    ¬((Cbor.array 2 ++ Cbor.bytes protectedBytes ++ Cbor.bytes mac.toList).length = 0 ∨
      (Cbor.array 2 ++ Cbor.bytes protectedBytes ++ Cbor.bytes mac.toList).length >
        maxHeaderLen)), ok_bind]
  rfl

/-! ## Metadata with room for a signature -/

theorem signed_valid {metadata : Metadata} {stanza : SignatureStanza} (hvalid : metadata.Valid true)
    (hstanza : stanza.Valid) : ({ metadata with signature := some stanza } : Metadata).Valid true where
  extensions := hvalid.extensions
  filename := hvalid.filename
  mediaType := hvalid.mediaType
  signature := by
    intro s hs
    rw [← Option.some.inj hs]
    exact hstanza

theorem signed_encodedLen_le (metadata : Metadata) {stanza : SignatureStanza}
    (hstanza : stanza.Valid) :
    ({ metadata with signature := some stanza } : Metadata).encodedLen ≤
      metadata.encodedLen + 6000 := by
  obtain ⟨h₁, h₂⟩ := hstanza
  have h₃ := Cbor.headLen_le (({ metadata with signature := some stanza } : Metadata).entries true)
  have h₄ := Cbor.headLen_le stanza.verifyingKey.length
  have h₅ := Cbor.headLen_le stanza.signature.length
  rw [verifyingKeyLen] at h₁
  rw [signatureLen] at h₂
  simp only [Metadata.encodedLen, Option.elim_some]
  omega

/-! ## Preparing a header -/

section Succeeds
variable {P : Crypto.Primitives} (S : Sign.Primitives) {metadata : Metadata}
  (material : ObjectMaterial) {recipients : List RecipientStanza} (signer : Option Signer)
  {shape : VectorShape} (plaintext : Bytes)

/-- An AEAD that never refuses to seal, as ChaCha20-Poly1305 does not below 256 GiB. -/
def NeverRefuses (P : Crypto.Primitives) : Prop :=
  ∀ key nonce aad plaintext, P.aeadSeal key nonce aad plaintext ≠ none

/-- Inputs within every limit of the writer, whatever stanzas the shape puts first. -/
structure WithinBounds (metadata : Metadata) (stanzas : List Stanza) (shape : VectorShape) :
    Prop where
  metadata_valid : metadata.Valid true
  metadata_len : metadata.encodedLen + 6000 ≤ maxMetadataLen
  stanzas_ne : stanzas ≠ []
  stanzas_le : stanzas.length ≤ maxRecipients
  stanzas_valid : ∀ s ∈ stanzas, s.Valid
  stanzas_short : ∀ s ∈ stanzas, s.bytes.length ≤ 1204
  minor : shape.minor ≠ 0 ∧ shape.minor ≠ legacySignedMinor
  extensions : ValidExtensions shape.headerExtensions
  extensions_len : (shape.headerExtensions.flatMap encodeExtension).length ≤ 100000

/-- The same for a shape that adds no stanzas. -/
structure WithinLimits (metadata : Metadata) (recipients : List RecipientStanza)
    (shape : VectorShape) : Prop where
  metadata_valid : metadata.Valid true
  metadata_len : metadata.encodedLen + 6000 ≤ maxMetadataLen
  recipients_ne : recipients ≠ []
  recipients_le : recipients.length ≤ maxRecipients
  recipients_valid : ∀ s ∈ recipients, (Stanza.xWing s).Valid
  leading : shape.leadingStanzas = []
  minor : shape.minor ≠ 0 ∧ shape.minor ≠ legacySignedMinor
  extensions : ValidExtensions shape.headerExtensions
  extensions_len : (shape.headerExtensions.flatMap encodeExtension).length ≤ 100000

theorem WithinLimits.bounds (h : WithinLimits metadata recipients shape) :
    WithinBounds metadata (unsignedHeader material recipients shape).recipients shape := by
  have hrec : (unsignedHeader material recipients shape).recipients =
      recipients.map Stanza.xWing := by
    simp [unsignedHeader, h.leading]
  have hvalid : ∀ s ∈ recipients.map Stanza.xWing, s.Valid ∧ s.bytes.length ≤ 1204 := by
    intro s hs
    obtain ⟨x, hx, rfl⟩ := List.mem_map.mp hs
    have := h.recipients_valid x hx
    exact ⟨this, length_stanza_le this rfl⟩
  rw [hrec]
  exact
    { metadata_valid := h.metadata_valid, metadata_len := h.metadata_len
      stanzas_ne := by simpa using h.recipients_ne
      stanzas_le := by
        rw [List.length_map]
        exact h.recipients_le
      stanzas_valid := fun s hs => (hvalid s hs).1
      stanzas_short := fun s hs => (hvalid s hs).2
      minor := h.minor, extensions := h.extensions, extensions_len := h.extensions_len }

theorem preambleFor_succeeds {n : ℕ} (hminor : shape.minor ≠ 0 ∧ shape.minor ≠ legacySignedMinor)
    (hn : n ≠ 0) (hle : n ≤ maxHeaderLen) :
    ∃ preamble, preambleFor signer shape n = .ok preamble := by
  have hlen : ¬(n = 0 ∨ n > maxHeaderLen) := by omega
  unfold preambleFor Preamble.legacySigned Preamble.fromParts
  split
  · have hlegacy : legacySignedMinor ≠ 0 := by decide
    have hflags : ¬((0 : UInt8) &&& ~~~flagSigned ≠ 0 ∨
        (legacySignedMinor = legacySignedMinor ∧ (0 : UInt8) ≠ 0)) := by decide
    rw [dif_neg hlegacy, dif_neg hflags]
    exact ⟨_, rfl⟩
  · have hflags : ¬((if signer.isSome then flagSigned else 0) &&& ~~~flagSigned ≠ 0 ∨
        (shape.minor = legacySignedMinor ∧ (if signer.isSome then flagSigned else 0) ≠ 0)) := by
      intro h
      rcases h with h | h
      · split at h
        · exact h (by decide)
        · exact h (by decide)
      · exact hminor.2 h.1
    rw [dif_neg hminor.1, dif_neg hflags]
    exact ⟨_, rfl⟩

/-- Signing succeeds, and leaves a header and metadata that still fit. -/
theorem signContents_succeeds (P : Crypto.Primitives)
    (h : WithinBounds metadata (unsignedHeader material recipients shape).recipients shape) :
    ∃ header metadata', signContents P S metadata material recipients signer shape plaintext =
        .ok (header, metadata') ∧
      metadata'.Valid true ∧ metadata'.encodedLen ≤ maxMetadataLen ∧
      header.recipients = (unsignedHeader material recipients shape).recipients ∧
      header.extensions = shape.headerExtensions ∧ header.signatures.length ≤ maxSignatures ∧
      ∀ s ∈ header.signatures, s.Valid := by
  have hvalid := h.metadata_valid
  have hbase : metadata.signingBase = .ok (metadata.bytes false) :=
    (Metadata.encodeWithSignature_eq_ok metadata false _).mpr
      ⟨⟨hvalid.extensions, hvalid.filename, hvalid.mediaType, fun s hs => by cases hs⟩, rfl⟩
  have hlen := h.metadata_len
  unfold signContents
  rw [hbase, mapErr_ok, ok_bind]
  rcases signer with _ | ⟨identity, placement⟩
  · exact ⟨_, _, rfl, hvalid, by omega, rfl, rfl, Nat.zero_le _, by simp [unsignedHeader]⟩
  · obtain ⟨provisional, hprovisional⟩ := preambleFor_succeeds (some (identity, placement)) h.minor
      one_ne_zero (by decide)
    simp only [hprovisional, mapErr_ok, ok_bind]
    let unsigned := unsignedHeader material recipients shape
    let stanza := runStanza P S identity provisional unsigned (metadata.bytes false) plaintext
    have hstanza : stanza.Valid := runStanza_valid ..
    have hsigned := signed_encodedLen_le metadata hstanza
    have hone : ∀ s ∈ [stanza], s.Valid := by simpa using hstanza
    have hnone : ∀ s ∈ unsigned.signatures, s.Valid := by simp [unsigned, unsignedHeader]
    rcases placement
    · exact ⟨{ unsigned with signatures := [stanza] }, metadata, rfl, hvalid, by omega, rfl, rfl,
        le_rfl, hone⟩
    · exact ⟨unsigned, { metadata with signature := some stanza }, rfl, signed_valid hvalid hstanza,
        by omega, rfl, rfl, Nat.zero_le _, hnone⟩
    · exact ⟨unsigned, metadata, rfl, hvalid, by omega, rfl, rfl, Nat.zero_le _, hnone⟩
    · exact ⟨{ unsigned with signatures := [stanza] }, metadata, rfl, hvalid, by omega, rfl, rfl,
        le_rfl, hone⟩

theorem prepare_succeeds (hP : AeadCorrect P) (hseal : NeverRefuses P)
    (h : WithinBounds metadata (unsignedHeader material recipients shape).recipients shape) :
    ∃ prepared, prepare P S metadata material recipients signer shape plaintext = .ok prepared := by
  obtain ⟨header, metadata', hsign, hvalid, hlen, hrec, hext, hsigs, hsigValid⟩ :=
    signContents_succeeds S material signer plaintext P h
  have hencode : metadata'.encode = .ok (metadata'.bytes true) :=
    (Metadata.encodeWithSignature_eq_ok metadata' true _).mpr ⟨hvalid, rfl⟩
  obtain ⟨sealed, hsealed⟩ := Option.ne_none_iff_exists'.mp
    (hseal (metadataKey P material.cek material.objectId) metadataNonce
      (metadataAad material.objectId) (metadata'.bytes true))
  have hsealedLen : sealed.length = metadata'.encodedLen + tagLen := by
    rw [hP.length _ _ _ _ _ hsealed, Metadata.length_bytes]
  -- the sealed metadata is within the limits of a header
  have hheader : ProtectedHeader.Valid { header with encryptedMetadata := sealed } true :=
    { recipients_ne := by
        simp only [hrec]
        exact h.stanzas_ne
      recipients_le := by
        simp only [hrec]
        exact h.stanzas_le
      le_metadata := by
        simp only [hsealedLen]
        omega
      metadata_le := by
        simp only [hsealedLen]
        omega
      signatures_le := hsigs
      extensions := by
        simp only [hext]
        exact h.extensions
      stanza := by
        intro s hs
        simp only [hrec] at hs
        exact h.stanzas_valid s hs
      signature := hsigValid }
  obtain ⟨protectedBytes, hprotected, hne, hle⟩ := header_encode_succeeds hheader
    (by
      intro s hs
      simp only [hrec] at hs
      exact h.stanzas_short s hs)
    (by
      simp only [hext]
      exact h.extensions_len)
  -- a first encoding gives the length, a second one the tag
  obtain ⟨sized, hsized, hsizedNe, hsizedLe⟩ := encodeHeader_succeeds hne hle (Vector.replicate 32 0)
  obtain ⟨preamble, hpreamble⟩ := preambleFor_succeeds signer h.minor hsizedNe hsizedLe
  obtain ⟨headerBytes, hheaderBytes, -⟩ := encodeHeader_succeeds hne hle
    (Crypto.mac P (headerMacKey P material.cek material.objectId)
      [preamble.encode, protectedBytes])
  unfold prepare
  simp only [hsign, ok_bind, hencode, mapErr_ok, seal_eq_ok.mpr hsealed, hprotected, hsized,
    hpreamble, hheaderBytes]
  exact ⟨_, rfl⟩

/-- A run within its bounds succeeds and returns the plaintext's length. -/
theorem encryptInner_completes {input : Reader} (hP : AeadCorrect P) (hseal : NeverRefuses P)
    (h : WithinBounds metadata (unsignedHeader material recipients shape).recipients shape)
    (hinput : input.Delivers plaintext)
    (hfits : plaintext.length ≤ maxSignedInput) :
    (encryptInner P S input metadata material recipients signer shape).result =
      .ok plaintext.length := by
  have hchunks : plaintext.length ≤ maxChunks * chunkLen := by
    have : maxSignedInput ≤ maxChunks * chunkLen := by decide
    omega
  unfold encryptInner
  rcases signer with _ | signer
  · obtain ⟨prepared, hprep⟩ := prepare_succeeds S material none [] hP hseal h
    simp only [hprep]
    exact encryptRecords_succeeds P _ _ _ (hseal _) hinput hchunks
  · have hread : readSigned input = .ok plaintext := by
      obtain ⟨after, hupto, -⟩ := Reader.readUpTo_of_delivers hinput (maxSignedInput + 1)
      unfold readSigned
      rw [hupto, List.take_of_length_le (by omega)]
      simp only [mapErr_ok, ok_bind]
      rw [failIf_neg _ (by omega)]
      rfl
    obtain ⟨prepared, hprep⟩ := prepare_succeeds S material (some signer) plaintext hP
      hseal h
    simp only [hread, hprep]
    exact encryptRecords_succeeds P _ _ _ (hseal _) (Reader.delivers_ofBytes plaintext) hchunks

/-- A run within the limits does. -/
theorem encryptInner_succeeds {input : Reader} (hP : AeadCorrect P) (hseal : NeverRefuses P)
    (h : WithinLimits metadata recipients shape) (hinput : input.Delivers plaintext)
    (hfits : plaintext.length ≤ maxSignedInput) :
    (encryptInner P S input metadata material recipients signer shape).result =
      .ok plaintext.length :=
  encryptInner_completes S material signer plaintext hP hseal (h.bounds material) hinput hfits

end Succeeds

/-! ## The toy instance -/

section Toy

theorem toy_neverRefuses : NeverRefuses Crypto.Primitives.toy := by
  intro key nonce aad plaintext h
  cases h

theorem toy_wrapCek (recipient : RecipientPublic) (cek objectId seed : Key) :
    wrapCek Crypto.Primitives.toy recipient cek objectId seed =
      .ok ⟨(toyEncapsulation recipient.key).toList, (toyWrapped cek).toList⟩ := by
  unfold wrapCek Crypto.Primitives.toy
  simp only [okOr_some, ok_bind]
  rfl

theorem toy_xwingPublic : Crypto.Primitives.toy.xwingPublic = toyPublic := rfl

theorem toy_hpkeOpen (seed : Key) (info aad : Bytes) (cek : Key) :
    Crypto.Primitives.toy.hpkeOpen seed info aad (toyEncapsulation (toyPublic seed))
      (toyWrapped cek) = some cek := by
  have hlist : (toyWrapped cek).toList = cek.toList ++ List.replicate 16 0 :=
    (Vector.toList_append ..).trans (by simp)
  unfold Crypto.Primitives.toy
  simp only [if_true]
  rw [hlist, List.take_left' Vector.length_toList, tryInto_toList]

theorem toy_unwrapCek (secret : RecipientSecret) (cek objectId : Key) :
    unwrapCek Crypto.Primitives.toy secret objectId
      (toyEncapsulation (secret.publicKey Crypto.Primitives.toy).key).toList
      (toyWrapped cek).toList = .ok cek := by
  unfold unwrapCek requireLength
  rw [failIf_neg _ (by simp), ok_bind, failIf_neg _ (by simp), ok_bind, tryInto_toList, okOr_some,
    ok_bind, tryInto_toList, okOr_some, ok_bind]
  have hopen := toy_hpkeOpen secret.seed (objectContext objectId).1 (objectContext objectId).2 cek
  simp only [RecipientSecret.publicKey, toy_xwingPublic, hopen, okOr_some]

/-- An encapsulation tells the seed of its recipient. -/
theorem toyEncapsulation_injective {seed other : Key}
    (h : toyEncapsulation (toyPublic seed) = toyEncapsulation (toyPublic other)) :
    seed = other := by
  -- the encapsulation begins with the seed
  have hseed : ∀ (seed : Key) (i : ℕ) (hi : i < 32) (hlt : i < encapsulationLength),
      (toyEncapsulation (toyPublic seed))[i] = seed[i] := by
    intro seed i hi hlt
    have hlist : (toyPublic seed).toList = seed.toList ++ List.replicate 1184 9 :=
      (Vector.toList_append ..).trans (congrArg _ Vector.toList_replicate)
    have hlen : i < seed.toList.length := by rw [Vector.length_toList]; exact hi
    unfold toyEncapsulation
    rw [Vector.getElem_ofFn, hlist, List.getD_eq_getElem?_getD, List.getElem?_append_left hlen,
      List.getElem?_eq_getElem hlen]
    simp
  apply Vector.ext
  intro i hi
  have hlt : i < encapsulationLength := Nat.lt_of_lt_of_le hi (by decide)
  rw [← hseed seed i hi hlt, ← hseed other i hi hlt, h]

/-- A key wrapped for one recipient does not unwrap for another. -/
theorem toy_unwrapCek_other {secret other : RecipientSecret} (hne : secret ≠ other)
    (cek objectId : Key) :
    unwrapCek Crypto.Primitives.toy other objectId
      (toyEncapsulation (toyPublic secret.seed)).toList (toyWrapped cek).toList =
        .error .hpke := by
  have hseed : toyEncapsulation (toyPublic secret.seed) ≠ toyEncapsulation (toyPublic other.seed) := by
    intro h
    apply hne
    cases secret
    cases other
    exact congrArg RecipientSecret.mk (toyEncapsulation_injective h)
  unfold unwrapCek requireLength
  rw [failIf_neg _ (by simp), ok_bind, failIf_neg _ (by simp), ok_bind, tryInto_toList, okOr_some,
    ok_bind, tryInto_toList, okOr_some, ok_bind]
  unfold Crypto.Primitives.toy
  simp only [if_neg hseed]
  rfl

end Toy

end HideProtocol.Object
