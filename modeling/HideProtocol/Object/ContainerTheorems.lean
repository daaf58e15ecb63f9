import HideProtocol.Format.CodecTheorems
import HideProtocol.Object.Matching
import HideProtocol.Object.RecordsTheorems

/-!
# Containers round trip

What the writer prepares is consistent (`prepare_wellFormed`), a consistent header opens to
itself for a recipient that recovers the content key (`openHeader_of_wellFormed`), and the
payload is read back whole. What is left is the signature: `decryptToStaging_written` reduces
reading a written container to `verifySignature`, and the round trip and its one exception
follow from the reader's case table.
-/

namespace HideProtocol.Object

open Lib Format Crypto

variable {P : Crypto.Primitives} {S : Sign.Primitives}

/-! ## Small inversions -/

theorem readExact_append {n : ℕ} {bytes : Bytes} (rest : Bytes) (h : bytes.length = n) :
    readExact n (bytes ++ rest) = .ok (bytes, rest) := by
  unfold readExact
  rw [if_neg (by rw [List.length_append]; omega), List.take_left' h, List.drop_left' h]

theorem seal_eq_ok {key : Key} {nonce : Nonce} {aad plaintext ciphertext : Bytes} :
    «seal» P key nonce aad plaintext = .ok ciphertext ↔
      P.aeadSeal key nonce aad plaintext = some ciphertext := okOr_eq_ok

/-- The length of an encoded header does not depend on the MAC. -/
theorem encodeHeader_length {protectedBytes bytes bytes' : Bytes} {mac mac' : Key}
    (h : encodeHeader protectedBytes mac = .ok bytes)
    (h' : encodeHeader protectedBytes mac' = .ok bytes') : bytes.length = bytes'.length := by
  simp only [encodeHeader, bind_eq_ok, pure_eq_ok] at h h'
  obtain ⟨_, _, _, _, rfl⟩ := h
  obtain ⟨_, _, _, _, rfl⟩ := h'
  simp [Cbor.bytes]

theorem preambleFor_headerLen {signer : Option Signer} {shape : VectorShape} {n : ℕ}
    {preamble : Preamble} (h : preambleFor signer shape n = .ok preamble) :
    preamble.headerLen = n := by
  unfold preambleFor Preamble.legacySigned at h
  split at h
  · exact (Preamble.fromParts_eq_ok h).1
  · exact (Preamble.fromParts_eq_ok h).1

/-! ## Headers that open to themselves -/

/-- The parts of a prepared header fit together. -/
structure Prepared.WellFormed (P : Crypto.Primitives) (material : ObjectMaterial)
    (prepared : Prepared) : Prop where
  objectId : prepared.header.objectId = material.objectId
  metadata : ∃ encoded, prepared.metadata.encode = .ok encoded ∧
    P.aeadSeal (metadataKey P material.cek material.objectId) metadataNonce
      (metadataAad material.objectId) encoded = some prepared.header.encryptedMetadata
  encodes : prepared.header.encode = .ok prepared.protectedBytes
  headerLen : prepared.preamble.headerLen = prepared.headerBytes.length
  mac : prepared.mac = Crypto.mac P (headerMacKey P material.cek material.objectId)
    [prepared.preamble.encode, prepared.protectedBytes]
  headerBytes : encodeHeader prepared.protectedBytes prepared.mac = .ok prepared.headerBytes

/-- A header that minor 2 may carry, if that is its minor. -/
def Prepared.Admitted (prepared : Prepared) : Prop :=
  prepared.preamble.isLegacy = true →
    prepared.header.extensions = [] ∧ (∀ s ∈ prepared.header.recipients, s.asXwing.isSome) ∧
      prepared.metadata.extensions = []

/-- The content key is recovered when some stanza yields it and no stanza yields another key
under which the header MAC verifies. -/
theorem recoverCek_eq {secret : RecipientSecret} {objectId cek mac : Key}
    {preamble protectedBytes : Bytes} {stanzas : List Stanza}
    (hmac : verifyMac P (headerMacKey P cek objectId) [preamble, protectedBytes] mac = .ok ())
    (hown : ∃ s ∈ stanzas, ∃ x, s.asXwing = some x ∧
      unwrapCek P secret objectId x.encapsulation x.wrappedCek = .ok cek)
    (hother : ∀ s ∈ stanzas, ∀ x k, s.asXwing = some x →
      unwrapCek P secret objectId x.encapsulation x.wrappedCek = .ok k →
      verifyMac P (headerMacKey P k objectId) [preamble, protectedBytes] mac = .ok () → k = cek) :
    recoverCek P secret objectId preamble protectedBytes mac stanzas = .ok cek := by
  induction stanzas with
  | nil =>
    obtain ⟨s, hs, -⟩ := hown
    cases hs
  | cons s stanzas ih =>
    have hother' := fun t ht => hother t (List.mem_cons_of_mem _ ht)
    -- unless this stanza settles it, the one that does is further on
    have hnext : (∀ x, s.asXwing = some x →
        unwrapCek P secret objectId x.encapsulation x.wrappedCek ≠ .ok cek) →
        recoverCek P secret objectId preamble protectedBytes mac stanzas = .ok cek := by
      intro hnot
      apply ih _ hother'
      obtain ⟨t, ht, x, hx, hunwrap⟩ := hown
      rcases List.mem_cons.mp ht with rfl | ht
      · exact absurd hunwrap (hnot x hx)
      · exact ⟨t, ht, x, hx, hunwrap⟩
    unfold recoverCek
    split
    next hx =>
      apply hnext
      simp [hx]
    next x hx =>
      split
      next hunwrap =>
        apply hnext
        intro y hy
        rw [Option.some.inj (hy.symm.trans hx), hunwrap]
        simp
      next k hunwrap =>
        split
        next hverify =>
          rw [hother s List.mem_cons_self x k hx hunwrap hverify]
        next error hverify =>
          apply hnext
          intro y hy hcek
          rw [Option.some.inj (hy.symm.trans hx), hunwrap] at hcek
          rw [Except.ok.inj hcek, hmac] at hverify
          cases hverify

/-- A consistent header is read back, if its minor may carry it. -/
theorem readHead_of_wellFormed {material : ObjectMaterial} {prepared : Prepared}
    (h : prepared.WellFormed P material)
    (hadmitted : prepared.preamble.isLegacy = true →
      prepared.header.extensions = [] ∧ ∀ s ∈ prepared.header.recipients, s.asXwing.isSome)
    (rest : Bytes) :
    readHead (prepared.preamble.encode ++ prepared.headerBytes ++ rest) =
      .ok { preambleBytes := prepared.preamble.encode, preamble := prepared.preamble
            protectedBytes := prepared.protectedBytes, mac := prepared.mac
            header := prepared.header, rest } := by
  have hlegacy : ¬(prepared.preamble.isLegacy = true ∧ (prepared.header.extensions ≠ [] ∨
      (prepared.header.recipients.any fun stanza => stanza.asXwing.isNone) = true)) := by
    intro hbad
    obtain ⟨hext, hxwing⟩ := hadmitted hbad.1
    rcases hbad.2 with hbad | hbad
    · exact hbad hext
    · obtain ⟨s, hs, hnone⟩ := List.any_eq_true.mp hbad
      have := hxwing s hs
      simp_all
  unfold readHead
  rw [List.append_assoc, readExact_append _ (Preamble.length_encode _)]
  simp only [ok_bind, Preamble.decode_encode, mapErr_ok]
  rw [readExact_append _ h.headerLen.symm]
  simp only [ok_bind, decodeHeader_of_encodeHeader h.headerBytes, mapErr_ok,
    ProtectedHeader.decode_of_encode h.encodes]
  rw [failIf_neg _ hlegacy, ok_bind]
  rfl

/-- The head of a container that was written. -/
theorem readHead_written {material : ObjectMaterial} {prepared : Prepared}
    (h : prepared.WellFormed P material)
    (hadmitted : prepared.preamble.isLegacy = true →
      prepared.header.extensions = [] ∧ ∀ s ∈ prepared.header.recipients, s.asXwing.isSome)
    (input : Reader) :
    ∃ rest, readHead (writeContainer P material prepared input).output =
      .ok { preambleBytes := prepared.preamble.encode, preamble := prepared.preamble
            protectedBytes := prepared.protectedBytes, mac := prepared.mac
            header := prepared.header, rest } := by
  unfold writeContainer
  dsimp only
  rw [List.append_assoc (prepared.preamble.encode ++ prepared.headerBytes),
    readHead_of_wellFormed h hadmitted]
  exact ⟨_, rfl⟩

/-- Metadata that minor 2 may not carry is refused once it is open. -/
theorem openWith_of_legacy (hP : AeadCorrect P) {material : ObjectMaterial} {prepared : Prepared}
    (h : prepared.WellFormed P material) (hlegacy : prepared.preamble.isLegacy = true)
    (hext : prepared.metadata.extensions ≠ []) (rest : Bytes) :
    Head.openWith P
      { preambleBytes := prepared.preamble.encode, preamble := prepared.preamble
        protectedBytes := prepared.protectedBytes, mac := prepared.mac
        header := prepared.header, rest } material.cek = .error (.format .invalidMetadata) := by
  obtain ⟨encoded, hencode, hseal⟩ := h.metadata
  have hlen : encoded.length ≤ maxMetadataLen := by
    have := ((ProtectedHeader.encodeWithSignatures_eq_ok _ true _).mp h.encodes).1.metadata_le
    rw [hP.length _ _ _ _ _ hseal] at this
    omega
  unfold Head.openWith
  simp only [h.objectId, ok_bind, «open», hP.opens _ _ _ _ _ hseal, okOr_some, mapErr_ok,
    Metadata.decode_of_encode hencode hlen]
  rw [failIf_pos _ ⟨hlegacy, hext⟩]
  rfl

/-- A consistent header, in front of a salt and a payload, opens to itself. -/
theorem openHeader_of_wellFormed (hP : AeadCorrect P) {material : ObjectMaterial}
    {prepared : Prepared} {secret : RecipientSecret} (h : prepared.WellFormed P material)
    (hadmitted : prepared.Admitted)
    (hcek : recoverCek P secret material.objectId prepared.preamble.encode
      prepared.protectedBytes prepared.mac prepared.header.recipients = .ok material.cek)
    (payload : Bytes) :
    openHeader P (prepared.preamble.encode ++ prepared.headerBytes ++
        material.payloadSalt.toList ++ payload) secret =
      .ok { preamble := prepared.preamble, header := prepared.header
            protectedBytes := prepared.protectedBytes, cek := material.cek
            metadata := prepared.metadata, salt := material.payloadSalt, payload } := by
  obtain ⟨encoded, hencode, hseal⟩ := h.metadata
  have hvalid := ((ProtectedHeader.encodeWithSignatures_eq_ok _ true _).mp h.encodes).1
  have hlen : encoded.length ≤ maxMetadataLen := by
    have := hvalid.metadata_le
    rw [hP.length _ _ _ _ _ hseal] at this
    omega
  have hlegacy : ¬(prepared.preamble.isLegacy = true ∧ prepared.metadata.extensions ≠ []) :=
    fun hbad => hbad.2 (hadmitted hbad.1).2.2
  rw [openHeader_eq, List.append_assoc, readHead_of_wellFormed h fun hminor =>
    ⟨(hadmitted hminor).1, (hadmitted hminor).2.1⟩]
  unfold Head.recover Head.openWith
  simp only [ok_bind, h.objectId, hcek]
  simp only [ok_bind, «open», hP.opens _ _ _ _ _ hseal, okOr_some, mapErr_ok,
    Metadata.decode_of_encode hencode hlen]
  rw [failIf_neg _ hlegacy, ok_bind,
    readPayload_eq_ok.mpr ⟨Vector.length_toList, rfl⟩]
  simp only [ok_bind, tryInto_toList, okOr_some]
  rfl

/-- Reading a container whose header is consistent and whose payload was written in full
stages the plaintext, and the signature decides the rest. -/
theorem decryptToStaging_written (hP : AeadCorrect P) {material : ObjectMaterial}
    {prepared : Prepared} {secret : RecipientSecret} (h : prepared.WellFormed P material)
    (hadmitted : prepared.Admitted)
    (hcek : recoverCek P secret material.objectId prepared.preamble.encode
      prepared.protectedBytes prepared.mac prepared.header.recipients = .ok material.cek)
    {input : Reader} {plaintext : Bytes} {n : ℕ} (hinput : input.Delivers plaintext)
    (hok : (writeContainer P material prepared input).result = .ok n) :
    decryptToStaging P S (writeContainer P material prepared input).output secret =
      { staging := plaintext
        result := do
          let signer ← verifySignature S prepared.preamble prepared.header prepared.metadata
            (hash P [plaintext]) plaintext.length
          pure { metadata := prepared.metadata, plaintextLen := plaintext.length, signer } } ∧
      n = plaintext.length := by
  have hread := decryptRecords_output (payloadKey P material.cek material.objectId
    material.payloadSalt) material.objectId (hash P [prepared.protectedBytes]) hP hinput hok
  refine ⟨?_, hread.2⟩
  unfold decryptToStaging writeContainer
  rw [openHeader_of_wellFormed hP h hadmitted hcek]
  simp only [h.objectId, hread.1, ok_bind]

/-! ## What the writer prepares -/

theorem isLegacy_congr {preamble preamble' : Preamble}
    (hminor : preamble.minor = preamble'.minor) : preamble.isLegacy = preamble'.isLegacy := by
  unfold Preamble.isLegacy
  rw [hminor]

/-- The transcript reads the header's stanzas, extensions and object id, and the preamble's
minor and flags, and nothing else of either. -/
theorem transcript_congr {preamble preamble' : Preamble} {header header' : ProtectedHeader}
    (hminor : preamble.minor = preamble'.minor) (hflags : preamble.flags = preamble'.flags)
    (hid : header.objectId = header'.objectId) (hrec : header.recipients = header'.recipients)
    (hext : header.extensions = header'.extensions) (base : Bytes) (h : Key) (n : ℕ) :
    transcript preamble header base h n = transcript preamble' header' base h n := by
  simp only [transcript, legacyTranscript, isLegacy_congr hminor, Preamble.signedPrefix, hminor,
    hflags, hid, hrec, hext]

theorem signingContext_congr {preamble preamble' : Preamble}
    (hminor : preamble.minor = preamble'.minor) :
    signingContext preamble = signingContext preamble' := by
  simp only [signingContext, isLegacy_congr hminor]

/-- The minor and flags a run writes. -/
theorem preambleFor_eq_ok {signer : Option Signer} {shape : VectorShape} {n : ℕ}
    {preamble : Preamble} (h : preambleFor signer shape n = .ok preamble) :
    preamble.minor = (if signer.map Prod.snd = some .legacyPublic then legacySignedMinor
      else shape.minor) ∧
    preamble.flags = (if signer.map Prod.snd = some .legacyPublic then 0
      else if signer.isSome then flagSigned else 0) := by
  unfold preambleFor Preamble.legacySigned at h
  split at h
  next hlegacy =>
    rw [if_pos hlegacy, if_pos hlegacy]
    exact (Preamble.fromParts_eq_ok h).2
  next hlegacy =>
    rw [if_neg hlegacy, if_neg hlegacy]
    exact (Preamble.fromParts_eq_ok h).2

/-- Signing leaves alone what the transcript commits to. -/
theorem placeSignature_keeps (identity : Sign.SigningIdentity) (placement : SignaturePlacement)
    (provisional : Preamble) (message : Bytes) (header : ProtectedHeader) (metadata : Metadata) :
    let placed := placeSignature S identity placement provisional message header metadata
    placed.1.objectId = header.objectId ∧ placed.1.recipients = header.recipients ∧
      placed.1.extensions = header.extensions ∧ placed.2.filename = metadata.filename ∧
      placed.2.mediaType = metadata.mediaType ∧ placed.2.extensions = metadata.extensions := by
  cases placement <;> simp [placeSignature]

/-- The base that is signed does not read the signature. -/
theorem signingBase_congr {metadata metadata' : Metadata}
    (hname : metadata.filename = metadata'.filename)
    (htype : metadata.mediaType = metadata'.mediaType)
    (hext : metadata.extensions = metadata'.extensions) :
    metadata.signingBase = metadata'.signingBase := by
  simp [Metadata.signingBase, Metadata.encodeWithSignature, hname, htype, hext]

/-- The signature stanza a run makes. -/
def runStanza (P : Crypto.Primitives) (S : Sign.Primitives) (identity : Sign.SigningIdentity)
    (preamble : Preamble) (header : ProtectedHeader) (base plaintext : Bytes) : SignatureStanza :=
  { verifyingKey := (identity.verifyingKey S).toBytes.toList
    signature := (identity.sign S (signingContext preamble)
      (transcript preamble header base (hash P [plaintext]) plaintext.length)).toList }

theorem runStanza_valid (P : Crypto.Primitives) (S : Sign.Primitives)
    (identity : Sign.SigningIdentity) (preamble : Preamble) (header : ProtectedHeader)
    (base plaintext : Bytes) : (runStanza P S identity preamble header base plaintext).Valid :=
  ⟨Vector.length_toList, Vector.length_toList⟩

/-- What stands in the header's and the metadata's signature slots, given who signs, what was
in the metadata's slot before and the stanza each identity makes. -/
def Slots (signer : Option Signer) (before : Option SignatureStanza)
    (stanza : Sign.SigningIdentity → SignatureStanza) (header : ProtectedHeader)
    (metadata : Metadata) : Prop :=
  match signer with
  | none => header.signatures = [] ∧ metadata.signature = before
  | some (identity, .public) =>
    header.signatures = [stanza identity] ∧ metadata.signature = before
  | some (identity, .confidential) =>
    header.signatures = [] ∧ metadata.signature = some (stanza identity)
  | some (_, .stripped) => header.signatures = [] ∧ metadata.signature = before
  | some (identity, .legacyPublic) =>
    header.signatures = [stanza identity] ∧ metadata.signature = before

/-- A run over metadata without a signature leaves one, in one of the two slots. -/
theorem Slots.one {identity : Sign.SigningIdentity} {placement : SignaturePlacement}
    {stanza : Sign.SigningIdentity → SignatureStanza} {header : ProtectedHeader}
    {metadata : Metadata} (h : Slots (some (identity, placement)) none stanza header metadata)
    (hplacement : placement ≠ .stripped) :
    (header.signatures = [stanza identity] ∧ metadata.signature = none) ∨
      (header.signatures = [] ∧ metadata.signature = some (stanza identity)) := by
  cases placement with
  | «public» => exact Or.inl h
  | confidential => exact Or.inr h
  | stripped => exact absurd rfl hplacement
  | legacyPublic => exact Or.inl h

section Prepare
variable {metadata : Metadata} {material : ObjectMaterial} {recipients : List RecipientStanza}
  {signer : Option Signer} {shape : VectorShape} {plaintext : Bytes} {prepared : Prepared}

/-- Everything the preparation decides. -/
structure Prepares (P : Crypto.Primitives) (S : Sign.Primitives) (metadata : Metadata)
    (material : ObjectMaterial) (recipients : List RecipientStanza) (signer : Option Signer)
    (shape : VectorShape) (plaintext : Bytes) (prepared : Prepared) : Prop where
  wellFormed : prepared.WellFormed P material
  recipients : prepared.header.recipients = shape.leadingStanzas ++ recipients.map Stanza.xWing
  extensions : prepared.header.extensions = shape.headerExtensions
  filename : prepared.metadata.filename = metadata.filename
  mediaType : prepared.metadata.mediaType = metadata.mediaType
  metadataExtensions : prepared.metadata.extensions = metadata.extensions
  preamble : ∃ n, preambleFor signer shape n = .ok prepared.preamble
  signature : ∃ base, metadata.signingBase = .ok base ∧
    Slots signer metadata.signature
      (fun identity => runStanza P S identity prepared.preamble prepared.header base plaintext)
      prepared.header prepared.metadata

theorem prepare_eq_ok
    (h : prepare P S metadata material recipients signer shape plaintext = .ok prepared) :
    Prepares P S metadata material recipients signer shape plaintext prepared := by
  unfold prepare at h
  obtain ⟨⟨header, metadata'⟩, hsign, h⟩ := bind_eq_ok.mp h
  obtain ⟨encoded, hencoded, h⟩ := bind_eq_ok.mp h
  obtain ⟨sealed, hsealed, h⟩ := bind_eq_ok.mp h
  obtain ⟨protectedBytes, hprotected, h⟩ := bind_eq_ok.mp h
  obtain ⟨sized, hsized, h⟩ := bind_eq_ok.mp h
  obtain ⟨preamble, hpreamble, h⟩ := bind_eq_ok.mp h
  obtain ⟨headerBytes, hheader, h⟩ := bind_eq_ok.mp h
  rw [pure_eq_ok] at h
  rw [mapErr_eq_ok] at hencoded hsealed hprotected hsized hpreamble hheader
  rw [seal_eq_ok] at hsealed
  subst h
  have hlen : preamble.headerLen = headerBytes.length := by
    rw [preambleFor_headerLen hpreamble]
    exact encodeHeader_length hsized hheader
  unfold signContents at hsign
  obtain ⟨base, hbase, hsign⟩ := bind_eq_ok.mp hsign
  rw [mapErr_eq_ok] at hbase
  rcases signer with _ | ⟨identity, placement⟩
  · -- nobody signs: header and metadata stay as they were
    simp only [pure_eq_ok, Prod.mk.injEq] at hsign
    obtain ⟨rfl, rfl⟩ := hsign
    exact
      { wellFormed := ⟨rfl, ⟨encoded, hencoded, hsealed⟩, hprotected, hlen, rfl, hheader⟩
        recipients := rfl, extensions := rfl, filename := rfl, mediaType := rfl
        metadataExtensions := rfl, preamble := ⟨_, hpreamble⟩
        signature := ⟨base, hbase, rfl, rfl⟩ }
  · obtain ⟨provisional, hprovisional, hsign⟩ := bind_eq_ok.mp hsign
    rw [mapErr_eq_ok] at hprovisional
    simp only [pure_eq_ok] at hsign
    obtain ⟨hid, hrec, hext, hname, htype, hmext⟩ := placeSignature_keeps (S := S) identity
      placement provisional (transcript provisional (unsignedHeader material recipients shape) base
        (hash P [plaintext]) plaintext.length) (unsignedHeader material recipients shape) metadata
    rw [← hsign] at hid hrec hext hname htype hmext
    -- the preamble that is written differs from the provisional one in its length only
    have hstanza : runStanza P S identity preamble { header with encryptedMetadata := sealed } base
        plaintext = runStanza P S identity provisional (unsignedHeader material recipients shape)
          base plaintext := by
      obtain ⟨hm, hf⟩ := preambleFor_eq_ok hpreamble
      obtain ⟨hm', hf'⟩ := preambleFor_eq_ok hprovisional
      have htranscript : transcript preamble { header with encryptedMetadata := sealed } base
          (hash P [plaintext]) plaintext.length =
          transcript provisional (unsignedHeader material recipients shape) base
            (hash P [plaintext]) plaintext.length :=
        transcript_congr (hm.trans hm'.symm) (hf.trans hf'.symm) hid hrec hext _ _ _
      unfold runStanza
      rw [htranscript, signingContext_congr (hm.trans hm'.symm)]
    refine
      { wellFormed := ⟨hid, ⟨encoded, hencoded, hsealed⟩, hprotected, hlen, rfl, hheader⟩
        recipients := hrec, extensions := hext, filename := hname, mediaType := htype
        metadataExtensions := hmext, preamble := ⟨_, hpreamble⟩
        signature := ⟨base, hbase, ?_⟩ }
    have hsigs := congrArg (fun p => p.1.signatures) hsign
    have hslot := congrArg (fun p => p.2.signature) hsign
    cases placement <;> simp only [Slots, hstanza] <;> exact ⟨hsigs, hslot⟩

/-- The plaintext the preparation sees: only a signed run reads it ahead. -/
def signedPlaintext (signer : Option Signer) (plaintext : Bytes) : Bytes :=
  if signer.isSome then plaintext else []

/-- A run that succeeds on an input delivering `plaintext` prepared its header and wrote it in
front of that plaintext. -/
theorem encryptInner_eq_ok {input : Reader} {n : ℕ} (hinput : input.Delivers plaintext)
    (h : (encryptInner P S input metadata material recipients signer shape).result = .ok n) :
    ∃ prepared, ∃ payload : Reader,
      prepare P S metadata material recipients signer shape (signedPlaintext signer plaintext) =
        .ok prepared ∧
      payload.Delivers plaintext ∧
      encryptInner P S input metadata material recipients signer shape =
        writeContainer P material prepared payload := by
  unfold encryptInner at h ⊢
  rcases signer with _ | signer
  · rcases hprep : prepare P S metadata material recipients none shape [] with error | prepared
    · simp [hprep] at h
    · exact ⟨prepared, input, hprep, hinput, rfl⟩
  · rcases hread : readSigned input with error | read
    · simp [hread] at h
    · -- within the limit, what was read ahead is everything
      have hplain : read = plaintext := by
        obtain ⟨after, hupto, -⟩ := Reader.readUpTo_of_delivers hinput (maxSignedInput + 1)
        unfold readSigned at hread
        rw [hupto] at hread
        simp only [mapErr_ok, ok_bind] at hread
        obtain ⟨hlen, hread⟩ := check_pure_eq_ok.mp hread
        rw [failIf_eq_ok, List.length_take] at hlen
        rw [hread, List.take_of_length_le (by omega)]
      subst hplain
      rcases hprep : prepare P S metadata material recipients (some signer) shape read
        with error | prepared
      · simp [hread, hprep] at h
      · refine ⟨prepared, Reader.ofBytes read, hprep, Reader.delivers_ofBytes read, ?_⟩
        simp only [hprep]

end Prepare

/-! ## Recipients -/

/-- HPKE, as one reader of one run needs it: a key wrapped for the reader unwraps, and one
wrapped for somebody else does not, or unwraps to a key under which the header MAC fails. -/
structure HpkeSeparates (P : Crypto.Primitives) (secret : RecipientSecret)
    (material : ObjectMaterial) (recipients : List (RecipientPublic × Key))
    (prepared : Prepared) : Prop where
  own : ∀ seed wrapped,
    wrapCek P (secret.publicKey P) material.cek material.objectId seed = .ok wrapped →
      unwrapCek P secret material.objectId wrapped.encapsulation wrapped.wrappedCek =
        .ok material.cek
  other : ∀ recipient seed, (recipient, seed) ∈ recipients → recipient ≠ secret.publicKey P →
    ∀ wrapped cek, wrapCek P recipient material.cek material.objectId seed = .ok wrapped →
      unwrapCek P secret material.objectId wrapped.encapsulation wrapped.wrappedCek = .ok cek →
        verifyMac P (headerMacKey P cek material.objectId)
          [prepared.preamble.encode, prepared.protectedBytes] prepared.mac ≠ .ok ()

theorem recoverCek_of_listed {secret : RecipientSecret} {material : ObjectMaterial}
    {recipients : List (RecipientPublic × Key)} {stanzas : List RecipientStanza}
    {shape : VectorShape} {prepared : Prepared}
    (hwrap : wrapRecipients P material recipients = .ok stanzas)
    (hlisted : secret.publicKey P ∈ recipients.map Prod.fst)
    (hleading : ∀ s ∈ shape.leadingStanzas, s.asXwing = none)
    (hpke : HpkeSeparates P secret material recipients prepared)
    (hmac : prepared.mac = Crypto.mac P (headerMacKey P material.cek material.objectId)
      [prepared.preamble.encode, prepared.protectedBytes])
    (hrec : prepared.header.recipients = shape.leadingStanzas ++ stanzas.map Stanza.xWing) :
    recoverCek P secret material.objectId prepared.preamble.encode prepared.protectedBytes
      prepared.mac prepared.header.recipients = .ok material.cek := by
  apply recoverCek_eq
  · unfold verifyMac
    rw [hmac]
    exact failIf_neg _ (by simp)
  · -- the stanza wrapped for this reader
    obtain ⟨⟨recipient, seed⟩, hmem, heq⟩ := List.mem_map.mp hlisted
    have heq : recipient = secret.publicKey P := heq
    subst heq
    obtain ⟨stanza, hstanza, hwrapped⟩ := mem_mapM_of_mem hwrap hmem
    simp only [bind_eq_ok, mapErr_eq_ok, pure_eq_ok] at hwrapped
    obtain ⟨wrapped, hwrapped, rfl⟩ := hwrapped
    refine ⟨.xWing ⟨wrapped.encapsulation, wrapped.wrappedCek⟩, ?_, _, rfl,
      hpke.own seed wrapped hwrapped⟩
    rw [hrec]
    exact List.mem_append_right _ (List.mem_map_of_mem hstanza)
  · intro s hs x k hx hunwrap hverify
    rw [hrec, List.mem_append] at hs
    rcases hs with hs | hs
    · rw [hleading s hs] at hx
      cases hx
    · obtain ⟨stanza, hstanza, rfl⟩ := List.mem_map.mp hs
      have hx : stanza = x := Option.some.inj hx
      subst hx
      obtain ⟨⟨recipient, seed⟩, hmem, hwrapped⟩ := exists_of_mem_mapM hwrap hstanza
      simp only [bind_eq_ok, mapErr_eq_ok, pure_eq_ok] at hwrapped
      obtain ⟨wrapped, hwrapped, rfl⟩ := hwrapped
      by_cases heq : recipient = secret.publicKey P
      · subst heq
        rw [hpke.own seed wrapped hwrapped] at hunwrap
        exact (Except.ok.inj hunwrap).symm
      · exact absurd hverify (hpke.other recipient seed hmem heq wrapped k hwrapped hunwrap)

/-! ## The reader's case table -/

section Signature
variable {preamble : Preamble} {header : ProtectedHeader} {metadata : Metadata} {base : Bytes}
  {plaintext : Bytes}

/-- The one signature a container carries, if it verifies, names the signer. -/
theorem verifySignature_one (identity : Sign.SigningIdentity)
    (hverify : (identity.verifyingKey S).verify (signingContext preamble)
      (transcript preamble header base (hash P [plaintext]) plaintext.length)
      (runStanza P S identity preamble header base plaintext).signature = .ok ())
    (hone : (header.signatures =
          [runStanza P S identity preamble header base plaintext] ∧ metadata.signature = none) ∨
        (header.signatures = [] ∧ metadata.signature =
          some (runStanza P S identity preamble header base plaintext)))
    (hsigned : preamble.isSigned = true) (hbase : metadata.signingBase = .ok base) :
    verifySignature S preamble header metadata (hash P [plaintext]) plaintext.length =
      .ok (some (identity.verifyingKey S)) := by
  unfold runStanza at hverify hone
  unfold verifySignature
  rcases hone with ⟨hheader, hmetadata⟩ | ⟨hheader, hmetadata⟩
  · simp only [hheader, hmetadata, List.head?_cons, hsigned, hbase,
      Sign.VerifyingIdentity.fromBytes_toBytes, hverify, mapErr_ok, ok_bind]
    rfl
  · simp only [hheader, hmetadata, List.head?_nil, hsigned, hbase,
      Sign.VerifyingIdentity.fromBytes_toBytes, hverify, mapErr_ok, ok_bind]
    rfl

theorem verifySignature_unsigned (hash : Key) (n : ℕ) (hheader : header.signatures = [])
    (hmetadata : metadata.signature = none) (hsigned : preamble.isSigned = false) :
    verifySignature S preamble header metadata hash n = .ok none := by
  unfold verifySignature
  simp only [hheader, hmetadata, List.head?_nil, hsigned]
  rfl

/-- A signature in the metadata of a container that is not marked as signed. -/
theorem verifySignature_unexpected (hash : Key) (n : ℕ) {stanza : SignatureStanza}
    (hheader : header.signatures = []) (hmetadata : metadata.signature = some stanza)
    (hsigned : preamble.isSigned = false) :
    verifySignature S preamble header metadata hash n = .error .unexpectedSignature := by
  unfold verifySignature
  simp only [hheader, hmetadata, List.head?_nil, hsigned]
  rfl

/-- A signature in both places. -/
theorem verifySignature_twice (hash : Key) (n : ℕ) {stanza stanza' : SignatureStanza}
    (hheader : header.signatures = [stanza]) (hmetadata : metadata.signature = some stanza') :
    verifySignature S preamble header metadata hash n = .error .invalidSignature := by
  unfold verifySignature
  simp only [hheader, hmetadata, List.head?_cons]

end Signature

/-! ## Round trip -/

section RoundTrip
variable {metadata : Metadata} {material : ObjectMaterial}
  {recipients : List (RecipientPublic × Key)} {stanzas : List RecipientStanza}
  {signer : Option Signer} {shape : VectorShape} {plaintext : Bytes} {input : Reader} {n : ℕ}
  {secret : RecipientSecret}

/-- The placements an application may choose. -/
def Signer.Production (signer : Option Signer) : Prop :=
  ∀ identity placement, signer = some (identity, placement) →
    placement = .public ∨ placement = .confidential

theorem legacyPublic_ne (hplacement : Signer.Production signer) :
    signer.map Prod.snd ≠ some .legacyPublic := by
  intro h
  obtain ⟨⟨identity, placement⟩, hsigner, hlegacy⟩ := Option.map_eq_some_iff.mp h
  have hlegacy : placement = .legacyPublic := hlegacy
  rcases hplacement identity placement hsigner with hp | hp
  · rw [hp] at hlegacy
    cases hlegacy
  · rw [hp] at hlegacy
    cases hlegacy

/-- A HIDE/1.0 run marks a container as signed exactly when somebody signs it. -/
theorem preambleFor_production {preamble : Preamble} {m : ℕ}
    (h : preambleFor signer shape m = .ok preamble) (hminor : shape.minor ≠ legacySignedMinor)
    (hplacement : Signer.Production signer) :
    preamble.isLegacy = false ∧ preamble.isSigned = signer.isSome := by
  obtain ⟨hm, hf⟩ := preambleFor_eq_ok h
  rw [if_neg (legacyPublic_ne hplacement)] at hm hf
  have hlegacy : preamble.isLegacy = false := by
    unfold Preamble.isLegacy
    rw [hm]
    exact decide_eq_false hminor
  refine ⟨hlegacy, ?_⟩
  unfold Preamble.isSigned
  rw [hlegacy, hf]
  rcases signer with _ | signer
  · decide
  · show (false || decide (flagSigned &&& flagSigned ≠ 0)) = true
    decide

/-! ### What the reader makes of the signature slots -/

section Verify
variable {prepared : Prepared}
  (h : Prepares P S metadata material stanzas signer shape (signedPlaintext signer plaintext)
    prepared)
  (hplacement : Signer.Production signer) (hsigned : prepared.preamble.isSigned = signer.isSome)
include h hplacement hsigned

/-- The one signature, or none, is that of the run, unless the metadata already carried one that
the run did not replace. -/
theorem verifySignature_prepared (hS : S.Correct)
    (hclean : metadata.signature = none ∨ ∃ identity, signer = some (identity, .confidential)) :
    verifySignature S prepared.preamble prepared.header prepared.metadata (hash P [plaintext])
      plaintext.length = .ok (signer.map fun s => s.1.verifyingKey S) := by
  obtain ⟨base, hbase, hslots⟩ := h.signature
  have hbase' : prepared.metadata.signingBase = .ok base := by
    rw [← hbase]
    exact signingBase_congr h.filename h.mediaType h.metadataExtensions
  have hnone (hno : ∀ identity, signer ≠ some (identity, .confidential)) :
      metadata.signature = none := by
    rcases hclean with hnone | ⟨identity, hsigner⟩
    · exact hnone
    · exact absurd hsigner (hno identity)
  rcases signer with _ | ⟨identity, placement⟩
  · obtain ⟨hheader, hmetadata⟩ := hslots
    have hmetadata := hmetadata.trans (hnone (by simp))
    exact verifySignature_unsigned _ _ hheader hmetadata hsigned
  · rcases hplacement identity placement rfl with hp | hp
    · subst hp
      obtain ⟨hheader, hmetadata⟩ := hslots
      have hmetadata := hmetadata.trans (hnone (by simp))
      exact verifySignature_one identity (Sign.verify_sign hS ..) (Or.inl ⟨hheader, hmetadata⟩)
        hsigned hbase'
    · subst hp
      exact verifySignature_one identity (Sign.verify_sign hS ..) (Or.inr hslots) hsigned hbase'

/-- A signature that the metadata already carried is one too many. -/
theorem verifySignature_carried (hsome : metadata.signature ≠ none)
    (hnotConfidential : ∀ identity, signer ≠ some (identity, .confidential)) :
    ∃ error, verifySignature S prepared.preamble prepared.header prepared.metadata
      (hash P [plaintext]) plaintext.length = .error error := by
  obtain ⟨base, hbase, hslots⟩ := h.signature
  obtain ⟨stanza, hstanza⟩ := Option.ne_none_iff_exists'.mp hsome
  rcases signer with _ | ⟨identity, placement⟩
  · obtain ⟨hheader, hmetadata⟩ := hslots
    exact ⟨_, verifySignature_unexpected _ _ hheader (hmetadata.trans hstanza) hsigned⟩
  · rcases hplacement identity placement rfl with hp | hp
    · subst hp
      obtain ⟨hheader, hmetadata⟩ := hslots
      exact ⟨_, verifySignature_twice _ _ hheader (hmetadata.trans hstanza)⟩
    · subst hp
      exact absurd rfl (hnotConfidential identity)

end Verify

/-- A listed recipient of a HIDE/1.0 run stages the plaintext, and accepts the container
unless the caller passed in metadata that already carried a signature and the run did not
replace it. -/
theorem decryptToStaging_encryptInner (hP : AeadCorrect P) (hS : S.Correct)
    (hinput : input.Delivers plaintext) (hwrap : wrapRecipients P material recipients = .ok stanzas)
    (hplacement : Signer.Production signer) (hminor : shape.minor ≠ legacySignedMinor)
    (hleading : ∀ s ∈ shape.leadingStanzas, s.asXwing = none)
    (hok : (encryptInner P S input metadata material stanzas signer shape).result = .ok n)
    (hlisted : secret.publicKey P ∈ recipients.map Prod.fst)
    (hpke : ∀ prepared, prepare P S metadata material stanzas signer shape
      (signedPlaintext signer plaintext) = .ok prepared →
        HpkeSeparates P secret material recipients prepared) :
    let read := decryptToStaging P S
      (encryptInner P S input metadata material stanzas signer shape).output secret
    read.staging = plaintext ∧
    ((metadata.signature = none ∨ ∃ identity, signer = some (identity, .confidential)) →
      ∃ verified, read.result = .ok verified ∧
        verified.metadata.filename = metadata.filename ∧
        verified.metadata.mediaType = metadata.mediaType ∧
        verified.metadata.extensions = metadata.extensions ∧
        verified.plaintextLen = plaintext.length ∧
        verified.signer = (signer.map fun s => s.1.verifyingKey S) ∧
        ∀ identity, signer = some (identity, .confidential) →
          ∃ stanza, stanza.Valid ∧ verified.metadata.signature = some stanza) ∧
    (¬(metadata.signature = none ∨ ∃ identity, signer = some (identity, .confidential)) →
      ∃ error, read.result = .error error) := by
  obtain ⟨prepared, payload, hprep, hpayload, hrun⟩ := encryptInner_eq_ok hinput hok
  have hprepares := prepare_eq_ok hprep
  obtain ⟨m, hpreamble⟩ := hprepares.preamble
  obtain ⟨hlegacy, hsigned⟩ := preambleFor_production hpreamble hminor hplacement
  have hadmitted : prepared.Admitted := by
    intro h
    rw [hlegacy] at h
    cases h
  have hcek := recoverCek_of_listed hwrap hlisted hleading (hpke prepared hprep)
    hprepares.wellFormed.mac hprepares.recipients
  rw [hrun] at hok
  have hread := (decryptToStaging_written (S := S) hP hprepares.wellFormed hadmitted hcek hpayload
    hok).1
  rw [hrun, hread]
  refine ⟨rfl, ?_, ?_⟩
  · intro hclean
    have hverify := verifySignature_prepared hprepares hplacement hsigned hS hclean
    refine ⟨{ metadata := prepared.metadata, plaintextLen := plaintext.length
              signer := signer.map fun s => s.1.verifyingKey S }, ?_, hprepares.filename,
      hprepares.mediaType, hprepares.metadataExtensions, rfl, rfl, ?_⟩
    · simp only [hverify, ok_bind]
      rfl
    · intro identity hsigner
      subst hsigner
      obtain ⟨base, -, hslots⟩ := hprepares.signature
      exact ⟨_, runStanza_valid .., hslots.2⟩
  · intro hdirty
    push Not at hdirty
    obtain ⟨error, hverify⟩ :=
      verifySignature_carried hprepares hplacement hsigned hdirty.1 hdirty.2
    refine ⟨error, ?_⟩
    simp only [hverify, error_bind]

end RoundTrip

end HideProtocol.Object
