import HideProtocol.Object.ContainerSuccess

/-!
# What was sealed opens, and what was opened seals again

Two results about whole containers. A HIDE/1.0 run on metadata without a signature is read
back by every recipient it lists, in whatever shape a later writer gives the header. Metadata
that already carries a signature, as the reader of a confidentially signed container holds it,
is read back only when the run replaces that signature.
-/

namespace HideProtocol.Object

open Lib Format Crypto

section
variable {P : Crypto.Primitives} {S : Sign.Primitives}

/-- What a run for `recipients` assumes of HPKE, for a reader holding `secret`: see
`HpkeSeparates`, for whatever header the run prepares. -/
def Separates (P : Crypto.Primitives) (S : Sign.Primitives) (secret : RecipientSecret)
    (recipients : List (RecipientPublic × Key)) (metadata : Metadata) (material : ObjectMaterial)
    (signer : Option Signer) (shape : VectorShape) (plaintext : Bytes) : Prop :=
  ∀ stanzas prepared, wrapRecipients P material recipients = .ok stanzas →
    prepare P S metadata material stanzas signer shape (signedPlaintext signer plaintext) =
      .ok prepared →
    HpkeSeparates P secret material recipients prepared

/-- The reader accepts, stages the plaintext and returns the caller's metadata fields. -/
def ReadsBack (read : ObjectDecryption S) (plaintext : Bytes) (metadata : Metadata) : Prop :=
  read.staging = plaintext ∧ ∃ verified, read.result = .ok verified ∧
    verified.metadata.filename = metadata.filename ∧
    verified.metadata.mediaType = metadata.mediaType ∧
    verified.metadata.extensions = metadata.extensions

section
variable {metadata : Metadata} {material : ObjectMaterial}
  {recipients : List (RecipientPublic × Key)} {stanzas : List RecipientStanza}
  {signer : Option Signer} {shape : VectorShape} {plaintext : Bytes} {input : Reader} {n : ℕ}
  {secret : RecipientSecret}

/-- Every listed recipient reads a container back, whatever its shape: with any minor but the
legacy one, with header extensions, and behind stanzas of types the reader does not know. -/
theorem container_round_trip (hP : AeadCorrect P) (hS : S.Correct)
    (hinput : input.Delivers plaintext) (hwrap : wrapRecipients P material recipients = .ok stanzas)
    (hclean : metadata.signature = none) (hplacement : Signer.Production signer)
    (hminor : shape.minor ≠ legacySignedMinor)
    (hleading : ∀ s ∈ shape.leadingStanzas, s.asXwing = none)
    (hok : (encryptInner P S input metadata material stanzas signer shape).result = .ok n)
    (hlisted : secret.publicKey P ∈ recipients.map Prod.fst)
    (hpke : Separates P S secret recipients metadata material signer shape plaintext) :
    let read := decryptToStaging P S
      (encryptInner P S input metadata material stanzas signer shape).output secret
    read.staging = plaintext ∧ ∃ verified, read.result = .ok verified ∧
      verified.metadata.filename = metadata.filename ∧
      verified.metadata.mediaType = metadata.mediaType ∧
      verified.metadata.extensions = metadata.extensions ∧
      verified.plaintextLen = plaintext.length ∧
      verified.signer = signer.map fun s => s.1.verifyingKey S := by
  intro read
  obtain ⟨hstaging, haccepted, -⟩ := decryptToStaging_encryptInner hP hS hinput hwrap hplacement
    hminor hleading hok hlisted fun prepared => hpke stanzas prepared hwrap
  obtain ⟨verified, hresult, hname, htype, hext, hlen, hsigner, -⟩ := haccepted (Or.inl hclean)
  exact ⟨hstaging, verified, hresult, hname, htype, hext, hlen, hsigner⟩

/-- The body of `encrypt` and `encryptSigned` validated its recipients and wrapped the key for
each before it wrote anything. -/
theorem encryptFor_eq_ok
    (h : (encryptFor P S input recipients metadata material signer).result = .ok n) :
    ∃ stanzas, wrapRecipients P material recipients = .ok stanzas ∧
      encryptFor P S input recipients metadata material signer =
        encryptInner P S input metadata material stanzas signer {} := by
  unfold encryptFor at h ⊢
  split at h
  next error heq => cases h
  next stanzas heq =>
    obtain ⟨_, -, hwrap⟩ := bind_eq_ok.mp heq
    exact ⟨stanzas, hwrap, rfl⟩

/-- A listed recipient of a run in the default shape reads it back exactly when the metadata
had no signature or the run replaced it. -/
theorem encryptFor_readsBack_iff (hP : AeadCorrect P) (hS : S.Correct)
    (hinput : input.Delivers plaintext) (hplacement : Signer.Production signer)
    (hok : (encryptFor P S input recipients metadata material signer).result = .ok n)
    (hlisted : secret.publicKey P ∈ recipients.map Prod.fst)
    (hpke : Separates P S secret recipients metadata material signer {} plaintext) :
    ReadsBack (decryptToStaging P S
        (encryptFor P S input recipients metadata material signer).output secret)
      plaintext metadata ↔
    (metadata.signature = none ∨ ∃ identity, signer = some (identity, .confidential)) := by
  obtain ⟨stanzas, hwrap, hrun⟩ := encryptFor_eq_ok hok
  rw [hrun] at hok ⊢
  obtain ⟨hstaging, haccepted, hrefused⟩ := decryptToStaging_encryptInner hP hS hinput hwrap
    hplacement (by decide) (by simp) hok hlisted fun prepared => hpke stanzas prepared hwrap
  constructor
  · intro ⟨_, verified, hresult, _⟩
    by_contra hdirty
    obtain ⟨error, herror⟩ := hrefused hdirty
    rw [hresult] at herror
    cases herror
  · intro hclean
    obtain ⟨verified, hresult, hname, htype, hext, -⟩ := haccepted hclean
    exact ⟨hstaging, verified, hresult, hname, htype, hext⟩

theorem production_none : Signer.Production none := by
  intro identity placement h
  cases h

theorem production_some {identity : Sign.SigningIdentity} {placement : SignaturePlacement}
    (h : placement = .public ∨ placement = .confidential) :
    Signer.Production (some (identity, placement)) := by
  intro identity' placement' heq
  cases heq
  exact h

/-- Whatever metadata the caller passes, for a run that succeeds: `encrypt` and a public
signature write a container its recipients read back exactly when the metadata carries no
signature yet; a confidential signature replaces the one that is there. -/
theorem encrypt_readsBack_iff (hP : AeadCorrect P) (hS : S.Correct)
    (hinput : input.Delivers plaintext) (hlisted : secret.publicKey P ∈ recipients.map Prod.fst) :
    (∀ n, (encrypt P S input recipients metadata material).result = .ok n →
      Separates P S secret recipients metadata material none {} plaintext →
      (ReadsBack (decryptToStaging P S
          (encrypt P S input recipients metadata material).output secret) plaintext metadata ↔
        metadata.signature = none)) ∧
    (∀ identity n, (encryptSigned P S input recipients metadata material identity
        .public).result = .ok n →
      Separates P S secret recipients metadata material (some (identity, .public)) {} plaintext →
      (ReadsBack (decryptToStaging P S (encryptSigned P S input recipients metadata material
          identity .public).output secret) plaintext metadata ↔
        metadata.signature = none)) ∧
    (∀ identity n, (encryptSigned P S input recipients metadata material identity
        .confidential).result = .ok n →
      Separates P S secret recipients metadata material (some (identity, .confidential)) {}
        plaintext →
      ReadsBack (decryptToStaging P S (encryptSigned P S input recipients metadata material
          identity .confidential).output secret) plaintext metadata) := by
  refine ⟨?_, ?_, ?_⟩
  · intro n hok hpke
    apply (encryptFor_readsBack_iff hP hS hinput production_none hok hlisted hpke).trans
    simp
  · intro identity n hok hpke
    apply (encryptFor_readsBack_iff hP hS hinput (production_some (Or.inl rfl)) hok hlisted
      hpke).trans
    simp
  · intro identity n hok hpke
    apply (encryptFor_readsBack_iff hP hS hinput (production_some (Or.inr rfl)) hok hlisted
      hpke).mpr
    exact Or.inr ⟨identity, rfl⟩

end

end

/-! ## One recipient, in the toy instance -/

section Toy
variable {S : Sign.Primitives} (secret : RecipientSecret) (material : ObjectMaterial) (seed : Key)

/-- One recipient, with the seed drawn for it. -/
def toyRecipients : List (RecipientPublic × Key) :=
  [(secret.publicKey Crypto.Primitives.toy, seed)]

def toyStanza : RecipientStanza :=
  { encapsulation := (toyEncapsulation (toyPublic secret.seed)).toList
    wrappedCek := (toyWrapped material.cek).toList }

theorem length_toyEncapsulation (key : Vector UInt8 publicKeyLength) :
    (toyEncapsulation key).toList.length = encapsulationLen := Vector.length_toList

theorem length_toyWrapped (cek : Key) : (toyWrapped cek).toList.length = wrappedCekLen :=
  Vector.length_toList

theorem toyStanza_valid : (Stanza.xWing (toyStanza secret material)).Valid := by
  unfold toyStanza
  simp only [Stanza.Valid, length_toyEncapsulation, length_toyWrapped, and_self]

theorem toy_wrapRecipients :
    wrapRecipients Crypto.Primitives.toy material (toyRecipients secret seed) =
      .ok [toyStanza secret material] := by
  unfold wrapRecipients toyRecipients
  simp only [List.mapM_cons, toy_wrapCek, mapErr_ok, ok_bind, List.mapM_nil]
  rfl

theorem toy_separates (metadata : Metadata) (signer : Option Signer) (shape : VectorShape)
    (plaintext : Bytes) :
    Separates Crypto.Primitives.toy S secret (toyRecipients secret seed) metadata material signer
      shape plaintext := by
  intro stanzas prepared _ _
  constructor
  · intro seed wrapped hwrap
    rw [toy_wrapCek] at hwrap
    obtain rfl := Except.ok.inj hwrap
    simp only [toy_unwrapCek]
  · intro recipient seed' hmem hne
    have hmem : (recipient, seed') = (secret.publicKey Crypto.Primitives.toy, seed) :=
      List.mem_singleton.mp hmem
    exact absurd (congrArg Prod.fst hmem) hne

theorem toy_listed :
    secret.publicKey Crypto.Primitives.toy ∈ (toyRecipients secret seed).map Prod.fst := by
  simp [toyRecipients]

variable {metadata : Metadata} {shape : VectorShape}

/-- One recipient, and metadata that leaves room for a signature. -/
theorem toy_limits (hvalid : metadata.Valid true)
    (hlen : metadata.encodedLen + 6000 ≤ maxMetadataLen) (hleading : shape.leadingStanzas = [])
    (hminor : shape.minor ≠ 0 ∧ shape.minor ≠ legacySignedMinor)
    (hext : ValidExtensions shape.headerExtensions)
    (hextLen : (shape.headerExtensions.flatMap encodeExtension).length ≤ 100000) :
    WithinLimits metadata [toyStanza secret material] shape where
  metadata_valid := hvalid
  metadata_len := hlen
  recipients_ne := by simp
  recipients_le := by simp [maxRecipients]
  recipients_valid := by
    intro s hs
    rw [List.mem_singleton.mp hs]
    exact toyStanza_valid secret material
  leading := hleading
  minor := hminor
  extensions := hext
  extensions_len := hextLen

/-- A run for one recipient succeeds on metadata that leaves room for a signature. -/
theorem toy_encryptInner (signer : Option Signer) (plaintext : Bytes) (hvalid : metadata.Valid true)
    (hlen : metadata.encodedLen + 6000 ≤ maxMetadataLen) (hleading : shape.leadingStanzas = [])
    (hminor : shape.minor ≠ 0 ∧ shape.minor ≠ legacySignedMinor)
    (hext : ValidExtensions shape.headerExtensions)
    (hextLen : (shape.headerExtensions.flatMap encodeExtension).length ≤ 100000)
    (hfits : plaintext.length ≤ maxSignedInput) :
    (encryptInner Crypto.Primitives.toy S (Reader.ofBytes plaintext) metadata material
      [toyStanza secret material] signer shape).result = .ok plaintext.length :=
  encryptInner_succeeds _ _ _ _ toy_aeadCorrect toy_neverRefuses
    (toy_limits secret material hvalid hlen hleading hminor hext hextLen)
    (Reader.delivers_ofBytes plaintext) hfits

/-- The same for `encrypt` and `encryptSigned`. -/
theorem toy_encryptFor (signer : Option Signer) (plaintext : Bytes) (hvalid : metadata.Valid true)
    (hlen : metadata.encodedLen + 6000 ≤ maxMetadataLen)
    (hfits : plaintext.length ≤ maxSignedInput) :
    (encryptFor Crypto.Primitives.toy S (Reader.ofBytes plaintext) (toyRecipients secret seed)
      metadata material signer).result = .ok plaintext.length := by
  have hrecipients : validateRecipients ((toyRecipients secret seed).map Prod.fst) = .ok () :=
    failIf_neg _ (by simp [toyRecipients, maxRecipients])
  unfold encryptFor
  simp only [hrecipients, toy_wrapRecipients, ok_bind]
  exact toy_encryptInner secret material signer plaintext hvalid hlen rfl (by decide)
    ⟨Nat.zero_le _, trivial⟩ (Nat.zero_le _) hfits

end Toy

theorem empty_valid : ({} : Metadata).Valid true where
  extensions := ⟨Nat.zero_le _, trivial⟩
  filename := by simp
  mediaType := by simp
  signature := by simp [Metadata.slot]

theorem empty_encodedLen : ({} : Metadata).encodedLen = 1 := rfl

theorem empty_room : ({} : Metadata).encodedLen + 6000 ≤ maxMetadataLen := by
  rw [empty_encodedLen]
  decide

/-- Metadata with a name and a type. -/
def namedMetadata : Metadata where
  filename := some "a.txt"
  mediaType := some "text/plain"

theorem namedMetadata_valid : namedMetadata.Valid true where
  extensions := ⟨Nat.zero_le _, trivial⟩
  filename := by
    intro s hs
    rw [← Option.some.inj hs]
    decide
  mediaType := by
    intro s hs
    rw [← Option.some.inj hs]
    decide
  signature := by simp [namedMetadata, Metadata.slot]

theorem namedMetadata_encodedLen : namedMetadata.encodedLen = 20 := by decide +kernel

theorem namedMetadata_room : namedMetadata.encodedLen + 6000 ≤ maxMetadataLen := by
  rw [namedMetadata_encodedLen]
  decide

def sampleSecret : RecipientSecret := ⟨Vector.replicate 32 7⟩

def sampleIdentity : Sign.SigningIdentity := ⟨Vector.replicate 32 5⟩

def sampleMaterial : ObjectMaterial :=
  { cek := Vector.replicate 32 1, objectId := Vector.replicate 32 2
    payloadSalt := Vector.replicate 16 3 }

def sampleSeed : Key := Vector.replicate 32 4

/-- A header as a later minor might write it. -/
def sampleShape : VectorShape :=
  { minor := 9, headerExtensions := [{ key := 64, value := [1, 2] }] }

theorem sampleShape_valid : ValidExtensions sampleShape.headerExtensions := by
  refine ⟨by decide, ⟨by decide, by decide, ?_⟩, trivial⟩
  show 2 ≤ maxExtensionLen
  decide

/-- A run that signs three bytes confidentially, under a later minor. -/
def sampleRun : ObjectEncryption :=
  encryptInner Crypto.Primitives.toy Sign.Primitives.toy (Reader.ofBytes [1, 2, 3]) {}
    sampleMaterial [toyStanza sampleSecret sampleMaterial] (some (sampleIdentity, .confidential))
    sampleShape

theorem sampleRun_result : sampleRun.result = .ok 3 := by
  have hminor : sampleShape.minor ≠ 0 ∧ sampleShape.minor ≠ legacySignedMinor := by decide
  have hfits : 3 ≤ maxSignedInput := by decide
  exact toy_encryptInner sampleSecret sampleMaterial (some (sampleIdentity, .confidential))
    [1, 2, 3] empty_valid empty_room rfl hminor sampleShape_valid (by decide) hfits

theorem container_round_trip_later_minor :
    sampleRun.result = .ok 3 ∧
    (decryptToStaging Crypto.Primitives.toy Sign.Primitives.toy sampleRun.output
      sampleSecret).staging = [1, 2, 3] :=
  ⟨sampleRun_result, (container_round_trip toy_aeadCorrect Sign.Primitives.toy_correct
    (Reader.delivers_ofBytes _) (toy_wrapRecipients sampleSecret sampleMaterial sampleSeed) rfl
    (production_some (Or.inr rfl)) (by decide) (by simp [sampleShape]) sampleRun_result
    (toy_listed sampleSecret sampleSeed)
    (toy_separates sampleSecret sampleMaterial sampleSeed _ _ _ _)).1⟩

/-- Sealing three bytes for the sample recipient again, with metadata from elsewhere. -/
def sampleReseal (metadata : Metadata) : ObjectEncryption :=
  encrypt Crypto.Primitives.toy Sign.Primitives.toy (Reader.ofBytes [1, 2, 3])
    (toyRecipients sampleSecret sampleSeed) metadata sampleMaterial

def sampleResealSigned (metadata : Metadata) (placement : SignaturePlacement) : ObjectEncryption :=
  encryptSigned Crypto.Primitives.toy Sign.Primitives.toy (Reader.ofBytes [1, 2, 3])
    (toyRecipients sampleSecret sampleSeed) metadata sampleMaterial sampleIdentity placement

def sampleRead (container : Bytes) : ObjectDecryption Sign.Primitives.toy :=
  decryptToStaging Crypto.Primitives.toy Sign.Primitives.toy container sampleSecret

theorem sampleReseal_result {metadata : Metadata} (hvalid : metadata.Valid true)
    (hroom : metadata.encodedLen + 6000 ≤ maxMetadataLen) (signer : Option Signer) :
    (encryptFor Crypto.Primitives.toy Sign.Primitives.toy (Reader.ofBytes [1, 2, 3])
      (toyRecipients sampleSecret sampleSeed) metadata sampleMaterial signer).result = .ok 3 := by
  have hfits : 3 ≤ maxSignedInput := by decide
  exact toy_encryptFor sampleSecret sampleMaterial sampleSeed signer [1, 2, 3] hvalid hroom hfits

/-- What the sample recipient holds after reading a confidentially signed container. -/
theorem sampleRead_confidential :
    ∃ stanza verified, stanza.Valid ∧
      (sampleRead (sampleResealSigned {} .confidential).output).staging = [1, 2, 3] ∧
      (sampleRead (sampleResealSigned {} .confidential).output).result = .ok verified ∧
      verified.metadata = { signature := some stanza } := by
  have hok := sampleReseal_result empty_valid empty_room (some (sampleIdentity, .confidential))
  obtain ⟨stanzas, hwrap, hrun⟩ := encryptFor_eq_ok hok
  rw [hrun] at hok
  obtain ⟨hstaging, haccepted, -⟩ := decryptToStaging_encryptInner toy_aeadCorrect
    Sign.Primitives.toy_correct (Reader.delivers_ofBytes _) hwrap (production_some (Or.inr rfl))
    (by decide) (by simp) hok (toy_listed sampleSecret sampleSeed)
    fun prepared => toy_separates sampleSecret sampleMaterial sampleSeed _ _ _ _ stanzas prepared
      hwrap
  obtain ⟨verified, hresult, hname, htype, hext, -, -, hsignature⟩ := haccepted (Or.inl rfl)
  obtain ⟨stanza, hvalid, hsome⟩ := hsignature sampleIdentity rfl
  refine ⟨stanza, verified, hvalid, ?_, ?_, ?_⟩
  · unfold sampleRead sampleResealSigned encryptSigned
    rw [hrun]
    exact hstaging
  · unfold sampleRead sampleResealSigned encryptSigned
    rw [hrun]
    exact hresult
  · rcases hm : verified.metadata with ⟨filename, mediaType, signature, extensions⟩
    rw [hm] at hname htype hext hsome
    simp_all

/-- Metadata read from a confidentially signed container, sealed again by `encrypt` or with a
public signature: both succeed, and the recipient refuses what they wrote. -/
theorem confidential_metadata_resealed_is_refused :
    ∃ verified, (sampleRead (sampleResealSigned {} .confidential).output).result = .ok verified ∧
      (sampleRead (sampleResealSigned {} .confidential).output).staging = [1, 2, 3] ∧
      (sampleReseal verified.metadata).result = .ok 3 ∧
      ¬ReadsBack (sampleRead (sampleReseal verified.metadata).output) [1, 2, 3]
        verified.metadata ∧
      (sampleResealSigned verified.metadata .public).result = .ok 3 ∧
      ¬ReadsBack (sampleRead (sampleResealSigned verified.metadata .public).output) [1, 2, 3]
        verified.metadata := by
  obtain ⟨stanza, verified, hvalid, hstaging, hresult, hmetadata⟩ := sampleRead_confidential
  have hsigned := signed_valid empty_valid hvalid
  have hroom : ({ signature := some stanza } : Metadata).encodedLen + 6000 ≤ maxMetadataLen := by
    have hlen : ({ signature := some stanza } : Metadata).encodedLen ≤
        ({} : Metadata).encodedLen + 6000 := signed_encodedLen_le {} hvalid
    rw [empty_encodedLen] at hlen
    rw [maxMetadataLen]
    omega
  have hrefused : ∀ signer, Signer.Production signer →
      (¬∃ identity, signer = some (identity, .confidential)) →
      ¬ReadsBack (sampleRead (encryptFor Crypto.Primitives.toy Sign.Primitives.toy
        (Reader.ofBytes [1, 2, 3]) (toyRecipients sampleSecret sampleSeed)
        { signature := some stanza } sampleMaterial signer).output) [1, 2, 3]
        { signature := some stanza } := by
    intro signer hplacement hnot hreads
    have hiff := encryptFor_readsBack_iff toy_aeadCorrect Sign.Primitives.toy_correct
      (Reader.delivers_ofBytes _) hplacement (sampleReseal_result hsigned hroom signer)
      (toy_listed sampleSecret sampleSeed)
      (toy_separates sampleSecret sampleMaterial sampleSeed _ _ _ _)
    rcases hiff.mp hreads with h | h
    · cases h
    · exact hnot h
  refine ⟨verified, hresult, hstaging, ?_⟩
  rw [hmetadata]
  exact ⟨sampleReseal_result hsigned hroom none, hrefused none production_none (by simp),
    sampleReseal_result hsigned hroom _, hrefused _ (production_some (Or.inl rfl)) (by simp)⟩

theorem encrypt_readsBack_iff_named_metadata :
    ReadsBack (sampleRead (sampleReseal namedMetadata).output) [1, 2, 3] namedMetadata ∧
      ReadsBack (sampleRead (sampleResealSigned namedMetadata .public).output) [1, 2, 3]
        namedMetadata ∧
      ReadsBack (sampleRead (sampleResealSigned namedMetadata .confidential).output) [1, 2, 3]
        namedMetadata := by
  have hok := sampleReseal_result namedMetadata_valid namedMetadata_room
  have hpke := fun signer => @toy_separates Sign.Primitives.toy sampleSecret sampleMaterial
    sampleSeed namedMetadata signer {} [1, 2, 3]
  obtain ⟨hunsigned, hpublic, hconfidential⟩ := @encrypt_readsBack_iff _ _ namedMetadata
    sampleMaterial _ _ _ _ toy_aeadCorrect Sign.Primitives.toy_correct
    (Reader.delivers_ofBytes [1, 2, 3]) (toy_listed sampleSecret sampleSeed)
  exact ⟨(hunsigned 3 (hok none) (hpke none)).mpr rfl,
    (hpublic sampleIdentity 3 (hok _) (hpke _)).mpr rfl,
    hconfidential sampleIdentity 3 (hok _) (hpke _)⟩

end HideProtocol.Object
