import HideProtocol.Format.Codec
import HideProtocol.Object.Records
import HideProtocol.Sign.Hybrid

/-!
# Containers

A container is a preamble, a header with its MAC, a payload salt and the record stream. The
header names one stanza per recipient and carries the sealed metadata; a signature stands in
the header (public) or inside the metadata (confidential) and commits to a transcript of
everything but its own place.

Randomness is an argument: the content key, object id and salt are an `ObjectMaterial`, and
wrapping a key takes a seed. The writer's state is the bytes written so far and the calls made
to the AEAD; the reader's is the bytes staged so far.
-/

namespace HideProtocol.Object

open Lib Format Crypto

def signingContextBytes : Bytes := utf8 "HIDE/1.0 container"

/-- HIDE/0.5–0.8 signed containers (preamble minor 2). -/
def legacySigningContext : Bytes := utf8 "HIDE/0.5 container"

/-- Where a signature is written. The last two exist for tests and vectors only. -/
inductive SignaturePlacement where
  | «public»
  | confidential
  | stripped
  | legacyPublic
deriving DecidableEq, Repr

structure VerifiedObject (S : Sign.Primitives) where
  metadata : Metadata
  plaintextLen : ℕ
  signer : Option (Sign.VerifyingIdentity S)
deriving DecidableEq

structure ObjectMaterial where
  cek : Key
  objectId : Key
  payloadSalt : Vector UInt8 16
deriving DecidableEq

/-- Wire features a HIDE/1.0 writer never emits but every reader must accept. -/
structure VectorShape where
  minor : UInt8 := currentMinor
  headerExtensions : List Extension := []
  leadingStanzas : List Stanza := []
deriving DecidableEq

/-! ## The signed transcript -/

def transcriptStanza (stanza : Stanza) : Bytes :=
  beBytes 8 stanza.tag.toNat ++
    (beBytes 8 stanza.fields.length ++ stanza.fields.flatMap (lenPrefixed 8))

def transcriptExtension (extension : Extension) : Bytes :=
  beBytes 2 extension.key.toNat ++ lenPrefixed 8 extension.value

/-- The HIDE/0.5 transcript. Only reachable for minor 2. -/
def legacyTranscript (header : ProtectedHeader) (metadataBase : Bytes) (plaintextHash : Key)
    (plaintextLen : ℕ) : Bytes :=
  utf8 "HIDE/0.5 transcript" ++ beBytes 2 Format.suite ++ header.objectId.toList ++
    beBytes 8 header.recipients.length ++
    (header.recipients.filterMap Stanza.asXwing).flatMap
      (fun stanza => stanza.encapsulation ++ stanza.wrappedCek) ++
    lenPrefixed 8 metadataBase ++ plaintextHash.toList ++ beBytes 8 plaintextLen

/-- Commits to the preamble's version and flags, the recipient stanzas, the header extensions,
the metadata and the plaintext. -/
def transcript (preamble : Preamble) (header : ProtectedHeader) (metadataBase : Bytes)
    (plaintextHash : Key) (plaintextLen : ℕ) : Bytes :=
  if preamble.isLegacy then legacyTranscript header metadataBase plaintextHash plaintextLen
  else
    utf8 "HIDE/1.0 transcript" ++ preamble.signedPrefix ++ beBytes 2 Format.suite ++
      header.objectId.toList ++
      (beBytes 8 header.recipients.length ++ header.recipients.flatMap transcriptStanza) ++
      (beBytes 8 header.extensions.length ++ header.extensions.flatMap transcriptExtension) ++
      lenPrefixed 8 metadataBase ++ plaintextHash.toList ++ beBytes 8 plaintextLen

def signingContext (preamble : Preamble) : Bytes :=
  if preamble.isLegacy then legacySigningContext else signingContextBytes

/-! ## Keys -/

section
variable (P : Crypto.Primitives)

def metadataNonce : Nonce := Vector.replicate 12 0

def metadataAad (objectId : Key) : Bytes :=
  utf8 "HIDE/0.1 metadata" ++ objectId.toList ++ beBytes 2 Format.suite

def metadataKey (cek objectId : Key) : Key :=
  deriveKey P cek objectId.toList (utf8 "HIDE/0.1 metadata")

def headerMacKey (cek objectId : Key) : Key :=
  deriveKey P cek objectId.toList (utf8 "HIDE/0.1 header-mac")

def payloadKey (cek objectId : Key) (salt : Vector UInt8 16) : Key :=
  deriveKey P cek salt.toList (utf8 "HIDE/0.1 payload" ++ objectId.toList)

end

section
variable (P : Crypto.Primitives) (S : Sign.Primitives)

/-! ## Writing -/

/-- The derived key an AEAD call was made under. -/
inductive KeyLabel where
  | metadata
  | payload
deriving DecidableEq, Repr

/-- What a run of `encryptInner` did. -/
structure ObjectEncryption where
  output : Bytes := []
  seals : List (KeyLabel × SealCall) := []
  result : Except ObjectError ℕ

abbrev Signer := Sign.SigningIdentity × SignaturePlacement

/-- What a signed run reads ahead: the whole plaintext, up to the limit. -/
def readSigned (input : Reader) : Except ObjectError Bytes := do
  let plaintext ← mapErr ObjectError.io (input.readUpTo (maxSignedInput + 1)).1
  failIf (plaintext.length > maxSignedInput) .objectTooLarge
  pure plaintext

/-- The preamble of a header of `length` bytes. -/
def preambleFor (signer : Option Signer) (shape : VectorShape) (length : ℕ) :
    Except FormatError Preamble :=
  if signer.map Prod.snd = some .legacyPublic then Preamble.legacySigned length
  else
    let flags := if signer.isSome then flagSigned else 0
    Preamble.fromParts length shape.minor flags

/-- Signs the transcript and puts the signature where `placement` says. -/
def placeSignature (identity : Sign.SigningIdentity) (placement : SignaturePlacement)
    (provisional : Preamble) (message : Bytes) (header : ProtectedHeader) (metadata : Metadata) :
    ProtectedHeader × Metadata :=
  let stanza : SignatureStanza :=
    { verifyingKey := (identity.verifyingKey S).toBytes.toList
      signature := (identity.sign S (signingContext provisional) message).toList }
  match placement with
  | .public => ({ header with signatures := header.signatures ++ [stanza] }, metadata)
  | .confidential => (header, { metadata with signature := some stanza })
  | .stripped => (header, metadata)
  | .legacyPublic => ({ header with signatures := header.signatures ++ [stanza] }, metadata)

/-- The header before it is signed and the metadata sealed. -/
def unsignedHeader (material : ObjectMaterial) (recipients : List RecipientStanza)
    (shape : VectorShape) : ProtectedHeader :=
  { objectId := material.objectId
    recipients := shape.leadingStanzas ++ recipients.map Stanza.xWing
    encryptedMetadata := []
    signatures := []
    extensions := shape.headerExtensions }

/-- The header and the metadata to seal, after signing if there is a signer. -/
def signContents (metadata : Metadata) (material : ObjectMaterial)
    (recipients : List RecipientStanza) (signer : Option Signer) (shape : VectorShape)
    (plaintext : Bytes) : Except ObjectError (ProtectedHeader × Metadata) := do
  let base ← mapErr ObjectError.format metadata.signingBase
  let header := unsignedHeader material recipients shape
  match signer with
  | none => pure (header, metadata)
  | some (identity, placement) =>
    -- the signed prefix does not include the header length
    let provisional ← mapErr ObjectError.format (preambleFor signer shape 1)
    let message := transcript provisional header base (hash P [plaintext]) plaintext.length
    pure (placeSignature S identity placement provisional message header metadata)

/-- Everything `encryptInner` settles before the payload. -/
structure Prepared where
  header : ProtectedHeader
  metadata : Metadata
  protectedBytes : Bytes
  preamble : Preamble
  mac : Key
  headerBytes : Bytes
  metadataSeal : SealCall

/-- Seals the metadata, sizes the header with a placeholder MAC, and computes the MAC over the
preamble that has that size. -/
def prepare (metadata : Metadata) (material : ObjectMaterial) (recipients : List RecipientStanza)
    (signer : Option Signer) (shape : VectorShape) (plaintext : Bytes) :
    Except ObjectError Prepared := do
  let (header, metadata) ← signContents P S metadata material recipients signer shape plaintext
  let finalMetadata ← mapErr ObjectError.format metadata.encode
  let aad := metadataAad material.objectId
  let encryptedMetadata ← mapErr ObjectError.crypto
    («seal» P (metadataKey P material.cek material.objectId) metadataNonce aad finalMetadata)
  let header := { header with encryptedMetadata }
  let protectedBytes ← mapErr ObjectError.format header.encode
  let sized ← mapErr ObjectError.format (encodeHeader protectedBytes (Vector.replicate 32 0))
  let preamble ← mapErr ObjectError.format (preambleFor signer shape sized.length)
  let mac := Crypto.mac P (headerMacKey P material.cek material.objectId)
    [preamble.encode, protectedBytes]
  -- cannot fail where sizing succeeded: the MAC only fills the placeholder
  let headerBytes ← mapErr ObjectError.format (encodeHeader protectedBytes mac)
  pure {
    header, metadata, protectedBytes, preamble, mac, headerBytes
    metadataSeal := { nonce := metadataNonce, aad, plaintext := finalMetadata,
                      ciphertext := encryptedMetadata } }

/-- Writes a prepared header and then the payload `input` delivers. -/
def writeContainer (material : ObjectMaterial) (prepared : Prepared) (input : Reader) :
    ObjectEncryption :=
  let key := payloadKey P material.cek material.objectId material.payloadSalt
  let run := encryptRecords P key material.objectId (hash P [prepared.protectedBytes]) input
  { output := prepared.preamble.encode ++ prepared.headerBytes ++ material.payloadSalt.toList ++
      run.output
    seals := (.metadata, prepared.metadataSeal) :: run.seals.map (KeyLabel.payload, ·)
    result := run.result }

def encryptInner (input : Reader) (metadata : Metadata) (material : ObjectMaterial)
    (recipients : List RecipientStanza) (signer : Option Signer) (shape : VectorShape) :
    ObjectEncryption :=
  match signer with
  | none =>
    match prepare P S metadata material recipients none shape [] with
    | .error error => { result := .error error }
    | .ok prepared => writeContainer P material prepared input
  | some signer =>
    match readSigned input with
    | .error error => { result := .error error }
    | .ok plaintext =>
      match prepare P S metadata material recipients (some signer) shape plaintext with
      | .error error => { result := .error error }
      | .ok prepared => writeContainer P material prepared (Reader.ofBytes plaintext)

def validateRecipients (recipients : List RecipientPublic) : Except ObjectError Unit :=
  failIf (recipients = [] ∨ recipients.length > maxRecipients) .invalidRecipients

/-- One stanza per recipient, each wrapped with its own seed. -/
def wrapRecipients (material : ObjectMaterial) (recipients : List (RecipientPublic × Key)) :
    Except ObjectError (List RecipientStanza) :=
  recipients.mapM fun (recipient, seed) => do
    let wrapped ← mapErr ObjectError.crypto
      (wrapCek P recipient material.cek material.objectId seed)
    pure { encapsulation := wrapped.encapsulation, wrappedCek := wrapped.wrappedCek }

/-- Recipients with the seeds drawn for them, one after the other. -/
def withSeeds (seeds : ℕ → Key) (recipients : List RecipientPublic) :
    List (RecipientPublic × Key) :=
  recipients.zipIdx.map fun (recipient, i) => (recipient, seeds i)

/-- The body `encrypt` and `encryptSigned` share: validate, wrap, write in the default shape. -/
def encryptFor (input : Reader) (recipients : List (RecipientPublic × Key)) (metadata : Metadata)
    (material : ObjectMaterial) (signer : Option Signer) : ObjectEncryption :=
  match (do validateRecipients (recipients.map Prod.fst); wrapRecipients P material recipients) with
  | .error error => { result := .error error }
  | .ok stanzas => encryptInner P S input metadata material stanzas signer {}

/-- Encrypts for `recipients`, each with the seed drawn for it. -/
def encrypt (input : Reader) (recipients : List (RecipientPublic × Key)) (metadata : Metadata)
    (material : ObjectMaterial) : ObjectEncryption :=
  encryptFor P S input recipients metadata material none

/-- Encrypts and signs. -/
def encryptSigned (input : Reader) (recipients : List (RecipientPublic × Key))
    (metadata : Metadata) (material : ObjectMaterial) (identity : Sign.SigningIdentity)
    (placement : SignaturePlacement) : ObjectEncryption :=
  encryptFor P S input recipients metadata material (some (identity, placement))

/-! ## Reading -/

/-- What a run of `decryptToStaging` did. -/
structure ObjectDecryption where
  staging : Bytes := []
  result : Except ObjectError (VerifiedObject S)

/-- `read_exact` outside the payload. -/
def readExact (n : ℕ) (input : Bytes) : Except ObjectError (Bytes × Bytes) :=
  if input.length < n then .error .unexpectedEof else .ok (input.take n, input.drop n)

/-- Tries the X-Wing stanzas in order. A key counts once the header MAC verifies under it. -/
def recoverCek (secret : RecipientSecret) (objectId : Key) (preamble protectedBytes : Bytes)
    (mac : Key) : List Stanza → Except ObjectError Key
  | [] => .error .noMatchingRecipient
  | stanza :: stanzas =>
    -- unknown stanza types are skipped, not refused
    match stanza.asXwing with
    | none => recoverCek secret objectId preamble protectedBytes mac stanzas
    | some stanza =>
      match unwrapCek P secret objectId stanza.encapsulation stanza.wrappedCek with
      | .error _ => recoverCek secret objectId preamble protectedBytes mac stanzas
      | .ok cek =>
        match verifyMac P (headerMacKey P cek objectId) [preamble, protectedBytes] mac with
        | .ok _ => .ok cek
        | .error _ => recoverCek secret objectId preamble protectedBytes mac stanzas

/-- Returns the signer of a container that carries a signature that verifies, and refuses it
otherwise. -/
def verifySignature (preamble : Preamble) (header : ProtectedHeader) (metadata : Metadata)
    (plaintextHash : Key) (plaintextLen : ℕ) :
    Except ObjectError (Option (Sign.VerifyingIdentity S)) :=
  let checkStanza (stanza : SignatureStanza) := do
    failIf (!preamble.isSigned) ObjectError.unexpectedSignature
    let identity ← mapErr (fun _ => ObjectError.invalidSignature)
      (Sign.VerifyingIdentity.fromBytes S stanza.verifyingKey)
    let base ← mapErr ObjectError.format metadata.signingBase
    let message := transcript preamble header base plaintextHash plaintextLen
    mapErr (fun _ => ObjectError.invalidSignature)
      (identity.verify (signingContext preamble) message stanza.signature)
    pure (some identity)
  match header.signatures.head?, metadata.signature with
  | some _, some _ => .error .invalidSignature
  | some stanza, none => checkStanza stanza
  | none, some stanza => checkStanza stanza
  | none, none => if preamble.isSigned then .error .missingSignature else .ok none

/-- What is known before the payload is read. -/
structure Opened where
  preamble : Preamble
  header : ProtectedHeader
  protectedBytes : Bytes
  cek : Key
  metadata : Metadata
  salt : Vector UInt8 16
  payload : Bytes

/-- Reads a container up to its payload. -/
def openHeader (input : Bytes) (secret : RecipientSecret) : Except ObjectError Opened := do
  let (preambleBytes, input) ← readExact preambleLen input
  let preamble ← mapErr ObjectError.format (Preamble.decode preambleBytes)
  let (headerBytes, input) ← readExact preamble.headerLen input
  let (protectedBytes, mac) ← mapErr ObjectError.format (decodeHeader headerBytes)
  let header ← mapErr ObjectError.format (ProtectedHeader.decode protectedBytes)
  -- the legacy transcript binds neither extensions nor stanza tags
  failIf (preamble.isLegacy ∧ (header.extensions ≠ [] ∨
    header.recipients.any fun stanza => stanza.asXwing.isNone)) (.format .malformedHeader)
  let cek ← recoverCek P secret header.objectId preambleBytes protectedBytes mac header.recipients
  let plaintext ← mapErr ObjectError.crypto
    («open» P (metadataKey P cek header.objectId) metadataNonce (metadataAad header.objectId)
      header.encryptedMetadata)
  let metadata ← mapErr ObjectError.format (Metadata.decode plaintext)
  failIf (preamble.isLegacy ∧ metadata.extensions ≠ []) (.format .invalidMetadata)
  let (salt, payload) ← readPayload 16 input
  let salt ← okOr (tryInto 16 salt) .truncatedPayload
  pure { preamble, header, protectedBytes, cek, metadata, salt, payload }

/-- Writes provisional plaintext, to be committed only if the result is `ok`. -/
def decryptToStaging (input : Bytes) (secret : RecipientSecret) : ObjectDecryption S :=
  match openHeader P input secret with
  | .error error => { result := .error error }
  | .ok opened =>
    let key := payloadKey P opened.cek opened.header.objectId opened.salt
    let records := decryptRecords P key opened.header.objectId (hash P [opened.protectedBytes])
      opened.payload
    { staging := records.staging
      result := do
        let plaintextLen ← records.result
        let signer ← verifySignature S opened.preamble opened.header opened.metadata
          (hash P [records.staging]) plaintextLen
        pure { metadata := opened.metadata, plaintextLen, signer } }

end

end HideProtocol.Object
