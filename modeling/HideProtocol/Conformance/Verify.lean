import HideProtocol.Crypto.Suite
import HideProtocol.Lib.CborItem
import HideProtocol.Sign.Hybrid

/-!
# The independent reader

The container reader of `verify.mjs`, which shares no code with the Rust crates. It holds the
whole container in memory, decodes the header and the metadata with a generic CBOR decoder,
compares each with its own re-encoding, and only then checks what it decoded, value by value.

The `cbor` package is third-party code and stays abstract, as a function from bytes to the values
it returns or the message it throws; so are the primitives of both cryptographic layers, which
are those of the Rust side. A JavaScript `Map` is the list of its entries in insertion order.
Everything `decrypt` throws is a `Thrown`.
-/

namespace HideProtocol.Conformance

open Lib Crypto
open Cbor (Item)

def magic : Bytes := [0x48, 0x49, 0x44, 0x45, 0x0d, 0x0a, 0x1a, 0x0a]
def suite : ℕ := 1
def suiteBytes : Bytes := [0, 1]

def maxHeaderLen : ℕ := 1024 * 1024
def maxStanzas : ℕ := 64
def maxStanzaItems : ℕ := 8
def maxFieldLen : ℕ := 65536
def maxExtensions : ℕ := 16
def maxMetadataLen : ℕ := 262144
def tagLen : ℕ := 16
def xwingTag : ℕ := 1
def encapsulationLen : ℕ := 1120
def wrappedCekLen : ℕ := 48
def flagSigned : UInt8 := 0x01
def knownFlags : UInt8 := flagSigned
def legacyMinor : UInt8 := 2

def verifyingKeyLen : ℕ := 1984
def signatureLen : ℕ := 3373
def context10 : Bytes := utf8 "HIDE/1.0 container"
def transcript10Label : Bytes := utf8 "HIDE/1.0 transcript"
def contextLegacy : Bytes := utf8 "HIDE/0.5 container"
def transcriptLegacyLabel : Bytes := utf8 "HIDE/0.5 transcript"

def label (value : String) : Bytes := utf8 ("HIDE/0.1 " ++ value)

def uint16 (value : ℕ) : Bytes := beBytes 2 value
def uint32 (value : ℕ) : Bytes := beBytes 4 value
def uint64 (value : ℕ) : Bytes := beBytes 8 value

/-! ## Refusals -/

/-- The error classes of the specification. -/
inductive Code where
  | invalidContainer
  | unsupportedVersion
  | unsupportedFeature
  | unsupportedSuite
  | headerTooLarge
  | malformedHeader
  | nonCanonical
  | invalidMetadata
  | noMatchingRecipient
  | authenticationFailed
  | invalidSignature
  | truncatedPayload
  | trailingData
deriving DecidableEq, Repr

/-- What `decrypt` throws: a `Rejection`, or an error of a library call. -/
inductive Thrown where
  | rejection (code : Code) (detail : String)
  | error (message : String)
deriving DecidableEq, Repr

def reject {α : Type} (code : Code) (detail : String) : Except Thrown α :=
  .error (.rejection code detail)

def need (condition : Prop) [Decidable condition] (code : Code) (detail : String) :
    Except Thrown Unit :=
  failIf (¬condition) (.rejection code detail)

/-! ## JavaScript values -/

def undefined : Item := .other "cannot CBOR-encode undefined"

def isArray : Item → Bool
  | .array _ => true
  | _ => false

/-- Integers above `Number.MAX_SAFE_INTEGER` are bigints. -/
def isUint : Item → Bool
  | .uint n => n < 2 ^ 53
  | _ => false

/-- `isUint(value) || typeof value === "bigint"`. -/
def isInteger : Item → Bool
  | .uint _ => true
  | _ => false

def isBytes : Item → Bool
  | .bytes _ => true
  | _ => false

def isMap : Item → Bool
  | .map _ => true
  | _ => false

/-- The elements of an array. -/
def elements : Item → List Item
  | .array items => items
  | _ => []

/-- The value of an integer. -/
def integer : Item → ℕ
  | .uint n => n
  | _ => 0

/-- The content of a byte string. -/
def buffer : Item → Bytes
  | .bytes content => content
  | _ => []

/-- The entries of a `Map`. -/
def entries : Item → List (Item × Item)
  | .map entries => entries
  | _ => []

/-- `value[i]`. -/
def index (value : Item) (i : ℕ) : Item := (elements value).getD i undefined

/-- `value === n` for a number `n`. -/
def isNumber (value : Item) (n : ℕ) : Bool := isUint value && integer value == n

/-- `map.get(n)` for a number `n`. -/
def get (map : List (Item × Item)) (n : ℕ) : Option Item :=
  (map.find? fun entry => isNumber entry.1 n).map Prod.snd

/-! ## Encoding -/

def cborHead (major value : ℕ) : Except String Bytes :=
  if value < 2 ^ 64 then .ok (Cbor.head major value) else .error "CBOR argument out of range"

/-- `Buffer.compare(a, b) <= 0` on the encoded keys. -/
def keyLe (a b : Bytes × Bytes) : Bool := decide (a.1 ≤ b.1)

mutual

def encodeCbor : Item → Except String Bytes
  | .uint n => cborHead 0 n
  | .bytes content => do
    let head ← cborHead 2 content.length
    pure (head ++ content)
  | .text content => do
    let head ← cborHead 3 (utf8 content).length
    pure (head ++ utf8 content)
  | .array items => do
    let head ← cborHead 4 items.length
    let parts ← encodeItems items
    pure (head ++ parts.flatten)
  | .map entries => do
    let encoded ← encodeEntries entries
    let sorted := encoded.mergeSort keyLe
    let head ← cborHead 5 sorted.length
    pure (head ++ sorted.flatMap fun entry => entry.1 ++ entry.2)
  | .other refusal => .error refusal

def encodeItems : List Item → Except String (List Bytes)
  | [] => pure []
  | item :: items => do
    let part ← encodeCbor item
    let parts ← encodeItems items
    pure (part :: parts)

def encodeEntries : List (Item × Item) → Except String (List (Bytes × Bytes))
  | [] => pure []
  | (key, value) :: entries => do
    let key ← encodeCbor key
    let value ← encodeCbor value
    let rest ← encodeEntries entries
    pure ((key, value) :: rest)

end

/-! ## Transcripts -/

def transcriptStanza (stanza : Item) : Bytes :=
  let fields := (elements stanza).drop 1
  uint64 (integer (index stanza 0)) ++ uint64 fields.length ++
    fields.flatMap fun field => uint64 (buffer field).length ++ buffer field

def transcript10 (P : Crypto.Primitives) (preamble12 objectId : Bytes) (stanzas : List Item)
    (headerExtensions : List (ℕ × Bytes)) (metadataBase plaintext : Bytes) : Bytes :=
  transcript10Label ++ preamble12 ++ suiteBytes ++ objectId ++ uint64 stanzas.length ++
    stanzas.flatMap transcriptStanza ++ uint64 headerExtensions.length ++
    headerExtensions.flatMap (fun (key, value) => uint16 key ++ uint64 value.length ++ value) ++
    uint64 metadataBase.length ++ metadataBase ++ (P.sha256 plaintext).toList ++
    uint64 plaintext.length

/-- The read-only transcript of minor 2. -/
def transcriptLegacy (P : Crypto.Primitives) (objectId : Bytes) (stanzas : List Item)
    (metadataBase plaintext : Bytes) : Bytes :=
  transcriptLegacyLabel ++ suiteBytes ++ objectId ++ uint64 stanzas.length ++
    stanzas.flatMap (fun stanza => ((elements stanza).drop 1).flatMap buffer) ++
    uint64 metadataBase.length ++ metadataBase ++ (P.sha256 plaintext).toList ++
    uint64 plaintext.length

def bindContext (context message : Bytes) : Bytes := uint64 context.length ++ context ++ message

/-- Both halves are evaluated before deciding. The classical one is false for a key that is not
a point. -/
def verifyHybrid (S : Sign.Primitives) (verifyingKey signature payload : Bytes) : Bool :=
  match Sign.splitAt 32 Sign.mlDsaPublicLen verifyingKey,
    Sign.splitAt Sign.ed25519SignatureLen Sign.mlDsaSignatureLen signature with
  | some key, some halves =>
    let classical := S.edDecompresses key.1 && S.edVerifyStrict key.1 payload halves.1
    let quantum := S.mlVerify key.2 payload halves.2
    classical && quantum
  | _, _ => false

/-- One call verifies both halves; the other first parses the key. -/
theorem verifyHybrid_iff {S : Sign.Primitives}
    {verifyingKey signature context message : Bytes} :
    verifyHybrid S verifyingKey signature (bindContext context message) = true ↔
      ∃ identity, Sign.VerifyingIdentity.fromBytes S verifyingKey = .ok identity ∧
        identity.verify context message signature = .ok () := by
  constructor
  · intro h
    unfold verifyHybrid at h
    split at h
    next key halves hkey hhalves =>
      have ⟨hclassical, hquantum⟩ := Bool.and_eq_true_iff.mp h
      have ⟨hpoint, hed⟩ := Bool.and_eq_true_iff.mp hclassical
      refine ⟨⟨key.1, key.2, hpoint⟩, ?_, ?_⟩
      · refine bind_eq_ok.mpr ⟨(), failIf_neg _ (not_not.mpr (Sign.length_of_splitAt hkey).symm), ?_⟩
        refine bind_eq_ok.mpr ⟨key, okOr_eq_ok.mpr hkey, ?_⟩
        exact dif_pos hpoint
      · refine bind_eq_ok.mpr ⟨(), failIf_neg _ (not_not.mpr (Sign.length_of_splitAt hhalves).symm), ?_⟩
        refine bind_eq_ok.mpr ⟨halves, okOr_eq_ok.mpr hhalves, ?_⟩
        exact failIf_neg _ (not_not.mpr ⟨hed, hquantum⟩)
    next => cases h
  · rintro ⟨identity, hidentity, hverify⟩
    unfold Sign.VerifyingIdentity.fromBytes at hidentity
    obtain ⟨_, _, hidentity⟩ := bind_eq_ok.mp hidentity
    obtain ⟨key, hkey, hidentity⟩ := bind_eq_ok.mp hidentity
    unfold Sign.VerifyingIdentity.verify at hverify
    obtain ⟨_, _, hverify⟩ := bind_eq_ok.mp hverify
    obtain ⟨halves, hhalves, hverify⟩ := bind_eq_ok.mp hverify
    have ⟨hed, hquantum⟩ := not_not.mp (failIf_eq_ok.mp hverify)
    split at hidentity
    next hpoint =>
      have hidentity := pure_eq_ok.mp hidentity
      subst hidentity
      unfold verifyHybrid
      rw [okOr_eq_ok.mp hkey, okOr_eq_ok.mp hhalves]
      exact Bool.and_eq_true_iff.mpr ⟨Bool.and_eq_true_iff.mpr ⟨hpoint, hed⟩, hquantum⟩
    next => cases hidentity

/-! ## Structural checks -/

/-- `[1, verifying_key, signature]`; never skipped. -/
def checkSignatureStanza (stanza : Item) : Except Thrown Unit :=
  need (isArray stanza ∧ (elements stanza).length = 3 ∧ isNumber (index stanza 0) 1 ∧
      isBytes (index stanza 1) ∧ (buffer (index stanza 1)).length = verifyingKeyLen ∧
      isBytes (index stanza 2) ∧ (buffer (index stanza 2)).length = signatureLen)
    .unsupportedFeature "signature stanza tag or shape"

/-- Returns whether the stanza is an X-Wing one; any other tag is unknown. -/
def checkRecipientStanza (stanza : Item) : Except Thrown Bool := do
  need (isArray stanza ∧ 1 ≤ (elements stanza).length ∧ (elements stanza).length ≤ maxStanzaItems)
    .malformedHeader "stanza length"
  let tag := index stanza 0
  need (isUint tag ∧ 1 ≤ integer tag ∧ integer tag ≤ 65535) .malformedHeader "stanza tag"
  ((elements stanza).drop 1).forM fun field =>
    need (isBytes field ∧ (buffer field).length ≤ maxFieldLen) .malformedHeader "stanza field"
  if integer tag ≠ xwingTag then pure false
  else do
    need ((elements stanza).length = 3 ∧ (buffer (index stanza 1)).length = encapsulationLen ∧
      (buffer (index stanza 2)).length = wrappedCekLen) .malformedHeader "X-Wing stanza shape"
    pure true

/-- The loop over the header keys after 5. A `Map` has one value for each of its keys. -/
def checkHeaderExtensions (previous : ℕ) :
    List (Item × Item) → Except Thrown (List (ℕ × Bytes))
  | [] => pure []
  | (key, value) :: rest => do
    need (isInteger key) .malformedHeader "non-integer header key"
    let key := integer key
    need (¬key > 65535) .malformedHeader "header key > 65535"
    need (key > previous) .malformedHeader "header keys not ascending"
    need (key ≥ 64) .unsupportedFeature ("critical header key " ++ toString key)
    need (isBytes value ∧ (buffer value).length ≤ maxFieldLen) .malformedHeader
      ("header extension " ++ toString key ++ " value")
    let extensions ← checkHeaderExtensions key rest
    pure ((key, buffer value) :: extensions)

structure Header where
  objectId : Bytes
  stanzas : List Item
  xwing : List Bool
  encryptedMetadata : Bytes
  publicSignatures : List Item
  extensions : List (ℕ × Bytes)

/-- Returns the parsed fields and the ignorable extensions. -/
def checkHeader (header : Item) : Except Thrown Header := do
  need (isMap header) .malformedHeader "protected is not a map"
  let map := entries header
  let keys := map.map Prod.fst
  need (keys.length ≥ 5 ∧ ∀ i < 5, isNumber (keys.getD i undefined) (i + 1)) .malformedHeader
    "keys 1..5 required in order"
  need (isNumber ((get map 1).getD undefined) suite) .unsupportedSuite ""
  let objectId := (get map 2).getD undefined
  need (isBytes objectId ∧ (buffer objectId).length = 32) .malformedHeader "object_id"
  let stanzas := (get map 3).getD undefined
  need (isArray stanzas ∧ (elements stanzas).length ≥ 1 ∧ (elements stanzas).length ≤ maxStanzas)
    .malformedHeader "stanza count"
  let encryptedMetadata := (get map 4).getD undefined
  need (isBytes encryptedMetadata ∧ (buffer encryptedMetadata).length ≥ tagLen ∧
    (buffer encryptedMetadata).length ≤ maxMetadataLen + tagLen) .malformedHeader
    "encrypted_metadata"
  let publicSignatures := (get map 5).getD undefined
  need (isArray publicSignatures) .malformedHeader "key 5 is not an array"
  need ((elements publicSignatures).length ≤ 1) .malformedHeader "more than one signature stanza"
  (elements publicSignatures).forM checkSignatureStanza
  let xwing ← (elements stanzas).mapM checkRecipientStanza
  let extensions ← checkHeaderExtensions 5 (map.drop 5)
  need (extensions.length ≤ maxExtensions) .malformedHeader "too many header extensions"
  pure {
    objectId := buffer objectId
    stanzas := elements stanzas
    xwing
    encryptedMetadata := buffer encryptedMetadata
    publicSignatures := elements publicSignatures
    extensions }

/-! ## Metadata -/

def windowsReserved : List String := ["CON", "PRN", "AUX", "NUL"]

/-- The character class of the filename test: C0, DEL, C1 and the characters that are special
in a path. -/
def isForbidden (c : Char) : Bool :=
  c.toNat ≤ 0x1f || (0x7f ≤ c.toNat && c.toNat ≤ 0x9f) || c ∈ "<>:\"/\\|?*".toList

/-- `name.split(".")[0]` with `[a-z]` replaced by `[A-Z]`. -/
def upperStem (name : String) : List Char :=
  (name.toList.takeWhile (· ≠ '.')).map fun c =>
    if 'a' ≤ c ∧ c ≤ 'z' then c.toUpper else c

/-- `/^(COM|LPT)[1-9]$/`. -/
def isPort : List Char → Bool
  | [a, b, c, d] => ([a, b, c] == ['C', 'O', 'M'] || [a, b, c] == ['L', 'P', 'T']) &&
      ('1' ≤ d && d ≤ '9')
  | _ => false

def filenameIsPortable (name : String) : Bool :=
  let bytes := (utf8 name).length
  if bytes < 1 ∨ bytes > 255 then false
  else if name = "." ∨ name = ".." then false
  else if name.toList.getLast? = some '.' ∨ name.toList.getLast? = some ' ' then false
  else if name.toList.any isForbidden then false
  else
    let stem := upperStem name
    if windowsReserved.any (fun reserved => reserved.toList == stem) then false
    else if (utf8 (String.ofList stem)).length = 4 ∧ isPort stem then false
    else true

def mediaTypeIsValid (value : String) : Bool :=
  let bytes := utf8 value
  decide (bytes.length ≥ 1 ∧ bytes.length ≤ 255) && bytes.all fun b => b ≥ 32 && b ≤ 126

/-- `typeof value === "string"` and a test of it. -/
def isStringWith (test : String → Bool) : Item → Bool
  | .text content => test content
  | _ => false

/-- The loop over the metadata entries. Returns the extensions in ascending order. -/
def checkEntries (previous : ℕ) : List (Item × Item) → Except Thrown (List (ℕ × Bytes))
  | [] => pure []
  | (key, value) :: rest => do
    need (isInteger key) .invalidMetadata "non-integer metadata key"
    let key := integer key
    need (¬key > 65535) .invalidMetadata "metadata key > 65535"
    need (key > previous) .invalidMetadata "metadata keys not ascending (or key 0)"
    if key = 1 then do
      need (isStringWith filenameIsPortable value) .invalidMetadata "filename"
      checkEntries key rest
    else if key = 2 then do
      need (isStringWith mediaTypeIsValid value) .invalidMetadata "media_type"
      checkEntries key rest
    else if key = 3 then do
      checkSignatureStanza value
      checkEntries key rest
    else if key < 64 then
      reject .unsupportedFeature
        ((if key ≤ 5 then "reserved" else "critical") ++ " metadata key " ++ toString key)
    else do
      need (isBytes value ∧ (buffer value).length ≤ maxFieldLen) .invalidMetadata
        ("metadata extension " ++ toString key ++ " value")
      let extensions ← checkEntries key rest
      pure ((key, buffer value) :: extensions)

def checkMetadata (metadata : Item) : Except Thrown (List (ℕ × Bytes)) := do
  need (isMap metadata) .invalidMetadata "metadata is not a map"
  let extensions ← checkEntries 0 (entries metadata)
  need (extensions.length ≤ maxExtensions) .invalidMetadata "too many metadata extensions"
  pure extensions

section
variable (P : Crypto.Primitives) (S : Sign.Primitives)
  (decodeAllSync : Bytes → Except String (List Item))

/-- Decodes exactly one CBOR item and refuses it unless re-encoding reproduces the input.
`decodeAllSync` is called with `preferMap`, `preventDuplicateKeys` and a `max_depth` of 16. -/
def decodeCanonical (bytes : Bytes) (code : Code) : Except Thrown Item := do
  let values ← mapErr (fun message => .rejection code ("CBOR: " ++ message)) (decodeAllSync bytes)
  need (values.length = 1) code "not exactly one CBOR item"
  let value := values.headD undefined
  let reencoded ← mapErr (fun message => .rejection code ("re-encode: " ++ message))
    (encodeCbor value)
  need (reencoded = bytes) .nonCanonical "re-encoding differs"
  pure value

/-! ## Container primitives -/

def derive (cek : Key) (salt info : Bytes) : Key := P.hkdf salt cek.toList info

def aeadOpen (key : Key) (nonce : Nonce) (aad ciphertext : Bytes) : Except Thrown Bytes := do
  need (ciphertext.length ≥ tagLen) .authenticationFailed "ciphertext shorter than tag"
  okOr (P.aeadOpen key nonce aad ciphertext) (.rejection .authenticationFailed "AEAD tag")

def chunkNonce (counter : ℕ) (kind : UInt8) : Nonce :=
  ⟨([0, 0, 0] ++ uint64 counter ++ [if kind = 2 then 1 else 0]).toArray, by simp [uint64]⟩

def chunkAad (objectId protectedBytes : Bytes) (counter : ℕ) (kind : UInt8) (length : ℕ) : Bytes :=
  label "chunk" ++ objectId ++ (P.sha256 protectedBytes).toList ++ uint64 counter ++ [kind] ++
    uint32 length

def metadataAad (objectId : Bytes) : Bytes := label "metadata" ++ objectId ++ suiteBytes

/-! ## Reading -/

/-- What the first sixteen bytes say. -/
structure Preamble where
  bytes : Bytes
  minor : UInt8
  flags : UInt8
  legacy : Bool
  signed : Bool
  headerEnd : ℕ

def readPreamble (container : Bytes) : Except Thrown Preamble := do
  need (container.length ≥ 16) .invalidContainer "shorter than the preamble"
  let preamble := container.take 16
  need (preamble.take 8 = magic) .invalidContainer "magic"
  let major := preamble.getD 8 0
  let minor := preamble.getD 9 0
  let kind := preamble.getD 10 0
  let flags := preamble.getD 11 0
  need (major = 0) .unsupportedVersion ("major " ++ toString major)
  need (minor ≠ 0) .unsupportedVersion "minor 0"
  need (kind = 1) .unsupportedFeature ("kind " ++ toString kind)
  need (flags &&& ~~~knownFlags = 0) .unsupportedFeature ("unknown flag bits " ++ toString flags)
  let legacy := decide (minor = legacyMinor)
  need (!legacy ∨ flags = 0) .unsupportedFeature "minor 2 with flags"
  let headerLength := ofBe (preamble.drop 12)
  need (headerLength > 0 ∧ headerLength ≤ maxHeaderLen) .headerTooLarge ""
  let headerEnd := 16 + headerLength
  need (headerEnd + 16 ≤ container.length) .invalidContainer "truncated header or salt"
  pure { bytes := preamble, minor, flags, legacy
         signed := legacy || flags &&& flagSigned ≠ 0, headerEnd }

/-- Splits the header into the protected bytes, the MAC and the parsed fields. -/
def readHeader (container : Bytes) (preamble : Preamble) :
    Except Thrown (Bytes × Bytes × Header) := do
  let envelope ← decodeCanonical decodeAllSync
    ((container.take preamble.headerEnd).drop 16) .malformedHeader
  need (isArray envelope ∧ (elements envelope).length = 2) .malformedHeader
    "header is not array(2)"
  let protectedBytes := index envelope 0
  let headerMac := index envelope 1
  need (isBytes protectedBytes ∧ isBytes headerMac ∧ (buffer headerMac).length = 32)
    .malformedHeader "header items"
  let decoded ← decodeCanonical decodeAllSync (buffer protectedBytes) .malformedHeader
  let header ← checkHeader decoded
  if preamble.legacy then do
    need (header.extensions.length = 0) .malformedHeader "minor 2 with header extensions"
    need (header.xwing.all id) .malformedHeader "minor 2 with unknown stanzas"
  pure (buffer protectedBytes, buffer headerMac, header)

/-- What one stanza unwraps to. The lengths are those `checkRecipientStanza` requires, and an
opened key has 32 bytes. -/
def openCandidate (seed : Key) (objectId : Bytes) (stanza : Item) : Option Key := do
  let enc ← tryInto encapsulationLength (buffer (index stanza 1))
  let wrapped ← tryInto wrappedKeyLength (buffer (index stanza 2))
  P.hpkeOpen seed (label "object-key" ++ objectId ++ suiteBytes) (objectId ++ suiteBytes) enc
    wrapped

/-- The loop over the stanzas, each with whether it is an X-Wing one. -/
def recoverCek (seed : Key) (objectId preamble protectedBytes headerMac : Bytes) :
    List (Item × Bool) → Option Key
  | [] => none
  | (stanza, xwing) :: stanzas =>
    if xwing then
      match openCandidate P seed objectId stanza with
      | none => recoverCek seed objectId preamble protectedBytes headerMac stanzas
      | some candidate =>
        let macKey := derive P candidate objectId (label "header-mac")
        if (P.hmac macKey (preamble ++ protectedBytes)).toList = headerMac then some candidate
        else recoverCek seed objectId preamble protectedBytes headerMac stanzas
    else recoverCek seed objectId preamble protectedBytes headerMac stanzas

/-- The metadata map and its extensions. -/
def readMetadata (preamble : Preamble) (header : Header) (cek : Key) :
    Except Thrown (List (Item × Item) × List (ℕ × Bytes)) := do
  let metadataBytes ← aeadOpen P (derive P cek header.objectId (label "metadata"))
    (Vector.replicate 12 0) (metadataAad header.objectId) header.encryptedMetadata
  need (metadataBytes.length ≤ maxMetadataLen) .invalidMetadata "metadata too large"
  let metadata ← decodeCanonical decodeAllSync metadataBytes .invalidMetadata
  let metadataExtensions ← checkMetadata metadata
  if preamble.legacy then
    need (metadataExtensions.length = 0) .malformedHeader "minor 2 with metadata extensions"
  pure (entries metadata, metadataExtensions)

/-- The signature obligations that do not need the plaintext. -/
def chooseStanza (signed : Bool) (publicSignatures : List Item) (confidential : Option Item) :
    Except Thrown (Option Item) := do
  need (¬(publicSignatures.length > 0 ∧ confidential.isSome)) .invalidSignature
    "signatures in both places"
  let stanza := publicSignatures.head? <|> confidential
  if signed then need stanza.isSome .invalidSignature "signed but no signature (stripped)"
  else need stanza.isNone .invalidSignature "signature present but container is unsigned"
  pure stanza

/-- The loop over the records, up to and with the last one. -/
def readRecords (key : Key) (objectId protectedBytes container : Bytes) (offset counter : ℕ)
    (plaintext : List Bytes) : Except Thrown Bytes :=
  if _h : counter < 2 ^ 32 then do
    need (offset + 5 ≤ container.length) .truncatedPayload "missing FINAL"
    let recordKind := container.getD offset 0
    let length := ofBe ((container.drop (offset + 1)).take 4)
    need (length ≥ 16 ∧ length ≤ 65552) .invalidContainer "record length"
    need (if recordKind = 1 then length = 65552
      else recordKind = 2 ∧ (length > 16 ∨ counter = 0)) .invalidContainer "record kind/length"
    need (offset + 5 + length ≤ container.length) .truncatedPayload "record truncated"
    let chunk ← aeadOpen P key (chunkNonce counter recordKind)
      (chunkAad P objectId protectedBytes counter recordKind (length - 16))
      ((container.drop (offset + 5)).take length)
    if recordKind ≠ 2 then
      readRecords key objectId protectedBytes container (offset + 5 + length) (counter + 1)
        (plaintext ++ [chunk])
    else do
      need (offset + 5 + length = container.length) .trailingData ""
      pure (plaintext ++ [chunk]).flatten
  else reject .invalidContainer "object too large"
termination_by 2 ^ 32 - counter

/-- Checks the signature over everything but its own place, and returns its key. -/
def verifySigner (preamble : Preamble) (header : Header) (metadata : List (Item × Item))
    (plaintext : Bytes) (stanza : Item) : Except Thrown Bytes := do
  let metadataBase ← mapErr .error
    (encodeCbor (.map (metadata.filter fun entry => !isNumber entry.1 3)))
  let message :=
    if preamble.legacy then
      transcriptLegacy P header.objectId header.stanzas metadataBase plaintext
    else
      transcript10 P (preamble.bytes.take 12) header.objectId header.stanzas header.extensions
        metadataBase plaintext
  let payload := bindContext (if preamble.legacy then contextLegacy else context10) message
  need (verifyHybrid S (buffer (index stanza 1)) (buffer (index stanza 2)) payload)
    .invalidSignature "signature did not verify"
  pure (buffer (index stanza 1))

structure Decrypted where
  plaintext : Bytes
  metadata : List (Item × Item)
  signer : Option Bytes
  minor : UInt8
  flags : UInt8
  headerExtensions : List (ℕ × Bytes)
  metadataExtensions : List (ℕ × Bytes)
  stanzas : List Item

/-- Opens a container with a 32-byte X-Wing recipient seed. -/
def decrypt (container : Bytes) (privateSeed : Key) : Except Thrown Decrypted := do
  let preamble ← readPreamble container
  let (protectedBytes, headerMac, header) ← readHeader decodeAllSync container preamble
  let cek ← okOr (recoverCek P privateSeed header.objectId preamble.bytes protectedBytes headerMac
    (header.stanzas.zip header.xwing)) (.rejection .noMatchingRecipient "")
  let (metadata, metadataExtensions) ← readMetadata P decodeAllSync preamble header cek
  let stanza ← chooseStanza preamble.signed header.publicSignatures (get metadata 3)
  let salt := (container.drop preamble.headerEnd).take 16
  let key := derive P cek salt (label "payload" ++ header.objectId)
  let plaintext ← readRecords P key header.objectId protectedBytes container
    (preamble.headerEnd + 16) 0 []
  let signer ← stanza.mapM (verifySigner P S preamble header metadata plaintext)
  pure {
    plaintext, metadata, signer
    minor := preamble.minor
    flags := preamble.flags
    headerExtensions := header.extensions
    metadataExtensions
    stanzas := header.stanzas }

end

end HideProtocol.Conformance
