import HideProtocol.Conformance.Verify

/-!
# The independent writer

The container writer of `verify.mjs`: it holds the whole plaintext, assembles the protected header
and the metadata as `Map`s, and encodes them with its own canonical encoder. Its options exist to
produce containers no 1.0 writer would; without any it emits what one must.

The HPKE package stays abstract, with the seed it draws as an argument. Its one call here covers
reading the recipient's key.
-/

namespace HideProtocol.Conformance

open Lib Crypto
open Cbor (Item)

/-! ## Maps -/

/-- Whether a key is the integer `n`. -/
def isKey (key : Item) (n : ℕ) : Bool := isInteger key && integer key == n

/-- `map.set(n, value)`: a key that is there keeps its place. -/
def setKey (map : List (Item × Item)) (n : ℕ) (value : Item) : List (Item × Item) :=
  if map.any fun entry => isKey entry.1 n then
    map.map fun entry => if isKey entry.1 n then (entry.1, value) else entry
  else map ++ [(.uint n, value)]

/-- `map.set(key, value)` for one entry after the other. -/
def setAll (map : List (Item × Item)) (extensions : List (ℕ × Bytes)) : List (Item × Item) :=
  extensions.foldl (fun map extension => setKey map extension.1 (.bytes extension.2)) map

/-- `buffer.writeUInt16BE` and `buffer.writeUInt32BE` refuse what does not fit. -/
def writeUint (width value : ℕ) : Except Thrown Bytes := do
  failIf (¬value < 256 ^ width) (.error "ERR_OUT_OF_RANGE")
  pure (beBytes width value)

section
variable (P : Crypto.Primitives)

def aeadSeal (key : Key) (nonce : Nonce) (aad plaintext : Bytes) : Except Thrown Bytes :=
  okOr (P.aeadSeal key nonce aad plaintext) (.error "chacha20-poly1305")

/-- The four bytes between the magic and the header length. -/
structure Revision where
  major : UInt8 := 0
  minor : UInt8 := 1
  kind : UInt8 := 1
  flags : UInt8 := 0

def Revision.preamble12 (revision : Revision) : Bytes :=
  magic ++ [revision.major, revision.minor, revision.kind, revision.flags]

/-- The loop over the blocks from `counter` on. -/
def sealRecords (key : Key) (objectId protectedBytes plaintext : Bytes) (count counter : ℕ) :
    Except Thrown Bytes :=
  if _h : counter < count then do
    let block := (plaintext.drop (counter * 65536)).take 65536
    let kind := if counter = count - 1 then 2 else 1
    let length ← writeUint 4 (block.length + tagLen)
    let ciphertext ← aeadSeal P key (chunkNonce counter kind)
      (chunkAad P objectId protectedBytes counter kind block.length) block
    let records ← sealRecords key objectId protectedBytes plaintext count (counter + 1)
    pure ([kind] ++ length ++ ciphertext ++ records)
  else pure []
termination_by count - counter

/-- What `rebuild` is given. -/
structure Parts where
  preamble12 : Bytes
  protectedMap : List (Item × Item) := []
  /-- Used verbatim in place of the map. -/
  protectedBytes : Option Bytes := none
  cek : Key
  salt : Bytes
  plaintext : Bytes
  metadataMap : Option (List (Item × Item)) := none
  /-- Sealed verbatim in place of the map. -/
  metadataBytes : Option Bytes := none
  objectId : Bytes

/-- The metadata to seal, if any. -/
def metadataOf (parts : Parts) : Except Thrown (Option Bytes) :=
  match parts.metadataBytes, parts.metadataMap with
  | some bytes, _ => pure (some bytes)
  | none, some map => do
    let bytes ← mapErr .error (encodeCbor (.map map))
    pure (some bytes)
  | none, none => pure none

/-- The protected header, with the sealed metadata under key 4. -/
def protectedOf (parts : Parts) : Except Thrown Bytes :=
  match parts.protectedBytes with
  | some bytes => pure bytes
  | none => do
    let metadata ← metadataOf parts
    match metadata with
    | none => mapErr .error (encodeCbor (.map parts.protectedMap))
    | some metadata => do
      let encryptedMetadata ← aeadSeal P (derive P parts.cek parts.objectId (label "metadata"))
        (Vector.replicate 12 0) (metadataAad parts.objectId) metadata
      mapErr .error (encodeCbor (.map (setKey parts.protectedMap 4 (.bytes encryptedMetadata))))

/-- Assembles a container from parts, recomputing everything a recipient can recompute. -/
def rebuild (parts : Parts) : Except Thrown Bytes := do
  failIf (¬parts.preamble12.length = 12) (.error "preamble prefix must be 12 bytes")
  let protectedBytes ← protectedOf P parts
  let sized ← mapErr .error
    (encodeCbor (.array [.bytes protectedBytes, .bytes (List.replicate 32 0)]))
  let headerLength ← writeUint 4 sized.length
  let fullPreamble := parts.preamble12 ++ headerLength
  let mac := P.hmac (derive P parts.cek parts.objectId (label "header-mac"))
    (fullPreamble ++ protectedBytes)
  let key := derive P parts.cek parts.salt (label "payload" ++ parts.objectId)
  let count := max 1 ((parts.plaintext.length + 65535) / 65536)
  let records ← sealRecords P key parts.objectId protectedBytes parts.plaintext count 0
  let header ← mapErr .error (encodeCbor (.array [.bytes protectedBytes, .bytes mac.toList]))
  pure (fullPreamble ++ header ++ parts.salt ++ records)

/-! ## Options -/

/-- Where the writer puts the signature it makes. -/
inductive Placement where
  | «public»
  | confidential
deriving DecidableEq, Repr

/-- Which transcript it signs. -/
inductive Transcript where
  | current
  | legacy
deriving DecidableEq, Repr

/-- `{ verifyingKey, sign }`. -/
structure Signer where
  verifyingKey : Bytes
  sign : Bytes → Bytes

structure Signing where
  identity : Signer
  placement : Placement := .public
  transcript : Transcript := .current

/-- What `afterSign` may mutate. -/
structure Draft where
  preamble : Revision
  protectedMap : List (Item × Item)
  metadata : List (Item × Item)

structure Options where
  preamble : Revision := {}
  filename : String := "node.txt"
  mediaType : String := "text/plain"
  headerExtensions : List (ℕ × Bytes) := []
  metadataExtensions : List (ℕ × Bytes) := []
  stanzasBefore : List Item := []
  stanzasAfter : List Item := []
  includeXWing : Bool := true
  tag : ℕ := xwingTag
  sign : Option Signing := none
  extraPublicSignatures : List Item := []
  confidentialSignature : Option Item := none
  afterSign : Draft → Draft := id
  metadataBytes : Option Bytes := none

/-- What a call draws, or takes from its options. The seed is the HPKE package's. -/
structure Material where
  objectId : Bytes
  cek : Key
  salt : Bytes
  seed : Key

/-! ## Writing -/

/-- The stanza of the one recipient. -/
def xwingStanza (publicKey : Vector UInt8 publicKeyLength) (material : Material) (tag : ℕ) :
    Except Thrown Item := do
  let (enc, wrapped) ← okOr
    (P.hpkeSeal publicKey (label "object-key" ++ material.objectId ++ suiteBytes)
      (material.objectId ++ suiteBytes) material.seed material.cek) (.error "SealError")
  pure (.array [.uint tag, .bytes enc.toList, .bytes wrapped.toList])

def ownStanzas (publicKey : Vector UInt8 publicKeyLength) (material : Material)
    (options : Options) : Except Thrown (List Item) :=
  if options.includeXWing then do
    let stanza ← xwingStanza P publicKey material options.tag
    pure [stanza]
  else pure []

/-- `[...headerExtensions].sort(([a], [b]) => a - b)`. -/
def sortExtensions (extensions : List (ℕ × Bytes)) : List (ℕ × Bytes) :=
  extensions.mergeSort fun a b => decide (a.1 ≤ b.1)

/-- The signature stanza over what has been put together so far. -/
def signStanza (signing : Signing) (revision : Revision) (objectId : Bytes) (stanzas : List Item)
    (headerExtensions : List (ℕ × Bytes)) (metadata : List (Item × Item)) (plaintext : Bytes) :
    Except Thrown Item := do
  let metadataBase ← mapErr .error (encodeCbor (.map metadata))
  let sortedExtensions := sortExtensions headerExtensions
  let payload ← match signing.transcript with
    | .legacy =>
      pure (bindContext contextLegacy
        (transcriptLegacy P objectId stanzas metadataBase plaintext))
    | .current => do
      sortedExtensions.forM fun extension => do
        let _ ← writeUint 2 extension.1
      pure (bindContext context10 (transcript10 P revision.preamble12 objectId stanzas
        sortedExtensions metadataBase plaintext))
  pure (.array [.uint 1, .bytes signing.identity.verifyingKey,
    .bytes (signing.identity.sign payload)])

/-- Puts the signature where `placement` says, and then the given ones. -/
def placeSignatures (options : Options) (signature : Option Item) (metadata : List (Item × Item)) :
    List (Item × Item) × List Item :=
  let (metadata, publicSignatures) := match signature, options.sign.map Signing.placement with
    | some stanza, some .confidential => (setKey metadata 3 stanza, [])
    | some stanza, _ => (metadata, [stanza])
    | none, _ => (metadata, [])
  let metadata := match options.confidentialSignature with
    | some stanza => setKey metadata 3 stanza
    | none => metadata
  (metadata, publicSignatures ++ options.extraPublicSignatures)

def encrypt (publicKey : Vector UInt8 publicKeyLength) (plaintext : Bytes) (material : Material)
    (options : Options) : Except Thrown Bytes := do
  let own ← ownStanzas P publicKey material options
  let stanzas := options.stanzasBefore ++ own ++ options.stanzasAfter
  let metadata := setAll (setKey (setKey [] 1 (.text options.filename)) 2 (.text options.mediaType))
    options.metadataExtensions
  let signature ← options.sign.mapM fun signing =>
    signStanza P signing options.preamble material.objectId stanzas options.headerExtensions
      metadata plaintext
  let (metadata, publicSignatures) := placeSignatures options signature metadata
  let protectedMap := setAll [(.uint 1, .uint suite), (.uint 2, .bytes material.objectId),
    (.uint 3, .array stanzas), (.uint 4, .bytes []), (.uint 5, .array publicSignatures)]
    options.headerExtensions
  let draft := options.afterSign { preamble := options.preamble, protectedMap, metadata }
  rebuild P {
    preamble12 := draft.preamble.preamble12
    protectedMap := draft.protectedMap
    cek := material.cek
    salt := material.salt
    plaintext
    metadataMap := some draft.metadata
    metadataBytes := options.metadataBytes
    objectId := material.objectId }

end

end HideProtocol.Conformance
