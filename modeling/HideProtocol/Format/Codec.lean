import HideProtocol.Format.Preamble
import HideProtocol.Lib.Cbor
import HideProtocol.Lib.Text

/-!
# The header and metadata codecs

The two CBOR maps of a container: the protected header, which anyone can read, and the
metadata, which is sealed inside it. Both decoders read the fields one by one and then
compare the input with a re-encoding of what they read (`canonical`), so that one value
has one byte form.

Encoders and decoders are written separately, as they are in the source: the limits are
enforced once on each side, in different code.
-/

namespace HideProtocol.Format

open Lib

/-! ## Data -/

/-- Stanza tag of the one recipient type HIDE/1.0 defines. -/
def xwingTag : ℕ := 1
def encapsulationLen : ℕ := 1120
def wrappedCekLen : ℕ := 48
def verifyingKeyLen : ℕ := 1984
def signatureLen : ℕ := 3373

structure RecipientStanza where
  encapsulation : Bytes
  wrappedCek : Bytes
deriving DecidableEq

/-- A recipient stanza of a type this implementation does not know. -/
structure UnknownStanza where
  tag : UInt16
  fields : List Bytes
deriving DecidableEq

inductive Stanza where
  | xWing (stanza : RecipientStanza)
  | unknown (stanza : UnknownStanza)
deriving DecidableEq

namespace Stanza

def tag : Stanza → UInt16
  | xWing _ => UInt16.ofNat xwingTag
  | unknown stanza => stanza.tag

/-- The byte-string items after the tag, in wire order. -/
def fields : Stanza → List Bytes
  | xWing stanza => [stanza.encapsulation, stanza.wrappedCek]
  | unknown stanza => stanza.fields

def asXwing : Stanza → Option RecipientStanza
  | xWing stanza => some stanza
  | unknown _ => none

end Stanza

/-- An ignorable map entry. -/
structure Extension where
  key : UInt16
  value : Bytes
deriving DecidableEq

structure SignatureStanza where
  verifyingKey : Bytes
  signature : Bytes
deriving DecidableEq

structure ProtectedHeader where
  objectId : Vector UInt8 32
  recipients : List Stanza
  encryptedMetadata : Bytes
  signatures : List SignatureStanza
  extensions : List Extension
deriving DecidableEq

structure Metadata where
  filename : Option String := none
  mediaType : Option String := none
  signature : Option SignatureStanza := none
  extensions : List Extension := []
deriving DecidableEq

/-! ## Shared pieces -/

/-- A minicbor reader; its errors become `MalformedHeader`. -/
def cbor {α : Type} (p : Bytes → Option (α × Bytes)) : Parser FormatError α :=
  Parser.orErr .malformedHeader p

def key (expected : ℕ) : Parser FormatError Unit := do
  let k ← cbor Cbor.readU8
  Parser.lift (failIf (k ≠ expected) .malformedHeader)

def checkHeaderLen (length : ℕ) : Except FormatError Unit :=
  failIf (length = 0 ∨ length > maxHeaderLen) .headerTooLarge

def canonical (original : Bytes) (consumed : ℕ) (encoded : Bytes) : Except FormatError Unit :=
  failIf (consumed ≠ original.length ∨ original ≠ encoded) .nonCanonical

/-- `u16::try_from`. -/
def u16TryFrom (n : ℕ) : Option UInt16 := if n < 2 ^ 16 then some (UInt16.ofNat n) else none

/-! ## Extensions -/

/-- The loop of `check_extensions`, after a key `previous`. -/
def checkExtensionsFrom (previous : ℕ) : List Extension → Except FormatError Unit
  | [] => .ok ()
  | extension :: rest => do
    let key := extension.key.toNat
    failIf (key < firstIgnorableKey ∨ key ≤ previous ∨ extension.value.length > maxExtensionLen)
      .malformedHeader
    checkExtensionsFrom key rest

/-- Every rule an extension list must satisfy. -/
def checkExtensions (extensions : List Extension) : Except FormatError Unit := do
  failIf (extensions.length > maxExtensions) .malformedHeader
  checkExtensionsFrom 0 extensions

def encodeExtension (extension : Extension) : Bytes :=
  Cbor.uint extension.key.toNat ++ Cbor.bytes extension.value

/-- Reads `count` map entries after a key `previous`, at first the last core key. -/
def decodeExtensions : (count previous : ℕ) → Parser FormatError (List Extension)
  | 0, _ => pure []
  | count + 1, previous => do
    let key ← cbor Cbor.readU64
    Parser.lift (failIf (key ≤ previous) .malformedHeader)
    Parser.lift (failIf (key < firstIgnorableKey) .unsupportedFeature)
    let key ← Parser.lift (okOr (u16TryFrom key) .malformedHeader)
    let value ← cbor Cbor.readBytes
    Parser.lift (failIf (value.length > maxExtensionLen) .malformedHeader)
    let rest ← decodeExtensions count key.toNat
    pure ({ key, value } :: rest)

/-! ## Stanzas and signatures -/

def encodeStanza : Stanza → Except FormatError Bytes
  | .xWing stanza => do
    failIf (stanza.encapsulation.length ≠ encapsulationLen ∨
      stanza.wrappedCek.length ≠ wrappedCekLen) .malformedHeader
    pure (Cbor.array 3 ++ Cbor.uint xwingTag ++ Cbor.bytes stanza.encapsulation ++
      Cbor.bytes stanza.wrappedCek)
  | .unknown stanza => do
    failIf (stanza.tag.toNat ≤ xwingTag ∨ stanza.fields.length ≥ maxStanzaItems ∨
      ∃ f ∈ stanza.fields, f.length > maxExtensionLen) .malformedHeader
    pure (Cbor.array (1 + stanza.fields.length) ++ Cbor.uint stanza.tag.toNat ++
      stanza.fields.flatMap Cbor.bytes)

/-- One field of an unknown stanza. -/
def decodeField : Parser FormatError Bytes := do
  let field ← cbor Cbor.readBytes
  Parser.lift (failIf (field.length > maxExtensionLen) .malformedHeader)
  pure field

def decodeStanza : Parser FormatError Stanza := do
  let items ← cbor Cbor.readArray
  let items ← Parser.lift (okOr items .malformedHeader)
  Parser.lift (failIf (¬(1 ≤ items ∧ items ≤ maxStanzaItems)) .malformedHeader)
  let tag ← cbor Cbor.readU64
  if tag = xwingTag then
    Parser.lift (failIf (items ≠ 3) .malformedHeader)
    let encapsulation ← cbor Cbor.readBytes
    let wrappedCek ← cbor Cbor.readBytes
    Parser.lift (failIf (encapsulation.length ≠ encapsulationLen ∨
      wrappedCek.length ≠ wrappedCekLen) .malformedHeader)
    pure (.xWing { encapsulation, wrappedCek })
  else
    let tag ← Parser.lift (okOr (u16TryFrom tag) .malformedHeader)
    Parser.lift (failIf (tag = 0) .malformedHeader)
    let fields ← decodeField.times (items - 1)
    pure (.unknown { tag, fields })

/-- The encoding shared by both signature slots; the error differs between them. -/
def encodeSignature (e : FormatError) (stanza : SignatureStanza) : Except FormatError Bytes := do
  failIf (stanza.verifyingKey.length ≠ verifyingKeyLen ∨
    stanza.signature.length ≠ signatureLen) e
  pure (Cbor.array 3 ++ Cbor.uint 1 ++ Cbor.bytes stanza.verifyingKey ++
    Cbor.bytes stanza.signature)

def decodeSignature : Parser FormatError SignatureStanza := do
  let items ← cbor Cbor.readArray
  -- the version is only read once the array is known to have three items
  Parser.lift (failIf (items ≠ some 3) .unsupportedFeature)
  let version ← cbor Cbor.readU8
  Parser.lift (failIf (version ≠ 1) .unsupportedFeature)
  let verifyingKey ← cbor Cbor.readBytes
  let signature ← cbor Cbor.readBytes
  Parser.lift (failIf (verifyingKey.length ≠ verifyingKeyLen ∨
    signature.length ≠ signatureLen) .malformedHeader)
  pure { verifyingKey, signature }

/-! ## The protected header -/

namespace ProtectedHeader

/-- `encode_with_signatures`; without signatures the slot is written empty. -/
def encodeWithSignatures (header : ProtectedHeader) (withSignatures : Bool) :
    Except FormatError Bytes := do
  failIf (header.recipients = [] ∨ header.recipients.length > maxRecipients) .malformedHeader
  failIf (¬(tagLen ≤ header.encryptedMetadata.length ∧
    header.encryptedMetadata.length ≤ maxMetadataLen + tagLen)) .invalidMetadata
  failIf (header.signatures.length > maxSignatures) .malformedHeader
  mapErr (fun _ => .malformedHeader) (checkExtensions header.extensions)
  let stanzas ← header.recipients.mapM encodeStanza
  let signatures := if withSignatures then header.signatures else []
  let slot ← signatures.mapM (encodeSignature .malformedHeader)
  let bytes := Cbor.map (5 + header.extensions.length) ++ Cbor.uint 1 ++ Cbor.uint suite ++
    Cbor.uint 2 ++ Cbor.bytes header.objectId.toList ++
    Cbor.uint 3 ++ Cbor.array header.recipients.length ++ stanzas.flatten ++
    Cbor.uint 4 ++ Cbor.bytes header.encryptedMetadata ++
    Cbor.uint 5 ++ Cbor.array signatures.length ++ slot.flatten ++
    header.extensions.flatMap encodeExtension
  checkHeaderLen bytes.length
  pure bytes

def encode (header : ProtectedHeader) : Except FormatError Bytes :=
  header.encodeWithSignatures true

/-- The fields of a header, in wire order, up to the canonical check. -/
def decodeFields : Parser FormatError ProtectedHeader := do
  let entries ← cbor Cbor.readMap
  let entries ← Parser.lift (okOr entries .malformedHeader)
  Parser.lift (failIf (¬(5 ≤ entries ∧ entries ≤ 5 + maxExtensions)) .malformedHeader)
  key 1
  let s ← cbor Cbor.readU16
  Parser.lift (failIf (s ≠ suite) .unsupportedSuite)
  key 2
  let objectId ← cbor Cbor.readBytes
  let objectId ← Parser.lift (okOr (tryInto 32 objectId) .malformedHeader)
  key 3
  let count ← cbor Cbor.readArray
  let count ← Parser.lift (okOr count .malformedHeader)
  Parser.lift (failIf (count = 0 ∨ count > maxRecipients) .malformedHeader)
  let recipients ← decodeStanza.times count
  key 4
  let encryptedMetadata ← cbor Cbor.readBytes
  Parser.lift (failIf (¬(tagLen ≤ encryptedMetadata.length ∧
    encryptedMetadata.length ≤ maxMetadataLen + tagLen)) .invalidMetadata)
  key 5
  let signatureCount ← cbor Cbor.readArray
  let signatureCount ← Parser.lift (okOr signatureCount .malformedHeader)
  Parser.lift (failIf (signatureCount > maxSignatures) .malformedHeader)
  let signatures ← decodeSignature.times signatureCount
  let extensions ← (decodeExtensions (entries - 5) 5).renameErr fun error =>
    match error with
    | .unsupportedFeature => .unsupportedFeature
    | _ => .malformedHeader
  pure { objectId, recipients, encryptedMetadata, signatures, extensions }

def decode (bytes : Bytes) : Except FormatError ProtectedHeader := do
  checkHeaderLen bytes.length
  let (header, rest) ← decodeFields bytes
  let encoded ← header.encode
  canonical bytes (bytes.length - rest.length) encoded
  pure header

end ProtectedHeader

/-! ## The outer header -/

def encodeHeader (protectedBytes : Bytes) (mac : Vector UInt8 32) : Except FormatError Bytes := do
  checkHeaderLen protectedBytes.length
  let bytes := Cbor.array 2 ++ Cbor.bytes protectedBytes ++ Cbor.bytes mac.toList
  checkHeaderLen bytes.length
  pure bytes

/-- The two items of an outer header, up to the canonical check. -/
def decodeHeaderFields : Parser FormatError (Bytes × Vector UInt8 32) := do
  let items ← cbor Cbor.readArray
  Parser.lift (failIf (items ≠ some 2) .malformedHeader)
  let protectedBytes ← cbor Cbor.readBytes
  let mac ← cbor Cbor.readBytes
  let mac ← Parser.lift (okOr (tryInto 32 mac) .malformedHeader)
  pure (protectedBytes, mac)

def decodeHeader (bytes : Bytes) : Except FormatError (Bytes × Vector UInt8 32) := do
  checkHeaderLen bytes.length
  let ((protectedBytes, mac), rest) ← decodeHeaderFields bytes
  let encoded ← encodeHeader protectedBytes mac
  canonical bytes (bytes.length - rest.length) encoded
  pure (protectedBytes, mac)

/-! ## Metadata -/

/-- The part of a filename before its first dot, in ASCII upper case. -/
def stem (filename : String) : String :=
  String.ofList ((filename.toList.takeWhile (· ≠ '.')).map Char.toUpper)

/-- Device names that no filename may have as its stem. -/
def reservedStem (stem : String) : Bool :=
  stem ∈ ["CON", "PRN", "AUX", "NUL"] ||
    ((utf8 stem).length = 4 &&
      ("COM".toList.isPrefixOf stem.toList || "LPT".toList.isPrefixOf stem.toList) &&
      (0x31 ≤ (utf8 stem).getD 3 0 && (utf8 stem).getD 3 0 ≤ 0x39))

def validateFilename (filename : String) : Except FormatError Unit :=
  failIf (filename = "" ∨ (utf8 filename).length > 255 ∨ filename = "." ∨ filename = ".." ∨
    filename.toList.getLast? = some '.' ∨ filename.toList.getLast? = some ' ' ∨
    reservedStem (stem filename) = true ∨
    filename.toList.any fun c => isControl c || c ∈ "<>:\"/\\|?*".toList) .invalidMetadata

def validateMediaType (mediaType : String) : Except FormatError Unit :=
  failIf (mediaType = "" ∨ (utf8 mediaType).length > 255 ∨
    ¬(utf8 mediaType).all fun byte => 32 ≤ byte && byte ≤ 126) .invalidMetadata

namespace Metadata

/-- An optional field: absent, or checked and written. -/
def encodeField {α : Type} (field : Option α) (write : α → Except FormatError Bytes) :
    Except FormatError Bytes :=
  match field with
  | none => .ok []
  | some a => write a

/-- `encode_with_signature`. -/
def encodeWithSignature (metadata : Metadata) (withSignature : Bool) :
    Except FormatError Bytes := do
  let signature := if withSignature then metadata.signature else none
  mapErr (fun _ => .invalidMetadata) (checkExtensions metadata.extensions)
  let head := Cbor.map (metadata.filename.isSome.toNat + metadata.mediaType.isSome.toNat +
    signature.isSome.toNat + metadata.extensions.length)
  let filename ← encodeField metadata.filename fun filename => do
    validateFilename filename
    pure (Cbor.uint 1 ++ Cbor.str filename)
  let mediaType ← encodeField metadata.mediaType fun mediaType => do
    validateMediaType mediaType
    pure (Cbor.uint 2 ++ Cbor.str mediaType)
  let slot ← encodeField signature fun stanza => do
    let bytes ← encodeSignature .invalidMetadata stanza
    pure (Cbor.uint 3 ++ bytes)
  pure (head ++ filename ++ mediaType ++ slot ++ metadata.extensions.flatMap encodeExtension)

def encode (metadata : Metadata) : Except FormatError Bytes := metadata.encodeWithSignature true

/-- The metadata as it looked before a signature was attached. -/
def signingBase (metadata : Metadata) : Except FormatError Bytes :=
  metadata.encodeWithSignature false

/-- Runs a parser without consuming its input (`decoder.clone()`). -/
def peek {α : Type} (p : Parser FormatError α) : Parser FormatError α := fun bs => do
  let (a, _) ← p bs
  pure (a, bs)

/-- The loop over the core keys 1 to 3. It stops at the first key past 3, which begins the
extensions, and returns the metadata so far, the entries left and the last key read. -/
def decodeCore : (remaining previous : ℕ) → Metadata → Parser FormatError (Metadata × ℕ × ℕ)
  | 0, previous, metadata => pure (metadata, 0, previous)
  | remaining + 1, previous, metadata => do
    let field ← peek (cbor Cbor.readU64)
    if field > 3 then
      pure (metadata, remaining + 1, previous)
    else
      let _ ← cbor Cbor.readU64
      Parser.lift (failIf (field ≤ previous ∨ field = 0) .invalidMetadata)
      if field = 3 then
        let stanza ← decodeSignature.renameErr fun _ => .invalidMetadata
        decodeCore remaining field { metadata with signature := some stanza }
      else
        let text ← cbor Cbor.readStr
        Parser.lift (failIf ((utf8 text).length > 255) .invalidMetadata)
        if field = 1 then
          decodeCore remaining field { metadata with filename := some text }
        else
          decodeCore remaining field { metadata with mediaType := some text }

/-- The core keys, then the extensions. -/
def decodeEntries (count previous : ℕ) (metadata : Metadata) : Parser FormatError Metadata := do
  let (metadata, remaining, previous) ← decodeCore count previous metadata
  let extensions ← (decodeExtensions remaining previous).renameErr fun error =>
    match error with
    | .unsupportedFeature => .unsupportedFeature
    | _ => .invalidMetadata
  pure { metadata with extensions }

/-- The fields of a metadata map, up to the canonical check. -/
def decodeFields : Parser FormatError Metadata := do
  let count ← cbor Cbor.readMap
  let count ← Parser.lift (okOr count .invalidMetadata)
  Parser.lift (failIf (count > 3 + maxExtensions) .invalidMetadata)
  decodeEntries count 0 {}

def decode (bytes : Bytes) : Except FormatError Metadata := do
  failIf (bytes.length > maxMetadataLen) .invalidMetadata
  let (metadata, rest) ← decodeFields bytes
  let encoded ← metadata.encode
  canonical bytes (bytes.length - rest.length) encoded
  pure metadata

end Metadata

end HideProtocol.Format
