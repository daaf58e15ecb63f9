import HideProtocol.Conformance.Verify
import HideProtocol.Lib.Base64

/-!
# The independent subsystem readers

The identity-log and checkpoint readers of `subsystems.mjs`, which re-derives every byte layout and
shares no code with the Rust crates. SHA-256 and the signature schemes are parameters, the same as
those of the Rust side.

Every JavaScript string here comes out of a fatal `TextDecoder` or is given by the caller, and is
the list of its characters. A `Map` keyed by the hex form of an id is keyed by the id; nothing
depends on the order of its entries. The switches with which the self-tests turn single checks off
have their default value, on.
-/

namespace HideProtocol.Conformance.Subsystems

open Lib

/-- `[u8; 32]`, what `createHash("sha256")` digests to. -/
abbrev Hash := Vector UInt8 32

/-- The reasons of a `Rejection`. -/
inductive Code where
  | malformed
  | tooManyEntries
  | labelTooLong
  | empty
  | badRoot
  | outOfOrder
  | brokenLink
  | badSignature
  | unauthorised
  | alreadyEnrolled
  | notEnrolled
  | wouldOrphan
  | wrongOrigin
  | unsigned
deriving DecidableEq, Repr

/-- What a reader throws: a `Rejection` with the position it names, or an error of a library
call. -/
inductive Thrown where
  | rejection (code : Code) (position : Option ℕ)
  | error (message : String)
deriving DecidableEq, Repr

def reject (code : Code) : Thrown := .rejection code none

def rejectAt (code : Code) (position : ℕ) : Thrown := .rejection code (some position)

def u64be (value : ℕ) : Bytes := beBytes 8 value

/-- The halves are those of `verify.mjs`, after a check of both lengths. -/
def verifyHybrid (S : Sign.Primitives) (verifyingKey context message signature : Bytes) :
    Except Thrown Bool := do
  failIf (verifyingKey.length ≠ verifyingKeyLen) (.error "verifying key length")
  if signature.length ≠ signatureLen then pure false
  else pure (Conformance.verifyHybrid S verifyingKey signature (bindContext context message))

/-! ## The strict CBOR subset -/

namespace StrictReader

/-- How many bytes of argument follow, and the least value that needs them. -/
def widthOf (info : ℕ) : Option (ℕ × ℕ) :=
  match info with
  | 24 => some (1, 24)
  | 25 => some (2, 0x100)
  | 26 => some (4, 0x10000)
  | 27 => some (8, 0x100000000)
  | _ => none

/-- A head of the expected major type, definite and in its shortest form. -/
def head (expectedMajor : ℕ) : Parser Thrown ℕ
  | [] => .error (reject .malformed)
  | initial :: bytes => do
    let info := initial.toNat % 32
    failIf (initial.toNat / 32 ≠ expectedMajor) (reject .malformed)
    if info < 24 then pure (info, bytes)
    else do
      -- an indefinite or reserved form has no width
      let (width, minimum) ← okOr (widthOf info) (reject .malformed)
      failIf (width > bytes.length) (reject .malformed)
      let value := ofBe (bytes.take width)
      failIf (value < minimum) (reject .malformed)
      pure (value, bytes.drop width)

def uint : Parser Thrown ℕ := head 0

def array : Parser Thrown ℕ := head 4

/-- The content of a string, bounded before it is cut out. -/
def string (major : ℕ) : Parser Thrown Bytes := do
  let length ← head major
  Parser.orErr (reject .malformed) (Cbor.readSlice length)

def bytestring : Parser Thrown Bytes := string 2

def text : Parser Thrown Text := do
  let raw ← string 3
  Parser.lift (okOr (decodeText raw) (reject .malformed))

end StrictReader

/-- The argument of every call is below `2 ^ 64`. -/
def cborHead (major value : ℕ) : Bytes := Cbor.head major value

def cborUint (value : ℕ) : Bytes := cborHead 0 value

def cborBytes (bytes : Bytes) : Bytes := cborHead 2 bytes.length ++ bytes

def cborText (text : Text) : Bytes := cborHead 3 (textBytes text).length ++ textBytes text

def cborArray (count : ℕ) : Bytes := cborHead 4 count

/-! ## Identity logs -/

def entryContext : Bytes := utf8 "HIDE/0.6 identity entry"
def linkLabel : Bytes := utf8 "HIDE/0.6 identity link"
def deviceIdLabel : Bytes := utf8 "HIDE/0.6 device id"
def maxEntries : ℕ := 100000
def maxLabelBytes : ℕ := 256
def entryFields : ℕ := 7
def legacyEntryHeader : ℕ := 6

/-- The keys of `TAGS`: `Create`, `Enrol`, `Revoke` and `Recover`. -/
def tags : List ℕ := [1, 2, 3, 4]

def zero32 : Bytes := List.replicate 32 0

/-- A decoded entry. Keys, ids and links are raw bytes. -/
structure Entry where
  sequence : ℕ
  tag : ℕ
  payload : Bytes
  label : Text
  signer : Bytes
  link : Bytes
  signature : Bytes
deriving DecidableEq

def encodeEntry (header : ℕ) (entry : Entry) : Bytes :=
  cborArray header ++ (cborUint entry.sequence ++ (cborUint entry.tag ++
    (cborBytes entry.payload ++ (cborText (if entry.tag = 3 then [] else entry.label) ++
    (cborBytes entry.signer ++ (cborBytes entry.link ++ cborBytes entry.signature))))))

def encodeIdentity (entries : List Entry) (header : ℕ) : Bytes :=
  cborArray entries.length ++ entries.flatMap (encodeEntry header)

/-- One turn of the decoding loop, with the framing seen so far: the entry and its header. -/
def decodeEntry (framing : Option ℕ) : Parser Thrown (Entry × ℕ) := do
  let header ← StrictReader.array
  Parser.lift (failIf (header ≠ entryFields ∧ header ≠ legacyEntryHeader) (reject .malformed))
  Parser.lift (failIf (framing.any (· ≠ header)) (reject .malformed))
  let sequence ← StrictReader.uint
  Parser.lift (failIf (sequence > 0xffffffffffffffff) (reject .malformed))
  let tag ← StrictReader.uint
  Parser.lift (failIf (tag > 255) (reject .malformed))
  let payload ← StrictReader.bytestring
  let label ← StrictReader.text
  Parser.lift (failIf ((textBytes label).length > maxLabelBytes) (reject .labelTooLong))
  Parser.lift (failIf (!tags.contains tag) (reject .malformed))
  Parser.lift (failIf (tag = 3 ∧ payload.length ≠ 32) (reject .malformed))
  let signer ← StrictReader.bytestring
  let link ← StrictReader.bytestring
  let signature ← StrictReader.bytestring
  Parser.lift (failIf (signer.length ≠ 32 ∨ link.length ≠ 32) (reject .malformed))
  Parser.lift (failIf (signature.length ≠ signatureLen) (reject .malformed))
  pure ({ sequence, tag, payload, label, signer, link, signature }, header)

def decodeEntries : ℕ → Option ℕ → Parser Thrown (List Entry × Option ℕ)
  | 0, framing => pure ([], framing)
  | count + 1, framing => do
    let (entry, header) ← decodeEntry framing
    let (entries, framing) ← decodeEntries count (some header)
    pure (entry :: entries, framing)

/-- The entries and the framing seen, up to the end of the input. -/
def decodeLog : Parser Thrown (List Entry × Option ℕ) := do
  let count ← StrictReader.array
  Parser.lift (failIf (count > maxEntries) (reject .tooManyEntries))
  decodeEntries count none

/-- Decodes a log in either framing. Returns the entries and the framing header seen. -/
def decodeIdentity (bytes : Bytes) : Except Thrown (List Entry × ℕ) := do
  let ((entries, framing), rest) ← decodeLog bytes
  failIf (rest ≠ []) (reject .malformed)
  -- one history, one encoding; also refuses a non-empty label on a `Revoke`
  failIf (encodeIdentity entries (framing.getD entryFields) ≠ bytes) (reject .malformed)
  pure (entries, framing.getD entryFields)

/-- A length-prefixed field. -/
def field (bytes : Bytes) : Bytes := u64be bytes.length ++ bytes

def identitySignedBytes (previous : Bytes) (entry : Entry) : Bytes :=
  let fields := if entry.tag = 3 then field entry.payload
    else field entry.payload ++ field (textBytes entry.label)
  previous ++ u64be entry.sequence ++ [UInt8.ofNat entry.tag] ++ entry.signer ++ fields

/-- A device of the map: its raw key. -/
structure Device where
  key : Bytes
  label : Text
  enrolledAt : ℕ
deriving DecidableEq

/-- What a replay has produced: the two maps and the link of the last entry. -/
structure Replayed where
  devices : Std.ExtTreeMap Bytes Device := ∅
  revoked : Std.ExtTreeMap Bytes ℕ := ∅
  head : Bytes := zero32

section
variable (sha256 : Bytes → Hash) (S : Sign.Primitives)

def deviceId (verifyingKey : Bytes) : Bytes := (sha256 (deviceIdLabel ++ verifyingKey)).toList

def identityLink (signed signature : Bytes) : Bytes :=
  (sha256 (linkLabel ++ u64be signed.length ++ signed ++ u64be signature.length ++
    signature)).toList

/-- The payload as a key: only its length is checked. -/
def parseKey (entry : Entry) : Except Thrown Bytes := do
  failIf (entry.payload.length ≠ verifyingKeyLen) (reject .malformed)
  pure entry.payload

/-- The key that may have signed an entry. -/
def authorOf (recoveryKey : Bytes) (state : Replayed) (entry : Entry) (index : ℕ) :
    Except Thrown Bytes :=
  match entry.tag with
  | 1 => do
    failIf (index ≠ 0) (reject .badRoot)
    let key ← parseKey entry
    failIf (deviceId sha256 key ≠ entry.signer) (rejectAt .unauthorised index)
    pure key
  | 4 => do
    -- only the recovery key, which is not a device
    failIf (deviceId sha256 recoveryKey ≠ entry.signer) (rejectAt .unauthorised index)
    pure recoveryKey
  | _ => do
    let device ← okOr state.devices[entry.signer]? (rejectAt .unauthorised index)
    pure device.key

/-- The device an adding entry puts into the map. -/
def added (entry : Entry) (key : Bytes) (index : ℕ) : Device :=
  { key, label := entry.label, enrolledAt := index }

/-- The two maps after an authorised entry. -/
def update (state : Replayed) (entry : Entry) (index : ℕ) : Except Thrown Replayed :=
  match entry.tag with
  | 1 => do
    let key ← parseKey entry
    pure { state with
      devices := state.devices.insert (deviceId sha256 key) (added entry key index) }
  | 2 => do
    let key ← parseKey entry
    let id := deviceId sha256 key
    failIf (state.devices.contains id) (rejectAt .alreadyEnrolled index)
    pure { state with
      devices := state.devices.insert id (added entry key index)
      revoked := state.revoked.erase id }
  | 3 => do
    let id := entry.payload
    failIf (!state.devices.contains id) (rejectAt .notEnrolled index)
    failIf (state.devices.size = 1) (rejectAt .wouldOrphan index)
    pure { state with
      devices := state.devices.erase id
      revoked := state.revoked.insert id index }
  | 4 => do
    let key ← parseKey entry
    let id := deviceId sha256 key
    let revoked := state.devices.keys.foldl (fun revoked old => revoked.insert old index)
      state.revoked
    pure { state with
      devices := (∅ : Std.ExtTreeMap Bytes Device).insert id (added entry key index)
      revoked := revoked.erase id }
  | _ => pure state

/-- The body of the replay loop. -/
def replayEntry (recoveryKey : Bytes) (state : Replayed) (indexed : Entry × ℕ) :
    Except Thrown Replayed := do
  let (entry, index) := indexed
  failIf (entry.sequence ≠ index) (rejectAt .outOfOrder index)
  failIf (entry.tag ≠ 3 ∧ (textBytes entry.label).length > maxLabelBytes) (reject .labelTooLong)
  let signed := identitySignedBytes state.head entry
  failIf (identityLink sha256 signed entry.signature ≠ entry.link) (rejectAt .brokenLink index)
  failIf (entry.signature.length ≠ signatureLen) (rejectAt .badSignature index)
  let author ← authorOf sha256 recoveryKey state entry index
  let verified ← verifyHybrid S author entryContext signed entry.signature
  failIf (!verified) (rejectAt .badSignature index)
  let state ← update sha256 state entry index
  pure { state with head := entry.link }

/-- Replays a log; authority is decided at each entry's position. -/
def replayIdentity (entries : List Entry) (recoveryKey : Bytes) : Except Thrown Replayed :=
  match entries with
  | [] => .error (reject .empty)
  | first :: _ => do
    failIf (entries.length > maxEntries) (reject .tooManyEntries)
    failIf (first.tag ≠ 1) (reject .badRoot)
    entries.zipIdx.foldlM (replayEntry sha256 S recoveryKey) {}

end

/-! ## Signed checkpoints -/

def checkpointContext : Bytes := utf8 "HIDE/1.0 checkpoint"
def maxNoteBytes : ℕ := 196608
def dash : Text := ['—', ' ']
def u64Max : ℕ := 0xffffffffffffffff

/-- `Buffer.from(text, "base64")`. It never fails and leaves open what it makes of a text that is no
base64; what `toString("base64")` wrote it reads back. -/
structure Base64Reader where
  read : Text → Bytes
  read_encode : ∀ bytes, read (Base64.encode bytes) = bytes

/-- `Buffer.from(text, "ascii")`: the low byte of every code unit. -/
def ascii (text : Text) : Bytes := (text.flatMap utf16).map UInt8.ofNat

/-- `[\x21-\x2a\x2c-\x7e]`. -/
def isNameChar (c : Char) : Bool :=
  (0x21 ≤ c.toNat && c.toNat ≤ 0x2a) || (0x2c ≤ c.toNat && c.toNat ≤ 0x7e)

def validName (name : Text) : Bool :=
  0 < (name.flatMap utf16).length && (name.flatMap utf16).length ≤ 256 && name.all isNameChar

/-- `[\x00-\x09\x0b-\x1f\x7f]`. -/
def isRefused (c : Char) : Bool :=
  c.toNat ≤ 0x09 || (0x0b ≤ c.toNat && c.toNat ≤ 0x1f) || c.toNat = 0x7f

/-- `/^(0|[1-9][0-9]*)$/`. -/
def isDecimal : Text → Bool
  | [] => false
  | c :: cs => (c = '0' && cs.isEmpty) || (c ≠ '0' && c.isDigit && cs.all Char.isDigit)

structure NoteSignature where
  name : Text
  keyId : Bytes
  signature : Bytes
deriving DecidableEq

structure Checkpoint where
  origin : Text
  size : ℕ
  root : Bytes
deriving DecidableEq

section
variable (base64 : Base64Reader)

def parseLine (line : Text) : Except Thrown NoteSignature := do
  failIf (!dash.isPrefixOf line) (reject .malformed)
  let pieces := (line.drop dash.length).splitOn ' '
  failIf (pieces.length > 2 ∨ validName (pieces.getD 0 []) = false) (reject .malformed)
  -- `Buffer.from(undefined, "base64")` throws
  let encoded ← okOr pieces[1]? (.error "ERR_INVALID_ARG_TYPE")
  let raw := base64.read encoded
  failIf (raw.length < 5 ∨ Base64.encode raw ≠ encoded) (reject .malformed)
  pure { name := pieces.getD 0 [], keyId := raw.take 4, signature := raw.drop 4 }

/-- The three lines of the signed text. -/
def parseText (text : Text) : Except Thrown Checkpoint := do
  let lines := (text.splitOn '\n').dropLast
  failIf (lines.length > 3 ∨ validName (lines.getD 0 []) = false ∨
    isDecimal (lines.getD 1 []) = false) (reject .malformed)
  let size := Nat.ofDigitChars 10 (lines.getD 1 []) 0
  failIf (size > u64Max) (reject .malformed)
  let root := base64.read (lines.getD 2 [])
  failIf (root.length ≠ 32 ∨ some (Base64.encode root) ≠ lines[2]?) (reject .malformed)
  pure { origin := lines.getD 0 [], size, root }

/-- The note's text, its signature lines and what the text says. -/
def parseNote (bytes : Bytes) : Except Thrown (Text × List NoteSignature × Checkpoint) := do
  failIf (bytes.length > maxNoteBytes) (reject .malformed)
  let note ← okOr (decodeText bytes) (reject .malformed)
  failIf (note.any isRefused ∨ note.getLast? ≠ some '\n') (reject .malformed)
  let (text, block) ← okOr (splitLastDouble '\n' note) (reject .malformed)
  let lines := (block.splitOn '\n').dropLast
  failIf (lines.length = 0 ∨ lines.length > 32) (reject .malformed)
  let signatures ← lines.mapM (parseLine base64)
  let checkpoint ← parseText base64 text
  pure (text, signatures, checkpoint)

end

section
variable (sha256 : Bytes → Hash) (S : Sign.Primitives)

def noteKeyId (name : Text) (verifyingKey : Bytes) : Bytes :=
  (sha256 (ascii name ++ [0x0a, 0xff] ++ utf8 "HIDE/1.0 hide-sign" ++ verifyingKey)).toList.take 4

/-- Whether a key signed under a name. A matching line that does not verify is thrown. -/
def signedBy (text : Text) (signatures : List NoteSignature) (name : Text) (key : Bytes) :
    Except Thrown Bool :=
  let id := noteKeyId sha256 name key
  (signatures.filter fun s => s.name = name ∧ s.keyId = id).foldlM (fun _ line => do
    let verified ← verifyHybrid S key checkpointContext (ascii text) line.signature
    failIf (!verified) (reject .badSignature)
    pure true) false

/-- The loop over the witnesses, with the names counted so far. -/
def countWitnesses (text : Text) (signatures : List NoteSignature) (counted : List Text)
    (cosigned : ℕ) : List (Text × Bytes) → Except Thrown ℕ
  | [] => pure cosigned
  | (name, key) :: witnesses => do
    if counted.contains name then countWitnesses text signatures counted cosigned witnesses
    else
      let signed ← signedBy sha256 S text signatures name key
      if signed then
        countWitnesses text signatures (counted ++ [name]) (cosigned + 1) witnesses
      else countWitnesses text signatures counted cosigned witnesses

def verifyCheckpointNote (base64 : Base64Reader) (bytes : Bytes) (origin : Text) (logKey : Bytes)
    (witnesses : List (Text × Bytes)) (threshold : ℕ) : Except Thrown Checkpoint := do
  let (text, signatures, checkpoint) ← parseNote base64 bytes
  failIf (checkpoint.origin ≠ origin) (reject .wrongOrigin)
  let signed ← signedBy sha256 S text signatures origin logKey
  failIf (!signed) (reject .unsigned)
  let cosigned ← countWitnesses sha256 S text signatures [origin] 0 witnesses
  failIf (cosigned < threshold) (reject .unsigned)
  pure checkpoint

end

end HideProtocol.Conformance.Subsystems
