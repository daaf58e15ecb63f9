import HideProtocol.Lib.Base64
import HideProtocol.Sign.Hybrid
import HideProtocol.Transparency.Tree

/-!
# Signed checkpoints

A checkpoint in the `signed-note` text form: three lines naming the log, its size and its
root, a blank line, and one line per signature. The log signs first; witnesses add lines of
their own over the same text. A reader may demand a number of witnesses.
-/

namespace HideProtocol.Transparency

open Lib

def checkpointContext : Bytes := utf8 "HIDE/1.0 checkpoint"

/-- The signed-note escape for types without an assigned byte, and the type. -/
def signatureType : Bytes := 0xff :: utf8 "HIDE/1.0 hide-sign"

def maxOriginBytes : ℕ := 256

def maxSignatures : ℕ := 32

def maxNoteBytes : ℕ := 196608

def dash : Text := ['—', ' ']

/-- The first four bytes of a digest. -/
abbrev KeyId := Vector UInt8 4

/-- One signature line: who, which key, and the raw signature bytes. -/
structure NoteSignature where
  name : Text
  keyId : KeyId
  signature : Bytes
deriving DecidableEq

/-- A parsed note: the signed text and every signature line, known or not. -/
structure SignedNote where
  text : Text
  signatures : List NoteSignature
deriving DecidableEq

/-- The tree head a log publishes. -/
structure Checkpoint where
  origin : Text
  size : UInt64
  root : Hash
deriving DecidableEq

def validName (name : Text) : Bool :=
  decide (name ≠ [] ∧ (textBytes name).length ≤ maxOriginBytes ∧
    (textBytes name).all fun b => (0x21 ≤ b.toNat && b.toNat ≤ 0x7e) && b.toNat ≠ '+'.toNat)

/-! ## Notes as text -/

namespace SignedNote

def encodeLine (signature : NoteSignature) : Text :=
  dash ++ signature.name ++ ' ' :: Base64.encode (signature.keyId.toList ++ signature.signature)

def encode (note : SignedNote) : Text :=
  note.text ++ '\n' :: note.signatures.flatMap fun signature => encodeLine signature ++ ['\n']

def decodeLine (line : Text) : Except LogError NoteSignature := do
  let rest ← okOr (line.dropPrefix? dash) .malformed
  let (name, encoded) ← okOr (splitOnce ' ' rest) .malformed
  failIf (validName name = false) .malformed
  let raw ← okOr (Base64.decode encoded) .malformed
  failIf (raw.length < 5) .malformed
  pure {
    name
    keyId := #v[raw.getD 0 0, raw.getD 1 0, raw.getD 2 0, raw.getD 3 0]
    signature := raw.drop 4 }

/-- The loop over the lines, with `count` signatures before them. -/
def decodeLines (count : ℕ) : List Text → Except LogError (List NoteSignature)
  | [] => pure []
  | line :: lines => do
    failIf (count = maxSignatures) .malformed
    let signature ← decodeLine line
    let signatures ← decodeLines (count + 1) lines
    pure (signature :: signatures)

/-- Parses the note structure. Signatures are not verified here. -/
def decode (bytes : Bytes) : Except LogError SignedNote := do
  failIf (bytes.length > maxNoteBytes) .malformed
  let note ← okOr (textFromUtf8 bytes) .malformed
  failIf ((note.any fun c => isControl c && c ≠ '\n') ∨ note.getLast? ≠ some '\n') .malformed
  -- the text ends at the last blank line and keeps its final newline
  let (text, block) ← okOr (splitLastDouble '\n' note) .malformed
  let signatures ← decodeLines 0 (splitTerminator '\n' block)
  failIf (signatures = []) .malformed
  let parsed := { text, signatures }
  -- one note, one encoding
  failIf (textBytes (encode parsed) ≠ bytes) .malformed
  pure parsed

end SignedNote

namespace Checkpoint

/-- The note text: exactly three lines. -/
def text (checkpoint : Checkpoint) : Except LogError Text := do
  failIf (validName checkpoint.origin = false) .malformed
  pure (checkpoint.origin ++ '\n' :: (formatU64 checkpoint.size ++ '\n' ::
    (Base64.encode checkpoint.root.toList ++ ['\n'])))

def parseText (text : Text) : Except LogError Checkpoint :=
  match splitTerminator '\n' text with
  | [origin, size, root] => do
    failIf (validName origin = false) .malformed
    let size ← okOr (parseU64 size) .malformed
    let root ← okOr (Base64.decode root) .malformed
    let root ← okOr (tryInto 32 root) .malformed
    let checkpoint : Checkpoint := { origin, size, root }
    -- refuses "+5" and "05"
    let canonical ← checkpoint.text
    failIf (canonical ≠ text) .malformed
    pure checkpoint
  | _ => .error .malformed

end Checkpoint

section
variable (sha256 : Bytes → Hash) {S : Sign.Primitives}

/-! ## Signing and verifying -/

/-- Binds a key to the name it signs under. -/
def keyId (name : Text) (key : Sign.VerifyingIdentity S) : KeyId :=
  let digest := sha256 (textBytes name ++ [0x0a] ++ signatureType ++ key.toBytes.toList)
  #v[digest[0], digest[1], digest[2], digest[3]]

/-- Whether `key`, named `name`, signed a note. A matching line whose signature fails is an
error, never a skip. -/
def SignedNote.signedBy (note : SignedNote) (name : Text) (key : Sign.VerifyingIdentity S) :
    Except LogError Bool :=
  let id := keyId sha256 name key
  (note.signatures.filter fun s => s.name = name ∧ s.keyId = id).foldlM (fun _ line => do
    failIf (line.signature.length ≠ Sign.signatureLength ∨
      key.verify checkpointContext (textBytes note.text) line.signature ≠ .ok ()) .badSignature
    pure true) false

namespace Checkpoint

variable (S) in
/-- Signs as the log. The key name is the origin. -/
def sign (checkpoint : Checkpoint) (log : Sign.SigningIdentity) : Except LogError SignedNote := do
  let text ← checkpoint.text
  pure {
    text
    signatures := [{
      name := checkpoint.origin
      keyId := keyId sha256 checkpoint.origin (log.verifyingKey S)
      signature := (log.sign S checkpointContext (textBytes text)).toList }] }

variable (S) in
/-- Adds a witness cosignature. -/
def cosign (note : SignedNote) (name : Text) (witness : Sign.SigningIdentity) :
    Except LogError SignedNote := do
  failIf (validName name = false ∨ note.signatures.length ≥ maxSignatures) .malformed
  pure { note with
    signatures := note.signatures ++ [{
      name
      keyId := keyId sha256 name (witness.verifyingKey S)
      signature := (witness.sign S checkpointContext (textBytes note.text)).toList }] }

/-- The loop over the witnesses. A witness that shares its name or its key id with one already
counted, or with the log, is passed over. -/
def countWitnesses (note : SignedNote) (counted : List (Text × KeyId)) (cosigned : ℕ) :
    List (Text × Sign.VerifyingIdentity S) → Except LogError ℕ
  | [] => pure cosigned
  | (name, key) :: witnesses => do
    let id := keyId sha256 name key
    if ∃ entry ∈ counted, entry.1 = name ∨ entry.2 = id then
      countWitnesses note counted cosigned witnesses
    else
      let signed ← note.signedBy sha256 name key
      if signed then countWitnesses note (counted ++ [(name, id)]) (cosigned + 1) witnesses
      else countWitnesses note counted cosigned witnesses

/-- Parses and verifies a note from the log at `origin`, with at least `threshold` of
`witnesses` having cosigned. -/
def verifyWitnessed (note : Bytes) (origin : Text) (log : Sign.VerifyingIdentity S)
    (witnesses : List (Text × Sign.VerifyingIdentity S)) (threshold : ℕ) :
    Except LogError Checkpoint := do
  let parsed ← SignedNote.decode note
  let checkpoint ← parseText parsed.text
  failIf (checkpoint.origin ≠ origin) (.wrongOrigin (String.ofList checkpoint.origin))
  let signed ← parsed.signedBy sha256 origin log
  failIf (!signed) .unsigned
  let cosigned ← countWitnesses sha256 parsed [(origin, keyId sha256 origin log)] 0 witnesses
  failIf (cosigned < threshold) .unsigned
  pure checkpoint

def verify (note : Bytes) (origin : Text) (log : Sign.VerifyingIdentity S) :
    Except LogError Checkpoint :=
  verifyWitnessed sha256 note origin log [] 0

end Checkpoint

end

end HideProtocol.Transparency
