import HideProtocol.Crypto.Suite
import HideProtocol.Format.Preamble
import HideProtocol.Lib.Reader

/-!
# The payload record stream

A payload is cut into 65536-byte chunks, each sealed in a record of its own: a kind byte, the
ciphertext length and the ciphertext. Every record but the last is `DATA` and full, the last is
`FINAL`. The counter and the kind go into the nonce, and the object, the header hash, the
counter, the kind and the length into the associated data.

Writers are byte strings that only grow, and the encrypted input is one that is read to its
end; the plaintext input is any `Reader`. The model of the writer keeps, beside its output, the
list of calls it made to the AEAD.
-/

namespace HideProtocol.Object

open Lib Format Crypto

def data : UInt8 := 1
def final : UInt8 := 2

def maxChunks : ℕ := 1 <<< 32
def maxSignedInput : ℕ := 1 <<< 30
def recordLen : ℕ := chunkLen + tagLen

inductive ObjectError where
  | format (error : FormatError)
  | crypto (error : CryptoError)
  | io (error : IoError)
  /-- `UnexpectedEof`, from a `read_exact` outside the payload. -/
  | unexpectedEof
  | noMatchingRecipient
  | truncatedPayload
  | invalidRecord
  | trailingData
  | objectTooLarge
  | invalidRecipients
  | invalidSignature
  | unexpectedSignature
  | missingSignature
deriving DecidableEq, Repr

/-- The text of an error, piece by piece; `cause` is the text of an error of another library. -/
def ObjectError.pieces (cause : String) : ObjectError → List String
  | format error => [error.display]
  | crypto error => error.pieces cause
  | io _ | unexpectedEof => ["I/O operation failed: ", cause]
  | noMatchingRecipient => ["no matching recipient or invalid header authentication"]
  | truncatedPayload => ["truncated payload"]
  | invalidRecord => ["invalid payload record"]
  | trailingData => ["unexpected bytes after final record"]
  | objectTooLarge => ["object exceeds the chunk limit"]
  | invalidRecipients => ["recipient count must be between 1 and 64"]
  | invalidSignature => ["signature does not verify"]
  | unexpectedSignature => ["container is signed but the reader was not asked to verify"]
  | missingSignature => ["container is not signed"]

def ObjectError.display (cause : String) (error : ObjectError) : String :=
  String.join (error.pieces cause)

/-! ## Nonces and associated data -/

/-- Three zero bytes, the counter, and whether this is the last record. -/
def nonce (counter : ℕ) (kind : UInt8) : Nonce :=
  ⟨([0, 0, 0] ++ beBytes 8 counter ++ [if kind = final then 1 else 0]).toArray, by simp⟩

def chunkAad (objectId headerHash : Key) (counter : ℕ) (kind : UInt8) (length : ℕ) : Bytes :=
  utf8 "HIDE/0.1 chunk" ++ objectId.toList ++ headerHash.toList ++ beBytes 8 counter ++ [kind] ++
    beBytes 4 length

/-- A record as it is written. -/
def encodeRecord (kind : UInt8) (ciphertext : Bytes) : Bytes :=
  kind :: beBytes 4 ciphertext.length ++ ciphertext

section
variable (P : Crypto.Primitives) (key objectId headerHash : Key)

/-! ## Writing -/

/-- A call to the AEAD, with its answer. -/
structure SealCall where
  nonce : Nonce
  aad : Bytes
  plaintext : Bytes
  ciphertext : Bytes
deriving DecidableEq

/-- What a run of `encryptRecords` did. -/
structure Encryption where
  output : Bytes := []
  seals : List SealCall := []
  result : Except ObjectError ℕ

/-- `read_chunk` on a buffer of `chunkLen`. -/
def readChunk (input : Reader) : Except IoError Bytes × Reader := input.readUpTo chunkLen

/-- The loop of `encryptRecords`: `current` is the chunk to seal, and the look-ahead decides
whether it is the last. -/
def encryptLoop (current : Bytes) (input : Reader) (counter total : ℕ) : Encryption :=
  if _h : counter ≥ maxChunks then { result := .error .objectTooLarge }
  else
    match readChunk input with
    | (.error error, _) => { result := .error (.io error) }
    | (.ok next, input) =>
      let kind := if next.length = 0 then final else data
      let aad := chunkAad objectId headerHash counter kind current.length
      match sealInPlace P key (nonce counter kind) aad recordLen current with
      | .error error => { result := .error (.crypto error) }
      | .ok ciphertext =>
        let call : SealCall :=
          { nonce := nonce counter kind, aad, plaintext := current, ciphertext }
        if kind = final then
          { output := encodeRecord kind ciphertext, seals := [call]
            result := .ok (total + current.length) }
        else
          let rest := encryptLoop next input (counter + 1) (total + current.length)
          { output := encodeRecord kind ciphertext ++ rest.output
            seals := call :: rest.seals
            result := rest.result }
termination_by maxChunks - counter

def encryptRecords (input : Reader) : Encryption :=
  match readChunk input with
  | (.error error, _) => { result := .error (.io error) }
  | (.ok current, input) => encryptLoop P key objectId headerHash current input 0 0

/-! ## Reading -/

/-- What a run of `decryptRecords` did. -/
structure Decryption where
  staging : Bytes := []
  result : Except ObjectError ℕ

/-- `read_exact` within the payload. -/
def readPayload (n : ℕ) (input : Bytes) : Except ObjectError (Bytes × Bytes) :=
  if input.length < n then .error .truncatedPayload else .ok (input.take n, input.drop n)

def recordLength (kind : UInt8) (ciphertextLen counter : ℕ) : Except ObjectError ℕ := do
  failIf (¬(tagLen ≤ ciphertextLen ∧ ciphertextLen ≤ chunkLen + tagLen)) .invalidRecord
  let length := ciphertextLen - tagLen
  if kind = data ∧ length = chunkLen then pure length
  else if kind = final ∧ (length > 0 ∨ counter = 0) then pure length
  else .error .invalidRecord

/-- A record that has been read, and the input after it. -/
structure RecordRead where
  kind : UInt8
  length : ℕ
  ciphertext : Bytes
  rest : Bytes

/-- Reads one record, up to the decryption of its ciphertext. -/
def readRecord (counter : ℕ) (input : Bytes) : Except ObjectError RecordRead := do
  let (record, input) ← readPayload 5 input
  let kind := record.headD 0
  let ciphertextLen := ofBe record.tail
  let length ← recordLength kind ciphertextLen counter
  let (ciphertext, rest) ← readPayload ciphertextLen input
  pure { kind, length, ciphertext, rest }

/-- The loop of `decryptRecords`. The last chunk is written only once the input is known to end
after it. -/
def decryptLoop (input : Bytes) (counter total : ℕ) : Decryption :=
  if _h : counter < maxChunks then
    match readRecord counter input with
    | .error error => { result := .error error }
    | .ok record =>
      let aad := chunkAad objectId headerHash counter record.kind record.length
      match openInPlace P key (nonce counter record.kind) aad record.ciphertext with
      | .error error => { result := .error (.crypto error) }
      | .ok opened =>
        if record.kind = final then
          if record.rest ≠ [] then { result := .error .trailingData }
          else { staging := opened, result := .ok (total + opened.length) }
        else
          let next := decryptLoop record.rest (counter + 1) (total + opened.length)
          { staging := opened ++ next.staging, result := next.result }
  else { result := .error .objectTooLarge }
termination_by maxChunks - counter

def decryptRecords (input : Bytes) : Decryption := decryptLoop P key objectId headerHash input 0 0

end

end HideProtocol.Object
