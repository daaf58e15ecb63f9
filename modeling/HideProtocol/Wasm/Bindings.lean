import HideProtocol.Crypto.PublicKeys
import HideProtocol.Keyring.KeyFile
import HideProtocol.Lib.Chunks
import HideProtocol.Object.Container
import HideProtocol.Sign.ChallengeCodec

/-!
# The WebAssembly bindings

What a page calls. Arguments arrive as slices and strings of JavaScript, each function checks
the length of what it is given against a limit of its own, and a failure is thrown as a text.
-/

namespace HideProtocol.Wasm

open Lib Crypto Keyring Sign

/-- Messages are held in memory. -/
def maxInput : ℕ := 64 * 1024 * 1024

/-- A challenge is a nonce, a short audience and two timestamps. -/
def maxChallenge : ℕ := 4096

/-- What is thrown; an error of the core stands for its text. -/
inductive JsError where
  | message (text : String)
  | keyring (error : KeyringError)
  | sign (error : SignError)
  | crypto (error : CryptoError)
  | object (error : Object.ObjectError)
deriving DecidableEq

/-! ## Keys -/

section
variable (K : Keyring.Primitives)

/-- `SecretKey::load`. -/
def SecretKey.load (data : Bytes) (passphrase : Option String) :
    Except JsError RecipientSecret := do
  failIf (data.length > 4096) (.message "that file is too large to be a HIDE key")
  mapErr .keyring (Keyring.«open» K data passphrase)

/-- `SigningIdentity::load`. A file written before signatures existed carries no signing seed and
is refused. -/
def SigningIdentity.load (data : Bytes) (passphrase : Option String) :
    Except JsError Sign.SigningIdentity := do
  failIf (data.length > 4096) (.message "that file is too large to be a HIDE key")
  let seed ← match inspect data with
    | .raw => do
      failIf (data.length ≠ seedLen) (.message "that file is not a HIDE key")
      -- cannot fail after the length check
      okOr (tryInto seedLen data) (.message "that file is not a HIDE key")
    | .protected => do
      let passphrase ← okOr passphrase (.message "that key file needs its passphrase")
      let (seed, purpose) ← mapErr .keyring (unprotectSeed K data passphrase)
      failIf (purpose ≠ .identity) (.message ("that key predates signatures and holds no " ++
        "signing key; create a new identity"))
      pure seed
  let signing := (Identity.mk seed).signingSeed K
  mapErr .sign (Sign.SigningIdentity.fromBytes signing.toList)

end

/-! ## Containers -/

def parseRecipients (accepts : Vector UInt8 publicKeyLength → Bool) (recipients : Bytes) :
    Except JsError (List RecipientPublic) := do
  failIf (recipients = [] ∨ recipients.length % publicKeyLength ≠ 0)
    (.message "recipients must be whole public keys")
  let count := recipients.length / publicKeyLength
  failIf (count > 64) (.message "there must be between 1 and 64 recipients")
  (chunksExact publicKeyLength recipients).mapM fun chunk =>
    mapErr .crypto (RecipientPublic.fromBytes accepts chunk)

section
variable (P : Crypto.Primitives) (S : Sign.Primitives)

/-- Encrypts for the recipients whose public keys are passed behind each other. -/
def encrypt (accepts : Vector UInt8 publicKeyLength → Bool) (plaintext recipients : Bytes)
    (filename mediaType : Option String) (material : Object.ObjectMaterial) (seeds : ℕ → Key) :
    Except JsError Bytes := do
  failIf (plaintext.length > maxInput)
    (.message "that payload is too large for the browser build")
  let keys ← parseRecipients accepts recipients
  let run := Object.encrypt P S (Reader.ofBytes plaintext) (Object.withSeeds seeds keys)
    { filename, mediaType } material
  let _ ← mapErr .object run.result
  pure run.output

/-- A verified payload. -/
structure Decrypted where
  data : Bytes
  filename : Option String
  mediaType : Option String
deriving DecidableEq

def decrypt (container : Bytes) (secret : RecipientSecret) : Except JsError Decrypted := do
  failIf (container.length > maxInput)
    (.message "that container is too large for the browser build")
  let read := Object.decryptToStaging P S container secret
  let verified ← mapErr .object read.result
  pure { data := read.staging, filename := verified.metadata.filename
         mediaType := verified.metadata.mediaType }

/-! ## Challenges -/

def decodeChallenge (bytes : Bytes) : Except JsError Challenge := do
  failIf (bytes.length > maxChallenge) (.message "that is too large to be a HIDE challenge")
  mapErr .sign (Challenge.decode bytes)

def newChallenge (nonce : Option (Vector UInt8 nonceLength)) (audience : String)
    (now validFor : UInt64) : Except JsError Bytes := do
  let challenge ← mapErr .sign (Challenge.new nonce audience now validFor)
  pure challenge.encode

/-- `SigningIdentity::answer`. -/
def answer (identity : Sign.SigningIdentity) (challenge : Bytes) : Except JsError Bytes := do
  let challenge ← decodeChallenge challenge
  pure (challenge.answer S identity).toList

def challengeMessage : ChallengeError → String
  | .notSigned => "signature verification failed"
  | .expired => "expired"
  | .replayed => "replayed"

/-- `SpentNonces::accept`. Returns the verdict and the record it leaves. -/
def accept (spent : SpentNonces) (challenge signature publicKey : Bytes) (now : UInt64) :
    Except JsError Unit × SpentNonces :=
  let read := do
    let challenge ← decodeChallenge challenge
    let prover ← mapErr .sign (VerifyingIdentity.fromBytes S publicKey)
    pure (challenge, prover)
  match read with
  | .error error => (.error error, spent)
  | .ok (challenge, prover) =>
    let (verdict, spent) := spent.accept challenge signature prover now
    (mapErr (fun failure => .message (challengeMessage failure)) verdict, spent)

end

end HideProtocol.Wasm
