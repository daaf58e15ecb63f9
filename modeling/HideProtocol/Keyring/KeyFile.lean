import HideProtocol.Crypto.Suite

/-!
# Key files

A key file is a 32-byte seed, bare or sealed: Argon2id stretches a passphrase into a wrapping key
and ChaCha20-Poly1305 seals the seed under it, with the header as associated data. The header of
version 2 says what the seed is for; version 1 only ever held encryption keys.

Argon2id, HKDF-Expand, the AEAD and Unicode normalization are third-party code and stay abstract.
Salts and nonces are drawn at random, and are arguments here.
-/

namespace HideProtocol.Keyring

open Lib Crypto

def magic : Bytes := utf8 "HIDE-KEY"
def formatVersion : UInt8 := 2
def legacyVersion : UInt8 := 1
abbrev saltLen : ℕ := 16
abbrev nonceLen : ℕ := 12
abbrev seedLen : ℕ := 32
def tagLen : ℕ := 16
def legacyHeaderLen : ℕ := 8 + 1 + 1 + 4 + 4 + saltLen + nonceLen
def headerLen : ℕ := legacyHeaderLen + 1
def sealedLen : ℕ := headerLen + seedLen + tagLen
def legacySealedLen : ℕ := legacyHeaderLen + seedLen + tagLen

def memoryKib : UInt32 := 19 * 1024
def iterations : UInt32 := 2
def parallelism : UInt8 := 1

def maxMemoryKib : UInt32 := 256 * 1024
def maxIterations : UInt32 := 64
def maxParallelism : ℕ := 4
def minMemoryKib : UInt32 := 8 * 1024
def minIterations : UInt32 := 1

def minPassphraseLen : ℕ := 8

/-- The third-party functions. `argon2id` covers building its parameters and fails where the
crate refuses them. -/
structure Primitives where
  nfc : String → String
  nfd : String → String
  argon2id : (passphrase salt : Bytes) → (memory iterations parallelism : ℕ) → Option Key
  hkdfExpand : Key → Bytes → Key
  crypto : Crypto.Primitives

/-- What a sealed seed is for. -/
inductive KeyPurpose where
  | identity
  | encryption
deriving DecidableEq, Repr

def KeyPurpose.tag : KeyPurpose → UInt8
  | identity => 1
  | encryption => 2

def KeyPurpose.fromTag (tag : UInt8) : Option KeyPurpose :=
  if tag = 1 then some identity else if tag = 2 then some encryption else none

def KeyPurpose.display : KeyPurpose → String
  | identity => "HIDE identity"
  | encryption => "encryption-only"

inductive KeyringError where
  | notAKeyFile
  | notAnEpochStore
  | tooManyEntries (count : ℕ)
  | unsupportedVersion (version : UInt8)
  | malformed
  | unreasonableParameters
  | wrongPassphrase
  | passphraseTooShort (length : ℕ)
  | wrongPurpose (expected found : KeyPurpose)
  | crypto (error : CryptoError)
  /-- `Crypto` with a text of its own. -/
  | cryptoText (text : String)
deriving DecidableEq, Repr

/-- The text of an error, piece by piece; `cause` is the text of an error of another library. -/
def KeyringError.pieces (cause : String) : KeyringError → List String
  | notAKeyFile => ["not a HIDE key file"]
  | notAnEpochStore => ["not a HIDE epoch store"]
  | tooManyEntries count => ["epoch store holds more than ", toString count, " entries"]
  | unsupportedVersion version => ["unsupported key file version ", toString version]
  | malformed => ["key file is malformed"]
  | unreasonableParameters => ["key file requests unreasonable Argon2 parameters"]
  | wrongPassphrase => ["incorrect passphrase, or the key file has been modified"]
  | passphraseTooShort length => ["passphrase must be at least ", toString length, " characters"]
  | wrongPurpose expected found =>
    ["this is a ", found.display, " key, but a ", expected.display, " key is required"]
  | crypto error => ["cryptographic operation failed: ", error.display cause]
  | cryptoText text => ["cryptographic operation failed: ", text]

def KeyringError.display (cause : String) (error : KeyringError) : String :=
  String.join (error.pieces cause)

/-! ## Argon2 parameters -/

/-- The parameters as a header stores them. -/
structure Argon2Params where
  parallelism : UInt8
  memory : UInt32
  iterations : UInt32
deriving DecidableEq, Repr

namespace Argon2Params

def paramsLen : ℕ := 9

/-- What every writer emits. -/
def writer : Argon2Params :=
  { parallelism := Keyring.parallelism, memory := memoryKib, iterations := Keyring.iterations }

def encode (self : Argon2Params) : Bytes :=
  self.parallelism :: (beBytes 4 self.memory.toNat ++ beBytes 4 self.iterations.toNat)

/-- Reads and bounds-checks the parameters. -/
def parse (bytes : Bytes) : Except KeyringError Argon2Params := do
  let bytes ← okOr (tryInto paramsLen bytes) .malformed
  let parallelism := bytes.toList.getD 0 0
  let memory := UInt32.ofNat (ofBe ((bytes.toList.drop 1).take 4))
  let iterations := UInt32.ofNat (ofBe ((bytes.toList.drop 5).take 4))
  let lanes := parallelism.toNat
  failIf (lanes = 0 ∨ lanes > maxParallelism ∨
    ¬(minMemoryKib ≤ memory ∧ memory ≤ maxMemoryKib) ∨
    ¬(minIterations ≤ iterations ∧ iterations ≤ maxIterations) ∨
    memory.toNat / 8 < lanes) .unreasonableParameters
  pure { parallelism, memory, iterations }

def derive (K : Primitives) (self : Argon2Params) (passphrase : String) (salt : Bytes) :
    Except KeyringError Key :=
  okOr (K.argon2id (utf8 passphrase) salt self.memory.toNat self.iterations.toNat
    self.parallelism.toNat) .unreasonableParameters

end Argon2Params

section
variable (K : Primitives)

/-! ## Passphrases -/

/-- The passphrase exactly as a writer feeds it to Argon2. -/
def normalizePassphrase (passphrase : String) : String := K.nfc passphrase

/-- Every spelling a reader tries, in order, without duplicates. -/
def passphraseCandidates (passphrase : String) : List String :=
  [normalizePassphrase K passphrase, passphrase, K.nfd passphrase].foldl
    (fun out candidate => if candidate ∈ out then out else out ++ [candidate]) []

/-! ## Sealing -/

/-- The header of a version 2 file. -/
def sealHeader (salt : Vector UInt8 saltLen) (nonce : Nonce) (purpose : KeyPurpose) : Bytes :=
  magic ++ [formatVersion] ++ Argon2Params.writer.encode ++ salt.toList ++ nonce.toList ++
    [purpose.tag]

def protectSeed (seed : Bytes) (passphrase : String) (purpose : KeyPurpose)
    (salt : Vector UInt8 saltLen) (nonce : Nonce) : Except KeyringError Bytes := do
  let passphrase := normalizePassphrase K passphrase
  failIf (passphrase.length < minPassphraseLen) (.passphraseTooShort minPassphraseLen)
  failIf (seed.length ≠ seedLen) .malformed
  let header := sealHeader salt nonce purpose
  let wrapping ← Argon2Params.writer.derive K passphrase salt.toList
  let sealed ← okOr (K.crypto.aeadSeal wrapping nonce header seed) (.crypto .authentication)
  pure (header ++ sealed)

/-- Seals `secret` as an encryption-only key. -/
def protect (secret : RecipientSecret) (passphrase : String) (salt : Vector UInt8 saltLen)
    (nonce : Nonce) : Except KeyringError Bytes :=
  protectSeed K secret.seed.toList passphrase .encryption salt nonce

/-- Seals a master identity seed, from which both keys derive. -/
def protectIdentity (seed : Key) (passphrase : String) (salt : Vector UInt8 saltLen)
    (nonce : Nonce) : Except KeyringError Bytes :=
  protectSeed K seed.toList passphrase .identity salt nonce

/-! ## Identities -/

/-- A master seed, and the two independent keys derived from it. -/
structure Identity where
  seed : Key
deriving DecidableEq

def encryptionInfo : Bytes := utf8 "HIDE/0.5 identity encryption"
def signingInfo : Bytes := utf8 "HIDE/0.5 identity signing"

namespace Identity

def derive (self : Identity) (info : Bytes) : Key := K.hkdfExpand self.seed info

/-- A derived seed has the right length for a key. -/
def recipientSecret (self : Identity) : RecipientSecret := ⟨self.derive K encryptionInfo⟩

def signingSeed (self : Identity) : Key := self.derive K signingInfo

end Identity

/-! ## Opening -/

/-- Whether a stored key needs a passphrase. -/
inductive KeyFormat where
  | «protected»
  | raw
deriving DecidableEq, Repr

def inspect (bytes : Bytes) : KeyFormat :=
  if magic.isPrefixOf bytes then .protected else .raw

/-- The loop over the spellings of a passphrase. -/
def tryCandidates (params : Argon2Params) (salt : Bytes) (nonce : Nonce) (header sealed : Bytes) :
    List String → Except KeyringError Key
  | [] => .error .wrongPassphrase
  | candidate :: candidates => do
    let wrapping ← params.derive K candidate salt
    match K.crypto.aeadOpen wrapping nonce header sealed with
    -- a 48-byte ciphertext opens to 32 bytes
    | some seed => okOr (tryInto seedLen seed) .malformed
    | none => tryCandidates params salt nonce header sealed candidates

/-- The header length and the file length of a version. -/
def versionLens (version : UInt8) : Except KeyringError (ℕ × ℕ) :=
  if version = formatVersion then .ok (headerLen, sealedLen)
  else if version = legacyVersion then .ok (legacyHeaderLen, legacySealedLen)
  else .error (.unsupportedVersion version)

/-- The purpose a file's header states; a version 1 file has no purpose byte. -/
def purposeOf (bytes : Bytes) (version : UInt8) : Except KeyringError KeyPurpose :=
  if version = legacyVersion then .ok .encryption
  else okOr (KeyPurpose.fromTag (bytes.getD legacyHeaderLen 0)) .malformed

/-- Opens a sealed seed and reports what it is for. -/
def unprotectSeed (bytes : Bytes) (passphrase : String) :
    Except KeyringError (Key × KeyPurpose) := do
  failIf (!magic.isPrefixOf bytes) .notAKeyFile
  let version ← okOr bytes[8]? .malformed
  let lens ← versionLens version
  failIf (bytes.length ≠ lens.2) .malformed
  let params ← Argon2Params.parse ((bytes.drop 9).take Argon2Params.paramsLen)
  let purpose ← purposeOf bytes version
  let salt := (bytes.drop 18).take saltLen
  let nonce ← okOr (tryInto nonceLen ((bytes.drop (18 + saltLen)).take nonceLen)) .malformed
  let seed ← tryCandidates K params salt nonce (bytes.take lens.1) (bytes.drop lens.1)
    (passphraseCandidates K passphrase)
  pure (seed, purpose)

/-- Opens an encryption-only key. -/
def unprotect (bytes : Bytes) (passphrase : String) : Except KeyringError RecipientSecret := do
  let (seed, purpose) ← unprotectSeed K bytes passphrase
  failIf (purpose ≠ .encryption) (.wrongPurpose .encryption purpose)
  pure ⟨seed⟩

/-- Opens a key file and returns the encryption key, whatever shape the file is. -/
def «open» (bytes : Bytes) (passphrase : Option String) : Except KeyringError RecipientSecret :=
  match inspect bytes with
  | .raw => do
    failIf (bytes.length ≠ seedLen) .malformed
    -- cannot fail after the length check
    let seed ← okOr (tryInto seedLen bytes) .malformed
    pure ((Identity.mk seed).recipientSecret K)
  | .protected => do
    let passphrase ← okOr passphrase .wrongPassphrase
    let (seed, purpose) ← unprotectSeed K bytes passphrase
    match purpose with
    | .identity => pure ((Identity.mk seed).recipientSecret K)
    | .encryption => pure ⟨seed⟩

end

end HideProtocol.Keyring
