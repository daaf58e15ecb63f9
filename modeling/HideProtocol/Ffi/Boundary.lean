import HideProtocol.Crypto.PublicKeys
import HideProtocol.Epoch.Codec
import HideProtocol.Keyring.KeyFile
import HideProtocol.Lib.Chunks
import HideProtocol.Lib.Text
import HideProtocol.Lib.Usize
import HideProtocol.Object.Container
import HideProtocol.Sign.ChallengeCodec

/-!
# The C boundary

Every binding calls the library through C functions. What a function is given crosses the
boundary as pointers and lengths; each length is checked against a limit of its own before the
memory is read, and a result is a status code with the values written through out pointers.

An out pointer here is never null, so a function returns what it writes or a code that is not
`HIDE_OK`. Handles are the values they point to.
-/

namespace HideProtocol.Ffi

open Lib Crypto Keyring Sign

/-- The status codes other than `HIDE_OK`. -/
inductive ErrorCode where
  | invalidArgument
  | wrongPassphrase
  | notAKey
  | authentication
  | noMatchingRecipient
  | malformed
  | tooLarge
  | challengeExpired
  | challengeReplayed
  | internal
deriving DecidableEq, Repr

def maxInput : ℕ := 2 ^ 30
def maxKeyFile : ℕ := 4096

/-! ## What crosses the boundary -/

/-- Reads a slice of the caller's memory; `none` is the null pointer. -/
def borrow (data : Option Bytes) (len limit : ℕ) : Option Bytes :=
  if len > limit then none
  else if len = 0 then some []
  else data.map (List.take len)

/-- Memory a C string points to: it is terminated somewhere. -/
structure CString where
  memory : Bytes
  terminated : 0 ∈ memory

namespace CString

/-- `CStr::from_ptr`: everything before the first NUL. -/
def toBytes (self : CString) : Bytes := self.memory.takeWhile (· ≠ 0)

/-- A string as a caller lays it out. -/
def ofString (s : String) : CString := ⟨utf8 s ++ [0], by simp⟩

end CString

/-- Reads a C string; the null pointer is no string at all. -/
def borrowStr : Option CString → Option (Option String)
  | none => some none
  | some text => (fromUtf8 text.toBytes).map some

theorem borrow_of_le {bytes : Bytes} {limit : ℕ} (h : bytes.length ≤ limit) :
    borrow (some bytes) bytes.length limit = some bytes := by
  unfold borrow
  rw [if_neg (by omega)]
  by_cases hempty : bytes.length = 0
  · rw [if_pos hempty, List.eq_nil_of_length_eq_zero hempty]
  · rw [if_neg hempty, Option.map_some, List.take_length]

/-- A slice that is borrowed at all is borrowed whole. -/
theorem borrow_eq_some {bytes slice : Bytes} {limit : ℕ}
    (h : borrow (some bytes) bytes.length limit = some slice) :
    slice = bytes ∧ bytes.length ≤ limit := by
  by_cases hle : bytes.length ≤ limit
  · rw [borrow_of_le hle] at h
    exact ⟨(Option.some.inj h).symm, hle⟩
  · rw [borrow, if_pos (by omega)] at h
    cases h

/-- A string without a NUL arrives whole. -/
theorem toBytes_ofString {s : String} (h : '\x00' ∉ s.toList) :
    (CString.ofString s).toBytes = utf8 s := by
  have hne : ∀ b ∈ utf8 s, decide (b ≠ 0) = true := by
    intro b hb
    rw [decide_eq_true_iff]
    rintro rfl
    exact h (zero_mem_utf8 hb)
  show ((utf8 s ++ [0]).takeWhile fun b => decide (b ≠ 0)) = utf8 s
  rw [List.takeWhile_append_of_pos hne]
  simp

theorem borrowStr_ofString {s : Option String} (h : ∀ t ∈ s, '\x00' ∉ t.toList) :
    borrowStr (s.map CString.ofString) = some s := by
  cases s with
  | none => rfl
  | some t =>
    show (fromUtf8 (CString.ofString t).toBytes).map some = some (some t)
    rw [toBytes_ofString (h t rfl), fromUtf8_utf8, Option.map_some]

/-! ## Keys -/

def keyringErrorCode : KeyringError → ErrorCode
  | .wrongPassphrase => .wrongPassphrase
  | .notAKeyFile => .notAKey
  | .unsupportedVersion _ => .notAKey
  | .passphraseTooShort _ => .invalidArgument
  | _ => .malformed

section
variable (K : Keyring.Primitives)

def hideSecretKeyOpen (data : Option Bytes) (len : ℕ) (passphrase : Option CString) :
    Except ErrorCode RecipientSecret := do
  let bytes ← okOr (borrow data len maxKeyFile) .invalidArgument
  let passphrase ← okOr (borrowStr passphrase) .invalidArgument
  mapErr keyringErrorCode (Keyring.«open» K bytes passphrase)

/-- A file written before signatures existed carries no signing seed and fails here. -/
def hideSigningIdentityOpen (data : Option Bytes) (len : ℕ) (passphrase : Option CString) :
    Except ErrorCode SigningIdentity := do
  let bytes ← okOr (borrow data len maxKeyFile) .invalidArgument
  let passphrase ← okOr (borrowStr passphrase) .invalidArgument
  let seed ← match inspect bytes with
    | .raw => do
      failIf (bytes.length ≠ 32) .notAKey
      -- cannot fail after the length check
      let seed ← okOr (tryInto seedLen bytes) .notAKey
      pure ((Identity.mk seed).signingSeed K)
    | .protected => do
      let passphrase ← okOr passphrase .invalidArgument
      let (seed, purpose) ← mapErr keyringErrorCode (unprotectSeed K bytes passphrase)
      match purpose with
      | .identity => pure ((Identity.mk seed).signingSeed K)
      -- an encryption-only file predates signatures
      | .encryption => .error .notAKey
  mapErr (fun _ => .notAKey) (SigningIdentity.fromBytes seed.toList)

end

/-! ## Containers -/

def objectErrorCode : Object.ObjectError → ErrorCode
  | .noMatchingRecipient => .noMatchingRecipient
  | .crypto _ => .authentication
  | .objectTooLarge => .tooLarge
  | _ => .malformed

section
variable (P : Crypto.Primitives) (S : Sign.Primitives)

/-- Encrypts a buffer; `recipients` is a flat array of `recipientCount` public keys. -/
def hideEncrypt (accepts : Vector UInt8 publicKeyLength → Bool) (plaintext : Option Bytes)
    (plaintextLen : ℕ) (recipients : Option Bytes) (recipientCount : ℕ)
    (filename mediaType : Option CString) (material : Object.ObjectMaterial) (seeds : ℕ → Key) :
    Except ErrorCode Bytes := do
  failIf (recipientCount = 0 ∨ recipientCount > 64) .invalidArgument
  let plaintext ← okOr (borrow plaintext plaintextLen maxInput) .invalidArgument
  let keys ← okOr (borrow recipients (recipientCount * publicKeyLength) maxInput) .invalidArgument
  let parsed ← mapErr (fun _ => .invalidArgument)
    ((chunksExact publicKeyLength keys).mapM (RecipientPublic.fromBytes accepts))
  let filename ← okOr (borrowStr filename) .invalidArgument
  let mediaType ← okOr (borrowStr mediaType) .invalidArgument
  let run := Object.encrypt P S (Reader.ofBytes plaintext) (Object.withSeeds seeds parsed)
    { filename, mediaType } material
  let _ ← mapErr objectErrorCode run.result
  pure run.output

/-- The three buffers `hide_decrypt` fills; metadata that is absent leaves an empty one. -/
structure Decrypted where
  plaintext : Bytes
  filename : Bytes
  mediaType : Bytes
deriving DecidableEq

/-- Nothing is written unless the whole payload authenticates. -/
def hideDecrypt (container : Option Bytes) (containerLen : ℕ) (secret : RecipientSecret) :
    Except ErrorCode Decrypted := do
  let container ← okOr (borrow container containerLen maxInput) .invalidArgument
  let read := Object.decryptToStaging P S container secret
  let verified ← mapErr objectErrorCode read.result
  pure { plaintext := read.staging
         filename := utf8 (verified.metadata.filename.getD "")
         mediaType := utf8 (verified.metadata.mediaType.getD "") }

/-! ## Challenges -/

/-- The encoded challenge, to be handed to the prover as it is. -/
def hideChallengeNew (nonce : Option (Vector UInt8 nonceLength)) (audience : Option CString)
    (now validFor : UInt64) : Except ErrorCode Bytes := do
  let audience ← okOr (borrowStr audience) .invalidArgument
  let audience ← okOr audience .invalidArgument
  let challenge ← mapErr (fun _ => .internal) (Challenge.new nonce audience now validFor)
  pure challenge.encode

def hideChallengeAnswer (identity : SigningIdentity) (challenge : Option Bytes)
    (challengeLen : ℕ) : Except ErrorCode Bytes := do
  let bytes ← okOr (borrow challenge challengeLen maxKeyFile) .invalidArgument
  let challenge ← mapErr (fun _ => .malformed) (Challenge.decode bytes)
  pure (challenge.answer S identity).toList

def challengeErrorCode : ChallengeError → ErrorCode
  | .expired => .challengeExpired
  | .replayed => .challengeReplayed
  | .notSigned => .authentication

/-- What `hide_challenge_accept` reads before it looks at the record. -/
def readAnswer (challenge : Option Bytes) (challengeLen : ℕ) (signature : Option Bytes)
    (signatureLen : ℕ) (publicKey : Option Bytes) (publicKeyLen : ℕ) :
    Except ErrorCode (Challenge × Bytes × VerifyingIdentity S) := do
  let challengeBytes ← okOr (borrow challenge challengeLen maxKeyFile) .invalidArgument
  failIf (signatureLen ≠ signatureLength ∨ publicKeyLen ≠ verifyingKeyLength) .invalidArgument
  let signature ← okOr (borrow signature signatureLen (maxKeyFile * 4)) .invalidArgument
  let publicKey ← okOr (borrow publicKey publicKeyLen maxKeyFile) .invalidArgument
  let challenge ← mapErr (fun _ => .malformed) (Challenge.decode challengeBytes)
  let prover ← mapErr (fun _ => .notAKey) (VerifyingIdentity.fromBytes S publicKey)
  pure (challenge, signature, prover)

/-- Accepts an answer once. Returns the verdict and the record it leaves. -/
def hideChallengeAccept (spent : SpentNonces) (challenge : Option Bytes) (challengeLen : ℕ)
    (signature : Option Bytes) (signatureLen : ℕ) (publicKey : Option Bytes) (publicKeyLen : ℕ)
    (now : UInt64) : Except ErrorCode Unit × SpentNonces :=
  match readAnswer S challenge challengeLen signature signatureLen publicKey publicKeyLen with
  | .error code => (.error code, spent)
  | .ok (challenge, signature, prover) =>
    let (verdict, spent) := spent.accept challenge signature prover now
    (mapErr challengeErrorCode verdict, spent)

end

/-! ## Epoch chains -/

def maxLogBytes : ℕ := 16 * 1024 * 1024

/-- The public key a sender should encrypt to for a given epoch, on a target whose pointers have
`bits` bits. -/
def hideEpochPublicKey (sha256 : Bytes → Epoch.Hash) (bits : ℕ) (chain : Option Bytes)
    (chainLen : ℕ) (epoch : UInt64) : Except ErrorCode Bytes := do
  let bytes ← okOr (borrow chain chainLen maxLogBytes) .invalidArgument
  let records ← mapErr (fun _ => .malformed) (Epoch.decodeRecords bytes)
  mapErr (fun _ => .authentication) (Epoch.verify sha256 records)
  -- a cast would wrap on a 32-bit target and select the wrong epoch
  let index ← okOr (tryUsize bits epoch) .invalidArgument
  let record ← okOr records[index]? .invalidArgument
  pure record.publicKey

/-- The key that is returned is the one that a verified chain has for the epoch, on every
target. -/
theorem hideEpochPublicKey_eq_ok {sha256 : Bytes → Epoch.Hash} {bits : ℕ} {chain : Option Bytes}
    {chainLen : ℕ} {epoch : UInt64} {key : Bytes}
    (h : hideEpochPublicKey sha256 bits chain chainLen epoch = .ok key) :
    ∃ bytes records record, borrow chain chainLen maxLogBytes = some bytes ∧
      Epoch.decodeRecords bytes = .ok records ∧ Epoch.verify sha256 records = .ok () ∧
      records[epoch.toNat]? = some record ∧ record.number = epoch ∧ key = record.publicKey := by
  unfold hideEpochPublicKey at h
  obtain ⟨bytes, hbytes, h⟩ := bind_eq_ok.mp h
  obtain ⟨records, hrecords, h⟩ := bind_eq_ok.mp h
  obtain ⟨_, hverify, h⟩ := bind_eq_ok.mp h
  obtain ⟨index, hindex, h⟩ := bind_eq_ok.mp h
  obtain ⟨record, hrecord, h⟩ := bind_eq_ok.mp h
  have hverify := mapErr_eq_ok.mp hverify
  have hrecord := okOr_eq_ok.mp hrecord
  rw [(tryUsize_eq_some.mp (okOr_eq_ok.mp hindex)).2] at hrecord
  refine ⟨bytes, records, record, okOr_eq_ok.mp hbytes, mapErr_eq_ok.mp hrecords, hverify, hrecord,
    ?_, pure_eq_ok.mp h⟩
  rw [(Epoch.record_of_verify hverify hrecord).1, UInt64.ofNat_toNat]

end HideProtocol.Ffi
