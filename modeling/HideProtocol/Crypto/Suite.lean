import HideProtocol.Lib.Parser

/-!
# The cryptographic suite

HPKE with X-Wing, HKDF-SHA256, HMAC-SHA256 and ChaCha20-Poly1305 are third-party code and stay
abstract: `Primitives` holds them as arbitrary functions of the types their crates give them,
and the functions below are the thin layer over them. Keys, salts and nonces have fixed
lengths, so the constructors that take a slice of the right length cannot fail here.
-/

namespace HideProtocol.Crypto

open Lib

/-- `[u8; 32]`: a content key, a derived key, a seed, a digest. -/
abbrev Key := Vector UInt8 32

abbrev Nonce := Vector UInt8 12

def keyLength : ℕ := 32
def tagLength : ℕ := 16
def encapsulationLength : ℕ := 1120
def wrappedKeyLength : ℕ := 48

/-- X-Wing public keys are ML-KEM-768 (1184) and X25519 (32). -/
def publicKeyLength : ℕ := 1216

inductive CryptoError where
  | authentication
  | degeneratePublicKey
  | invalidParameter
  | random
  | hpke
  | invalidLength (name : String) (expected actual : ℕ)
deriving DecidableEq, Repr

/-- The text of an error, piece by piece; `cause` is the text of an error of another library. -/
def CryptoError.pieces (cause : String) : CryptoError → List String
  | authentication => ["cryptographic authentication failed"]
  | degeneratePublicKey => ["recipient public key is degenerate"]
  | invalidParameter => ["invalid cryptographic parameter"]
  | random => ["operating-system randomness failed: ", cause]
  | hpke => ["HPKE operation failed: ", cause]
  | invalidLength name expected actual =>
    ["invalid ", name, " length: expected ", toString expected, ", got ", toString actual]

def CryptoError.display (cause : String) (error : CryptoError) : String :=
  String.join (error.pieces cause)

/-- The third-party functions. AEAD ciphertexts end in their tag; `hpkeSeal` takes the seed of
the generator it draws its ephemeral key from. -/
structure Primitives where
  sha256 : Bytes → Key
  hkdf : (salt ikm info : Bytes) → Key
  hmac : Key → Bytes → Key
  aeadSeal : Key → Nonce → (aad plaintext : Bytes) → Option Bytes
  aeadOpen : Key → Nonce → (aad ciphertext : Bytes) → Option Bytes
  xwingPublic : Key → Vector UInt8 publicKeyLength
  hpkeSeal : Vector UInt8 publicKeyLength → (info aad : Bytes) → (seed cek : Key) →
    Option (Vector UInt8 encapsulationLength × Vector UInt8 wrappedKeyLength)
  hpkeOpen : Key → (info aad : Bytes) → Vector UInt8 encapsulationLength →
    Vector UInt8 wrappedKeyLength → Option Key

/-- A zeroizing raw X-Wing seed. -/
structure RecipientSecret where
  seed : Key
deriving DecidableEq

structure RecipientPublic where
  key : Vector UInt8 publicKeyLength
deriving DecidableEq

structure WrappedKey where
  encapsulation : Bytes
  wrappedCek : Bytes
deriving DecidableEq

def suite : Bytes := beBytes 2 1

def infoPrefix : Bytes := utf8 "HIDE/0.1 object-key"

def requireLength (name : String) (expected actual : ℕ) : Except CryptoError Unit :=
  failIf (actual ≠ expected) (.invalidLength name expected actual)

def RecipientSecret.fromBytes (bytes : Bytes) : Except CryptoError RecipientSecret := do
  requireLength "recipient seed" keyLength bytes.length
  -- cannot fail after the length check
  let seed ← okOr (tryInto keyLength bytes) (.invalidLength "recipient seed" keyLength bytes.length)
  pure ⟨seed⟩

theorem recipientSecret_fromBytes (seed : Key) :
    RecipientSecret.fromBytes seed.toList = .ok ⟨seed⟩ := by
  have hlen : seed.toList.length = keyLength := Vector.length_toList
  have hinto : tryInto keyLength seed.toList = some seed := tryInto_toList seed
  unfold RecipientSecret.fromBytes requireLength
  rw [failIf_neg _ (by rw [hlen, ne_eq, not_not]), ok_bind, hinto]
  rfl

/-- The HPKE `info` and associated data of an object. -/
def objectContext (objectId : Key) : Bytes × Bytes :=
  let aad := objectId.toList ++ suite
  (infoPrefix ++ aad, aad)

section
variable (P : Primitives)

def RecipientSecret.publicKey (self : RecipientSecret) : RecipientPublic :=
  ⟨P.xwingPublic self.seed⟩

/-- Wraps a content key for one recipient. `seed` is the randomness drawn for it. -/
def wrapCek (recipient : RecipientPublic) (cek objectId seed : Key) :
    Except CryptoError WrappedKey := do
  let (info, aad) := objectContext objectId
  let sealed ← okOr (P.hpkeSeal recipient.key info aad seed cek) .hpke
  pure { encapsulation := sealed.1.toList, wrappedCek := sealed.2.toList }

def unwrapCek (secret : RecipientSecret) (objectId : Key) (encapsulation wrappedCek : Bytes) :
    Except CryptoError Key := do
  requireLength "encapsulation" encapsulationLength encapsulation.length
  requireLength "wrapped CEK" wrappedKeyLength wrappedCek.length
  -- neither conversion can fail after the two checks
  let encapsulation ← okOr (tryInto encapsulationLength encapsulation) .hpke
  let wrappedCek ← okOr (tryInto wrappedKeyLength wrappedCek) .hpke
  let (info, aad) := objectContext objectId
  okOr (P.hpkeOpen secret.seed info aad encapsulation wrappedCek) .hpke

/-- HKDF-SHA256. Expanding to 32 bytes cannot fail. -/
def deriveKey (cek : Key) (salt info : Bytes) : Key := P.hkdf salt cek.toList info

def «seal» (key : Key) (nonce : Nonce) (aad plaintext : Bytes) : Except CryptoError Bytes :=
  okOr (P.aeadSeal key nonce aad plaintext) .authentication

/-- Returns the authenticated plaintext. The attached form fails without a tag to check. -/
def «open» (key : Key) (nonce : Nonce) (aad ciphertext : Bytes) : Except CryptoError Bytes :=
  okOr (P.aeadOpen key nonce aad ciphertext) .authentication

/-- Encrypts the first bytes of a buffer of `capacity` in place and appends the tag. -/
def sealInPlace (key : Key) (nonce : Nonce) (aad : Bytes) (capacity : ℕ) (plaintext : Bytes) :
    Except CryptoError Bytes := do
  failIf (plaintext.length > capacity) .invalidParameter
  let sealed ← okOr (P.aeadSeal key nonce aad plaintext) .authentication
  failIf (plaintext.length + tagLength > capacity) .invalidParameter
  pure sealed

/-- Decrypts a buffer in place and returns the authenticated plaintext. -/
def openInPlace (key : Key) (nonce : Nonce) (aad ciphertext : Bytes) :
    Except CryptoError Bytes := do
  failIf (ciphertext.length < tagLength) .invalidParameter
  okOr (P.aeadOpen key nonce aad ciphertext) .authentication

def mac (key : Key) (parts : List Bytes) : Key := P.hmac key parts.flatten

def verifyMac (key : Key) (parts : List Bytes) (tag : Key) : Except CryptoError Unit :=
  failIf (mac P key parts ≠ tag) .authentication

def hash (parts : List Bytes) : Key := P.sha256 parts.flatten

end

/-! ## A toy instance -/

def toyPublic (seed : Key) : Vector UInt8 publicKeyLength :=
  (seed ++ Vector.replicate 1184 (9 : UInt8) : Vector UInt8 (32 + 1184))

def toyWrapped (cek : Key) : Vector UInt8 wrappedKeyLength :=
  (cek ++ Vector.replicate 16 (0 : UInt8) : Vector UInt8 (32 + 16))

def toyEncapsulation (key : Vector UInt8 publicKeyLength) : Vector UInt8 encapsulationLength :=
  Vector.ofFn fun i => key.toList.getD i 0

/-- No secrecy, but the right shapes: tags are sixteen zero bytes, a public key is its seed
padded with nines, and a key wrapped for one recipient does not unwrap for another. -/
def Primitives.toy : Primitives where
  sha256 bytes := Vector.replicate 32 (UInt8.ofNat bytes.length)
  hkdf _ _ _ := Vector.replicate 32 0
  hmac _ bytes := Vector.replicate 32 (UInt8.ofNat bytes.length)
  aeadSeal _ _ _ plaintext := some (plaintext ++ List.replicate 16 0)
  aeadOpen _ _ _ ciphertext :=
    if ciphertext.drop (ciphertext.length - 16) = List.replicate 16 0 then
      some (ciphertext.take (ciphertext.length - 16))
    else none
  xwingPublic := toyPublic
  hpkeSeal key _ _ _ cek := some (toyEncapsulation key, toyWrapped cek)
  hpkeOpen seed _ _ encapsulation wrapped :=
    if encapsulation = toyEncapsulation (toyPublic seed) then
      tryInto 32 (wrapped.toList.take 32)
    else none

end HideProtocol.Crypto
