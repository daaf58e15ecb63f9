import HideProtocol.Lib.Parser

/-!
# Hybrid signatures

Ed25519 and ML-DSA-65 side by side: a signature is the concatenation of both halves over the
same context-bound payload, and verifies only if both halves do.

The two schemes and HKDF are third-party code: `Primitives` holds them as arbitrary functions,
and what a theorem needs of them is a hypothesis of that theorem.
-/

namespace HideProtocol.Sign

open Lib

/-- The seed an identity is stored and backed up as. -/
def seedLength : ℕ := 32

def ed25519PublicLen : ℕ := 32
def ed25519SignatureLen : ℕ := 64
def mlDsaPublicLen : ℕ := 1952
def mlDsaSignatureLen : ℕ := 3309

/-- The Ed25519 half followed by the ML-DSA-65 half. -/
def verifyingKeyLength : ℕ := ed25519PublicLen + mlDsaPublicLen

/-- The Ed25519 half followed by the ML-DSA-65 half. -/
def signatureLength : ℕ := ed25519SignatureLen + mlDsaSignatureLen

def ed25519Info : Bytes := utf8 "HIDE/0.5 identity ed25519"
def mlDsaInfo : Bytes := utf8 "HIDE/0.5 identity ml-dsa-65"

/-- Contexts starting with these bytes belong to the specification. -/
def reservedContextPrefix : Bytes := utf8 "HIDE/"

def isReservedContext (context : Bytes) : Bool := reservedContextPrefix.isPrefixOf context

inductive SignError where
  | verification
  | invalidLength (name : String) (expected actual : ℕ)
  | malformedKey
  | malformedChallenge
  | reservedContext
  | random
deriving DecidableEq, Repr

/-- The text of an error. -/
def SignError.display : SignError → String
  | verification => "signature verification failed"
  | invalidLength name expected actual =>
    "invalid " ++ name ++ " length: expected " ++ toString expected ++ ", got " ++ toString actual
  | malformedKey => "verifying key is malformed"
  | malformedChallenge => "challenge is malformed"
  | reservedContext => "contexts beginning with \"HIDE/\" are reserved for the protocol"
  | random => "operating-system randomness failed"

/-- The third-party functions. An Ed25519 key is its 32 bytes and is valid when they
decompress; an ML-DSA-65 key is its 1952 bytes, all of which are valid. `mlVerify` covers
decoding the signature as well. -/
structure Primitives where
  hkdfExpand : Vector UInt8 32 → Bytes → Vector UInt8 32
  edDecompresses : Vector UInt8 32 → Bool
  edPublic : Vector UInt8 32 → { key : Vector UInt8 32 // edDecompresses key = true }
  edSign : Vector UInt8 32 → Bytes → Vector UInt8 ed25519SignatureLen
  edVerifyStrict : Vector UInt8 32 → Bytes → Vector UInt8 ed25519SignatureLen → Bool
  mlPublic : Vector UInt8 32 → Vector UInt8 mlDsaPublicLen
  mlSign : Vector UInt8 32 → Bytes → Vector UInt8 mlDsaSignatureLen
  mlVerify : Vector UInt8 mlDsaPublicLen → Bytes → Vector UInt8 mlDsaSignatureLen → Bool

/-- Both schemes verify what they sign. -/
structure Primitives.Correct (P : Primitives) : Prop where
  ed : ∀ seed payload, P.edVerifyStrict (P.edPublic seed) payload (P.edSign seed payload) = true
  ml : ∀ seed payload, P.mlVerify (P.mlPublic seed) payload (P.mlSign seed payload) = true

/-- `split_at` followed by `try_into` on both sides. -/
def splitAt (n m : ℕ) (bytes : Bytes) : Option (Vector UInt8 n × Vector UInt8 m) := do
  let left ← tryInto n (bytes.take n)
  let right ← tryInto m (bytes.drop n)
  pure (left, right)

theorem splitAt_append {n m : ℕ} (a : Vector UInt8 n) (b : Vector UInt8 m) :
    splitAt n m (a.toList ++ b.toList) = some (a, b) := by
  have hlen : a.toList.length = n := Vector.length_toList
  simp [splitAt, List.take_left' hlen, List.drop_left' hlen]

theorem splitAt_eq_some {n m : ℕ} {bytes : Bytes} {a : Vector UInt8 n} {b : Vector UInt8 m}
    (h : splitAt n m bytes = some (a, b)) : bytes = a.toList ++ b.toList := by
  simp only [splitAt, Option.bind_eq_bind, Option.bind_eq_some_iff] at h
  obtain ⟨_, ha, _, hb, h⟩ := h
  cases h
  rw [← tryInto_eq_some ha, ← tryInto_eq_some hb, List.take_append_drop]

theorem length_of_splitAt {n m : ℕ} {bytes : Bytes} {halves : Vector UInt8 n × Vector UInt8 m}
    (h : splitAt n m bytes = some halves) : bytes.length = n + m := by
  rw [splitAt_eq_some h, List.length_append, Vector.length_toList, Vector.length_toList]

def requireLength (name : String) (expected actual : ℕ) : Except SignError Unit :=
  failIf (expected ≠ actual) (.invalidLength name expected actual)

/-- The context behind its length, then the message: no two pairs have the same bytes. -/
def bind (context message : Bytes) : Bytes := lenPrefixed 8 context ++ message

theorem bind_inj {context context' message message' : Bytes} (h : context.length < 2 ^ 64)
    (h' : context'.length < 2 ^ 64) (heq : bind context message = bind context' message') :
    context = context' ∧ message = message' :=
  selfDelimiting_lenPrefixed 8 _ _ _ _ (by simpa using h) (by simpa using h') heq

/-! ## Identities -/

/-- The public half. Building one requires the Ed25519 bytes to decompress. -/
structure VerifyingIdentity (P : Primitives) where
  ed25519 : Vector UInt8 32
  mlDsa : Vector UInt8 mlDsaPublicLen
  decompresses : P.edDecompresses ed25519 = true
deriving DecidableEq

/-- The secret half. Both keys are derived from the seed. -/
structure SigningIdentity where
  seed : Vector UInt8 32
deriving DecidableEq

section
variable (P : Primitives)

namespace SigningIdentity

def ed25519 (self : SigningIdentity) : Vector UInt8 32 := P.hkdfExpand self.seed ed25519Info

def mlDsa (self : SigningIdentity) : Vector UInt8 32 := P.hkdfExpand self.seed mlDsaInfo

def fromBytes (bytes : Bytes) : Except SignError SigningIdentity := do
  requireLength "signing seed" seedLength bytes.length
  let seed ← okOr (tryInto 32 bytes) (.invalidLength "signing seed" seedLength bytes.length)
  pure ⟨seed⟩

def verifyingKey (self : SigningIdentity) : VerifyingIdentity P :=
  ⟨P.edPublic (self.ed25519 P), P.mlPublic (self.mlDsa P), (P.edPublic _).2⟩

/-- Signs the bound payload with both halves. -/
def sign (self : SigningIdentity) (context message : Bytes) : Vector UInt8 signatureLength :=
  let payload := bind context message
  P.edSign (self.ed25519 P) payload ++ P.mlSign (self.mlDsa P) payload

/-- Signs under an application-chosen context, refusing the reserved prefix. -/
def signApplication (self : SigningIdentity) (context message : Bytes) :
    Except SignError (Vector UInt8 signatureLength) := do
  failIf (isReservedContext context) .reservedContext
  pure (self.sign P context message)

end SigningIdentity

namespace VerifyingIdentity

def fromBytes (bytes : Bytes) : Except SignError (VerifyingIdentity P) := do
  requireLength "verifying key" verifyingKeyLength bytes.length
  -- cannot fail after the length check
  let halves ← okOr (splitAt 32 mlDsaPublicLen bytes)
    (.invalidLength "verifying key" verifyingKeyLength bytes.length)
  if h : P.edDecompresses halves.1 = true then pure ⟨halves.1, halves.2, h⟩
  else .error .malformedKey

variable {P}

def toBytes (self : VerifyingIdentity P) : Vector UInt8 verifyingKeyLength :=
  self.ed25519 ++ self.mlDsa

/-- Verifies both halves. Neither alone is accepted. -/
def verify (self : VerifyingIdentity P) (context message signature : Bytes) :
    Except SignError Unit := do
  requireLength "signature" signatureLength signature.length
  let payload := bind context message
  -- cannot fail after the length check
  let halves ← okOr (splitAt ed25519SignatureLen mlDsaSignatureLen signature)
    (.invalidLength "signature" signatureLength signature.length)
  let classical := P.edVerifyStrict self.ed25519 payload halves.1
  let quantum := P.mlVerify self.mlDsa payload halves.2
  failIf (¬(classical ∧ quantum)) .verification

end VerifyingIdentity

end

/-! ## A toy instance -/

/-- `n` copies of a payload's length. -/
def toyTag (n : ℕ) (payload : Bytes) : Vector UInt8 n :=
  Vector.replicate n (UInt8.ofNat payload.length)

/-- Keys are seeds and signatures are tags: no scheme to use, but one that verifies what it
signs and little else, to evaluate the model with. -/
def Primitives.toy : Primitives where
  hkdfExpand seed _ := seed
  edDecompresses _ := true
  edPublic seed := ⟨seed, rfl⟩
  edSign _ payload := toyTag _ payload
  edVerifyStrict _ payload signature := signature == toyTag _ payload
  mlPublic _ := Vector.replicate _ 0
  mlSign _ payload := toyTag _ payload
  mlVerify _ payload signature := signature == toyTag _ payload

theorem Primitives.toy_correct : Primitives.toy.Correct where
  ed _ _ := by simp [toy]
  ml _ _ := by simp [toy]

/-! ## What the two directions give -/

section
variable {P : Primitives}

theorem VerifyingIdentity.toList_toBytes (key : VerifyingIdentity P) :
    key.toBytes.toList = key.ed25519.toList ++ key.mlDsa.toList := Vector.toList_append

theorem VerifyingIdentity.fromBytes_toBytes (key : VerifyingIdentity P) :
    fromBytes P key.toBytes.toList = .ok key := by
  unfold fromBytes requireLength
  rw [failIf_neg _ (by simp), ok_bind, toList_toBytes, splitAt_append, okOr_some, ok_bind]
  exact dif_pos key.decompresses

theorem VerifyingIdentity.toBytes_fromBytes {bytes : Bytes} {key : VerifyingIdentity P}
    (h : fromBytes P bytes = .ok key) : key.toBytes.toList = bytes := by
  unfold fromBytes at h
  obtain ⟨_, -, h⟩ := bind_eq_ok.mp h
  obtain ⟨⟨ed, ml⟩, hsplit, h⟩ := bind_eq_ok.mp h
  rw [okOr_eq_ok] at hsplit
  split at h
  · rw [pure_eq_ok] at h
    rw [h, toList_toBytes, ← splitAt_eq_some hsplit]
  · cases h

theorem VerifyingIdentity.toBytes_inj {key key' : VerifyingIdentity P}
    (h : key.toBytes = key'.toBytes) : key = key' := by
  have hkey := fromBytes_toBytes key
  rw [h, fromBytes_toBytes] at hkey
  exact (Except.ok.inj hkey).symm

/-- What verifying checks: the two halves, each under its own key. -/
theorem verify_eq_ok {key : VerifyingIdentity P} {context message signature : Bytes} :
    key.verify context message signature = .ok () ↔
      ∃ (ed : Vector UInt8 ed25519SignatureLen) (ml : Vector UInt8 mlDsaSignatureLen),
        signature = ed.toList ++ ml.toList ∧
        P.edVerifyStrict key.ed25519 (bind context message) ed = true ∧
        P.mlVerify key.mlDsa (bind context message) ml = true := by
  simp only [VerifyingIdentity.verify, requireLength, bind_eq_ok, failIf_eq_ok, okOr_eq_ok, not_not]
  constructor
  · rintro ⟨_, -, ⟨ed, ml⟩, hsplit, hverify⟩
    exact ⟨ed, ml, splitAt_eq_some hsplit, hverify⟩
  · rintro ⟨ed, ml, rfl, hverify⟩
    exact ⟨(), by simp [signatureLength], (ed, ml), splitAt_append ed ml, hverify⟩

theorem toList_sign (identity : SigningIdentity) (context message : Bytes) :
    (identity.sign P context message).toList =
      (P.edSign (identity.ed25519 P) (bind context message)).toList ++
        (P.mlSign (identity.mlDsa P) (bind context message)).toList := Vector.toList_append

/-- A signature verifies under the key of the identity that made it. -/
theorem verify_sign (hP : P.Correct) (identity : SigningIdentity) (context message : Bytes) :
    (identity.verifyingKey P).verify context message (identity.sign P context message).toList =
      .ok () :=
  verify_eq_ok.mpr ⟨_, _, toList_sign identity context message, hP.ed _ _, hP.ml _ _⟩

theorem length_of_verify {key : VerifyingIdentity P} {context message signature : Bytes}
    (h : key.verify context message signature = .ok ()) : signature.length = signatureLength := by
  obtain ⟨ed, ml, rfl, -⟩ := verify_eq_ok.mp h
  rw [List.length_append, Vector.length_toList, Vector.length_toList]
  rfl

/-- A signature verifies under no key but that of the identity that made it. -/
def Primitives.Separates (P : Primitives) : Prop :=
  ∀ (identity : SigningIdentity) (key : VerifyingIdentity P) (context message : Bytes),
    key.verify context message (identity.sign P context message).toList = .ok () →
      key = identity.verifyingKey P

/-- What verifying a signature checks of its two halves. -/
theorem halves_of_verify_sign {identity : SigningIdentity} {key : VerifyingIdentity P}
    {context message : Bytes}
    (h : key.verify context message (identity.sign P context message).toList = .ok ()) :
    P.edVerifyStrict key.ed25519 (bind context message)
        (P.edSign (identity.ed25519 P) (bind context message)) = true ∧
      P.mlVerify key.mlDsa (bind context message)
        (P.mlSign (identity.mlDsa P) (bind context message)) = true := by
  obtain ⟨ed, ml, hhalves, hed, hml⟩ := verify_eq_ok.mp h
  rw [toList_sign] at hhalves
  obtain ⟨hedEq, hmlEq⟩ := List.append_inj hhalves (by simp)
  rw [Vector.toList_inj.mp hedEq, Vector.toList_inj.mp hmlEq]
  exact ⟨hed, hml⟩

end

/-! ## A toy instance with keys -/

/-- A key, then a payload's length, cut or padded to `n` bytes. -/
def keyedTag (n : ℕ) (key payload : Bytes) : Vector UInt8 n :=
  Vector.ofFn fun i => (key ++ [UInt8.ofNat payload.length]).getD i 0

theorem keyedTag_inj {n : ℕ} (hn : 32 ≤ n) {key key' payload payload' : Bytes}
    (hkey : key.length = 32) (hkey' : key'.length = 32)
    (h : keyedTag n key payload = keyedTag n key' payload') : key = key' := by
  apply List.ext_getElem (hkey.trans hkey'.symm)
  intro i hi hi'
  have hget := congrArg (fun v : Vector UInt8 n => v.toList.getD i 0) h
  have hin : i < n := by omega
  simpa [keyedTag, List.getD_eq_getElem?_getD, hin, List.getElem?_append_left, hi, hi'] using hget

theorem length_of_keyedTag {n : ℕ} (hn : 32 < n) {key payload payload' : Bytes}
    (hkey : key.length = 32) (h : keyedTag n key payload = keyedTag n key payload') :
    UInt8.ofNat payload.length = UInt8.ofNat payload'.length := by
  have hget := congrArg (fun v : Vector UInt8 n => v.toList.getD 32 0) h
  simpa [keyedTag, List.getD_eq_getElem?_getD, hn, List.getElem?_append_right, hkey] using hget

/-- Keys are seeds and a signature names its key. -/
def Primitives.keyed : Primitives where
  hkdfExpand seed _ := seed
  edDecompresses _ := true
  edPublic seed := ⟨seed, rfl⟩
  edSign seed payload := keyedTag _ seed.toList payload
  edVerifyStrict key payload signature := signature == keyedTag _ key.toList payload
  mlPublic seed := keyedTag _ seed.toList []
  mlSign seed payload := keyedTag _ seed.toList payload
  mlVerify key payload signature :=
    key == keyedTag _ (key.toList.take 32) [] && signature == keyedTag _ (key.toList.take 32) payload

theorem take_keyedTag (n : ℕ) (hn : 32 ≤ n) {key : Bytes} (hkey : key.length = 32)
    (payload : Bytes) : (keyedTag n key payload).toList.take 32 = key := by
  apply List.ext_getElem
  · rw [List.length_take, Vector.length_toList]
    omega
  · intro i hi hi'
    simp [keyedTag, List.getD_eq_getElem?_getD, List.getElem?_append_left, hi']

theorem Primitives.keyed_correct : Primitives.keyed.Correct where
  ed _ _ := by simp [keyed]
  ml seed payload := by
    have htake : (keyedTag mlDsaPublicLen seed.toList []).toList.take 32 = seed.toList :=
      take_keyedTag _ (by decide) Vector.length_toList []
    simp only [keyed, htake, beq_self_eq_true, Bool.and_self]

theorem Primitives.keyed_separates : Primitives.keyed.Separates := by
  intro identity key context message h
  have ⟨hed, hml⟩ := halves_of_verify_sign h
  simp only [Primitives.keyed, Bool.and_eq_true, beq_iff_eq] at hed hml
  have hkey : key.mlDsa = keyedTag _ (key.mlDsa.toList.take 32) [] := hml.1
  have hsig : keyedTag mlDsaSignatureLen identity.seed.toList (bind context message) =
      keyedTag mlDsaSignatureLen (key.mlDsa.toList.take 32) (bind context message) := hml.2
  have hseed : identity.seed = key.ed25519 :=
    Vector.toList_inj.mp (keyedTag_inj (by decide) Vector.length_toList Vector.length_toList hed)
  have hlen : (key.mlDsa.toList.take 32).length = 32 := by
    rw [List.length_take, Vector.length_toList]
    decide
  have hle : 32 ≤ mlDsaSignatureLen := by
    unfold mlDsaSignatureLen
    omega
  have hmlSeed := keyedTag_inj hle Vector.length_toList hlen hsig
  rw [← hmlSeed] at hkey
  apply VerifyingIdentity.toBytes_inj
  unfold VerifyingIdentity.toBytes
  rw [hkey, ← hseed]
  rfl

end HideProtocol.Sign
