import HideProtocol.Identity.Bookkeeping
import HideProtocol.Lib.Collision
import HideProtocol.Lib.Shared
import HideProtocol.Mls.Binding

/-!
# The identity provider of a group

The provider decides who may be a member. It takes a credential apart, verifies that the device's
key vouches for the MLS key, and asks the membership it holds whether the identity trusts the
device. All clones of a provider share their membership, so a newer one reaches the copy inside a
long-lived client.

mls-rs is third-party code: the key pair it generates is an argument, and so is the signature key
it presents a credential with.
-/

namespace HideProtocol.Mls

open Lib Sign Identity

inductive MlsError where
  | untrustedDevice
  | messageTooLarge
  | untrustedSender
  | notADeviceCredential
  | forgedCredential
  | protocol (message : String)
deriving DecidableEq, Repr

def maxMlsMessage : ℕ := 1024 * 1024

/-- The text of an error, piece by piece. -/
def MlsError.pieces : MlsError → List String
  | untrustedDevice => ["this device is not trusted by the identity"]
  | messageTooLarge => ["the message is larger than ", toString maxMlsMessage, " bytes"]
  | untrustedSender => ["the message came from a device the identity does not trust"]
  | notADeviceCredential => ["the credential is not a HIDE device binding"]
  | forgedCredential => ["the credential's binding signature does not verify"]
  | protocol message => ["MLS: ", message]

def MlsError.display (error : MlsError) : String := String.join error.pieces

/-- `hide_sign::SigningIdentity`, apart from the MLS notion of that name. -/
abbrev HideSigner := Sign.SigningIdentity

/-- Private-use credential type carrying a HIDE device binding. -/
def hideCredential : UInt16 := 0xF01D

def deviceIdLen : ℕ := 32

def credentialLen : ℕ := deviceIdLen + verifyingKeyLength + signatureLength

/-- The credentials MLS knows. -/
inductive Credential where
  | basic (identifier : Bytes)
  | x509 (chain : List Bytes)
  | custom (credentialType : UInt16) (data : Bytes)
deriving DecidableEq, Repr

def Credential.asCustom : Credential → Option (UInt16 × Bytes)
  | custom credentialType data => some (credentialType, data)
  | _ => none

/-- A credential and the MLS key it is presented with. -/
structure SigningIdentity where
  credential : Credential
  signatureKey : Bytes
deriving DecidableEq, Repr

/-- A parsed HIDE credential. -/
structure Binding (P : Primitives) where
  device : DeviceId
  key : VerifyingIdentity P
  signature : Vector UInt8 signatureLength
deriving DecidableEq

section
variable (sha256 : Bytes → Hash) (P : Primitives)

def Binding.parse (credential : Credential) : Except MlsError (Binding P) := do
  let (_, data) ← okOr (credential.asCustom.filter fun custom => custom.1 = hideCredential)
    .notADeviceCredential
  failIf (data.length ≠ credentialLen) .notADeviceCredential
  let device ← okOr (tryInto 32 (data.take deviceIdLen)) .notADeviceCredential
  let key ← mapErr (fun _ => .notADeviceCredential)
    (VerifyingIdentity.fromBytes P ((data.drop deviceIdLen).take verifyingKeyLength))
  let signature ← okOr (tryInto signatureLength (data.drop (deviceIdLen + verifyingKeyLength)))
    .notADeviceCredential
  -- the id must be the hash of the key it travels with
  failIf (deviceId sha256 key ≠ device) .forgedCredential
  pure { device, key, signature }

variable {P}

/-- The signature must cover this MLS key. -/
def Binding.verify (self : Binding P) (mlsPublicKey : Bytes) : Except MlsError Unit :=
  mapErr (fun _ => .forgedCredential) (self.key.verify bindingContext
    (bindingMessage self.device mlsPublicKey) self.signature.toList)

/-- Validates a roster entry against the membership the provider holds. -/
def validate (membership : Membership P) (signing : SigningIdentity) : Except MlsError Unit := do
  let binding ← Binding.parse sha256 P signing.credential
  binding.verify signing.signatureKey
  let trusted ← okOr (membership.get binding.device) .untrustedDevice
  -- the log's key for this device is the authority
  failIf (trusted.key ≠ binding.key) .forgedCredential

/-- Only the same device may replace itself, and it must pass validation. -/
def validSuccessor (membership : Membership P) (predecessor successor : SigningIdentity) :
    Except MlsError Bool := do
  let a ← Binding.parse sha256 P predecessor.credential
  let b ← Binding.parse sha256 P successor.credential
  if a.device ≠ b.device then pure false
  else pure (validate sha256 membership successor).isOk

/-- The signing identity of the client for one device. `generated` is what the cipher suite
answers when it is asked for a key pair, if it is available at all. -/
def clientWithProvider (membership : Membership P) (device : HideSigner)
    (generated : Option (Except String Bytes)) : Except MlsError SigningIdentity := do
  let id := deviceId sha256 (device.verifyingKey P)
  failIf (!membership.contains id) .untrustedDevice
  let generated ← okOr generated (.protocol "the cipher suite is unavailable in this build")
  let mlsPublicKey ← mapErr MlsError.protocol generated
  pure {
    credential := .custom hideCredential (credentialData sha256 P device mlsPublicKey)
    signatureKey := mlsPublicKey }

end

/-! ## Credentials -/

section
variable {sha256 : Bytes → Hash} {P : Primitives}

/-- The layout of a credential. -/
def Binding.bytes (self : Binding P) : Bytes :=
  self.device.toList ++ self.key.toBytes.toList ++ self.signature.toList

/-- What `parse` accepts: HIDE credentials of this layout whose id is that of the key. -/
theorem Binding.parse_eq_ok {credential : Credential} {binding : Binding P} :
    Binding.parse sha256 P credential = .ok binding ↔
      credential = .custom hideCredential binding.bytes ∧
        deviceId sha256 binding.key = binding.device := by
  simp only [Binding.parse, bind_eq_ok, okOr_eq_ok, failIf_eq_ok, mapErr_eq_ok, pure_eq_ok, not_not]
  constructor
  · rintro ⟨⟨kind, data⟩, hcustom, _, -, device, hdevice, key, hkey, signature, hsignature, _, hid,
      rfl⟩
    obtain ⟨hcustom, hkind⟩ := Option.filter_eq_some_iff.mp hcustom
    have hkind : kind = hideCredential := of_decide_eq_true hkind
    refine ⟨?_, hid⟩
    have hdata : data = device.toList ++ key.toBytes.toList ++ signature.toList := by
      rw [← tryInto_eq_some hdevice, VerifyingIdentity.toBytes_fromBytes hkey,
        ← tryInto_eq_some hsignature, ← List.drop_drop, List.append_assoc,
        List.take_append_drop, List.take_append_drop]
    cases credential with
    | custom credentialType bytes =>
      cases hcustom
      rw [hkind, hdata]
      rfl
    | basic _ => cases hcustom
    | x509 _ => cases hcustom
  · rintro ⟨rfl, hid⟩
    have hdevice : binding.device.toList.length = deviceIdLen := Vector.length_toList
    have hkey : binding.key.toBytes.toList.length = verifyingKeyLength := Vector.length_toList
    have hsignature : binding.signature.toList.length = signatureLength := Vector.length_toList
    have hlen : binding.bytes.length = credentialLen := by
      unfold Binding.bytes credentialLen
      rw [List.length_append, List.length_append, hdevice, hkey, hsignature]
    have htake : binding.bytes.take deviceIdLen = binding.device.toList := by
      rw [Binding.bytes, List.append_assoc, List.take_left' hdevice]
    have hdrop : binding.bytes.drop deviceIdLen =
        binding.key.toBytes.toList ++ binding.signature.toList := by
      rw [Binding.bytes, List.append_assoc, List.drop_left' hdevice]
    refine ⟨(hideCredential, binding.bytes), by simp [Credential.asCustom, Option.filter], (), hlen,
      binding.device, by rw [htake, tryInto_toList], binding.key, ?_, binding.signature, ?_, (), hid,
      rfl⟩
    · rw [hdrop, List.take_left' hkey, VerifyingIdentity.fromBytes_toBytes]
    · rw [← List.drop_drop, hdrop, List.drop_left' hkey, tryInto_toList]

/-- What `validate` checks. -/
theorem validate_eq_ok {membership : Membership P} {signing : SigningIdentity} :
    validate sha256 membership signing = .ok () ↔
      ∃ binding : Binding P, signing.credential = .custom hideCredential binding.bytes ∧
        deviceId sha256 binding.key = binding.device ∧
        binding.key.verify bindingContext (bindingMessage binding.device signing.signatureKey)
          binding.signature.toList = .ok () ∧
        ∃ trusted, membership.get binding.device = some trusted ∧ trusted.key = binding.key := by
  simp only [validate, Binding.verify, bind_eq_ok, Binding.parse_eq_ok, mapErr_eq_ok, okOr_eq_ok,
    failIf_eq_ok, not_not]
  constructor
  · rintro ⟨binding, ⟨hcredential, hid⟩, _, hverify, trusted, hget, hkey⟩
    exact ⟨binding, hcredential, hid, hverify, trusted, hget, hkey⟩
  · rintro ⟨binding, hcredential, hid, hverify, trusted, hget, hkey⟩
    exact ⟨binding, ⟨hcredential, hid⟩, (), hverify, trusted, hget, hkey⟩

/-- A layout has one reading. -/
theorem Binding.bytes_inj {binding binding' : Binding P} (h : binding.bytes = binding'.bytes) :
    binding = binding' := by
  simp only [Binding.bytes, List.append_assoc] at h
  obtain ⟨hdevice, h⟩ := selfDelimiting_vector 32 _ _ _ _ trivial trivial h
  obtain ⟨hkey, h⟩ := selfDelimiting_vector verifyingKeyLength _ _ _ _ trivial trivial h
  cases binding
  cases binding'
  rw [Binding.mk.injEq]
  exact ⟨hdevice, VerifyingIdentity.toBytes_inj hkey, Vector.toList_inj.mp h⟩

end

/-! ## Ideal signatures -/

/-- `made` are the messages that were signed in the binding context. No two of them have one
signature. -/
def SignedApart (P : Primitives) (made : HideSigner → Bytes → Prop) : Prop :=
  ∀ signer signer' message message', made signer message → made signer' message' →
    signer.sign P bindingContext message = signer'.sign P bindingContext message' →
      message = message'

/-- The credential was not forged: if its signature verifies, over the device and the MLS key it is
presented with, it is one that was made. -/
def Unforged (P : Primitives) (made : HideSigner → Bytes → Prop) (signing : SigningIdentity) :
    Prop :=
  ∀ binding : Binding P, signing.credential = .custom hideCredential binding.bytes →
    binding.key.verify bindingContext (bindingMessage binding.device signing.signatureKey)
      binding.signature.toList = .ok () →
    ∃ signer, made signer (bindingMessage binding.device signing.signatureKey) ∧
      binding.key = signer.verifyingKey P ∧
      binding.signature =
        signer.sign P bindingContext (bindingMessage binding.device signing.signatureKey)

section
variable {sha256 : Bytes → Hash} {P : Primitives} {made : HideSigner → Bytes → Prop}

variable (sha256 made) in
/-- A device of the membership, with an MLS key of its own: the credential names it with the key
the membership records, which hashes to its id, and that key signed for this id and MLS key. -/
def TrustedMember (membership : Membership P) (signing : SigningIdentity) : Prop :=
  ∃ (binding : Binding P) (signer : HideSigner),
    signing.credential = .custom hideCredential binding.bytes ∧
    (∃ trusted, membership.get binding.device = some trusted ∧ trusted.key = binding.key) ∧
    deviceId sha256 binding.key = binding.device ∧
    binding.key = signer.verifyingKey P ∧
    made signer (bindingMessage binding.device signing.signatureKey) ∧
    binding.signature =
      signer.sign P bindingContext (bindingMessage binding.device signing.signatureKey)

theorem validate_iff_trustedMember (hP : P.Correct) {membership : Membership P}
    {signing : SigningIdentity} (hunforged : Unforged P made signing) :
    validate sha256 membership signing = .ok () ↔
      TrustedMember sha256 made membership signing := by
  rw [validate_eq_ok]
  constructor
  · rintro ⟨binding, hcredential, hid, hverify, htrusted⟩
    obtain ⟨signer, hmade, hkey, hsignature⟩ := hunforged binding hcredential hverify
    exact ⟨binding, signer, hcredential, htrusted, hid, hkey, hmade, hsignature⟩
  · rintro ⟨binding, signer, hcredential, htrusted, hid, hkey, -, hsignature⟩
    refine ⟨binding, hcredential, hid, ?_, htrusted⟩
    rw [hkey, hsignature]
    exact verify_sign hP _ _ _

/-- A credential that validates with one MLS key does not validate with another. -/
theorem signatureKey_of_validate (hP : P.Correct) (hapart : SignedApart P made)
    {membership membership' : Membership P} {credential : Credential} {mlsKey mlsKey' : Bytes}
    (hunforged : Unforged P made ⟨credential, mlsKey⟩)
    (hunforged' : Unforged P made ⟨credential, mlsKey'⟩)
    (h : validate sha256 membership ⟨credential, mlsKey⟩ = .ok ())
    (h' : validate sha256 membership' ⟨credential, mlsKey'⟩ = .ok ()) : mlsKey = mlsKey' := by
  obtain ⟨binding, signer, hcredential, -, -, -, hmade, hsignature⟩ :=
    (validate_iff_trustedMember hP hunforged).mp h
  obtain ⟨binding', signer', hcredential', -, -, -, hmade', hsignature'⟩ :=
    (validate_iff_trustedMember hP hunforged').mp h'
  have hbytes : binding.bytes = binding'.bytes := by
    have hsame := hcredential.symm.trans hcredential'
    exact (Credential.custom.inj hsame).2
  obtain rfl := Binding.bytes_inj hbytes
  have hmessage := hapart _ _ _ _ hmade hmade' (hsignature.symm.trans hsignature')
  exact (bindingMessage_inj hmessage).2

theorem validSuccessor_eq_true {membership : Membership P} {predecessor successor : SigningIdentity}
    (h : validSuccessor sha256 membership predecessor successor = .ok true) :
    (∃ a b : Binding P, Binding.parse sha256 P predecessor.credential = .ok a ∧
      Binding.parse sha256 P successor.credential = .ok b ∧ a.device = b.device) ∧
    validate sha256 membership successor = .ok () := by
  simp only [validSuccessor, bind_eq_ok] at h
  obtain ⟨a, ha, b, hb, h⟩ := h
  split at h
  · cases h
  · next hsame =>
    refine ⟨⟨a, b, ha, hb, not_not.mp hsame⟩, ?_⟩
    rcases hvalid : validate sha256 membership successor with error | _
    · rw [hvalid] at h
      cases h
    · rfl

end

/-! ## Clones and updates -/

section
variable (sha256 : Bytes → Hash) {P : Primitives}

/-- `validate` on a clone of a provider, by the membership all its clones share. -/
def validateOn (providers : Shared (Membership P)) (clone : ℕ) (signing : SigningIdentity) :
    Option (Except MlsError Unit) :=
  (providers.read clone).map fun membership => validate sha256 membership signing

def validSuccessorOn (providers : Shared (Membership P)) (clone : ℕ)
    (predecessor successor : SigningIdentity) : Option (Except MlsError Bool) :=
  (providers.read clone).map fun membership =>
    validSuccessor sha256 membership predecessor successor

def clientWithProviderOn (providers : Shared (Membership P)) (clone : ℕ) (device : HideSigner)
    (generated : Option (Except String Bytes)) : Option (Except MlsError SigningIdentity) :=
  (providers.read clone).map fun membership =>
    clientWithProvider sha256 membership device generated

/-- The fields of a membership are private: it is the default, or the result of a replay. -/
def Replayed (membership : Membership P) : Prop :=
  membership = {} ∨ ∃ entries recovery, replay sha256 entries recovery = .ok membership

variable {sha256}

/-- A membership lists a device under the id of its key. -/
theorem id_of_replayed {membership : Membership P} (h : Replayed sha256 membership) {id : DeviceId}
    {device : Device P} (hget : membership.get id = some device) :
    deviceId sha256 device.key = id := by
  rcases h with rfl | ⟨entries, recovery, hreplay⟩
  · simp [Membership.get] at hget
  · obtain ⟨hid, hkey, -⟩ := (books_of_accepted hreplay).1.enrolled id device hget
    rw [← hkey, hid]

/-- The credential a device makes for an MLS key. -/
def clientBinding (sha256 : Bytes → Hash) (P : Primitives) (device : HideSigner) (mlsKey : Bytes) :
    Binding P :=
  let id := deviceId sha256 (device.verifyingKey P)
  { device := id, key := device.verifyingKey P
    signature := device.sign P bindingContext (bindingMessage id mlsKey) }

/-- The data of a client's credential is laid out as the reader expects it. -/
theorem bytes_clientBinding (device : HideSigner) (mlsKey : Bytes) :
    (clientBinding sha256 P device mlsKey).bytes = credentialData sha256 P device mlsKey := rfl

/-- Who gets a client: a member, once the cipher suite has a key pair for it. -/
theorem clientWithProvider_eq_ok {membership : Membership P} {device : HideSigner}
    {generated : Option (Except String Bytes)} {signing : SigningIdentity} :
    clientWithProvider sha256 membership device generated = .ok signing ↔
      membership.contains (deviceId sha256 (device.verifyingKey P)) = true ∧
      ∃ mlsKey, generated = some (.ok mlsKey) ∧
        signing = { credential := .custom hideCredential (clientBinding sha256 P device mlsKey).bytes
                    signatureKey := mlsKey } := by
  simp only [clientWithProvider, bind_eq_ok, pure_eq_ok, failIf_eq_ok, okOr_eq_ok, mapErr_eq_ok,
    Bool.not_eq_true', Bool.not_eq_false, bytes_clientBinding]
  constructor
  · rintro ⟨_, hmember, answer, hgenerated, mlsKey, hkey, hsigning⟩
    rw [hkey] at hgenerated
    exact ⟨hmember, mlsKey, hgenerated, hsigning⟩
  · rintro ⟨hmember, mlsKey, hgenerated, hsigning⟩
    exact ⟨(), hmember, _, hgenerated, mlsKey, rfl, hsigning⟩

/-- The credential of a client validates exactly while its device is listed, unless the key that is
listed collides with the device's own. -/
theorem validate_client (hP : P.Correct) {membership : Membership P}
    (hreplayed : Replayed sha256 membership) {device : HideSigner} {mlsKey : Bytes} :
    (validate sha256 membership
        ⟨.custom hideCredential (clientBinding sha256 P device mlsKey).bytes, mlsKey⟩ = .ok () ↔
      membership.contains (deviceId sha256 (device.verifyingKey P)) = true) ∨
    ∃ trusted, membership.get (deviceId sha256 (device.verifyingKey P)) = some trusted ∧
      Collides sha256 [deviceIdInput (device.verifyingKey P), deviceIdInput trusted.key] := by
  rcases htrusted : membership.get (deviceId sha256 (device.verifyingKey P)) with _ | trusted
  · left
    rw [contains_eq_isSome, htrusted, validate_eq_ok]
    constructor
    · rintro ⟨found, hcredential, -, -, trusted, hfound, -⟩
      obtain rfl := Binding.bytes_inj (Credential.custom.inj hcredential).2
      rw [clientBinding, htrusted] at hfound
      cases hfound
    · intro hnone
      cases hnone
  · by_cases hkey : trusted.key = device.verifyingKey P
    · left
      rw [contains_eq_isSome, htrusted, validate_eq_ok]
      refine ⟨fun _ => rfl, fun _ => ?_⟩
      exact ⟨clientBinding sha256 P device mlsKey, rfl, rfl, verify_sign hP _ _ _, trusted, htrusted,
        hkey⟩
    · right
      refine ⟨trusted, rfl, deviceIdInput (device.verifyingKey P), by simp,
        deviceIdInput trusted.key, by simp, ?_, (id_of_replayed hreplayed htrusted).symm⟩
      intro hinput
      exact hkey (deviceIdInput_inj hinput).symm

end

/-- **Members are the currently trusted devices.** Whatever providers are created, cloned and
updated, in whatever order, and whatever the latest membership of a clone is:

* `validate` accepts exactly the trusted members of it;
* a credential that it accepts is refused with any other MLS key;
* `validSuccessor` accepts only another credential of the same device that validates;
* a device gets a client exactly if the provider it asks lists it and the cipher suite has a key
  pair for it; and the credential of the client validates exactly while the device is in the
  membership, up to a collision of the digest that ids are made with.

Signatures are ideal where it matters: no two messages that were signed have one signature, and the
signatures that were not made do not verify in the credentials the first two parts are about. -/
theorem members_are_trusted_devices (sha256 : Bytes → Hash) (P : Primitives) (hP : P.Correct)
    (made : HideSigner → Bytes → Prop) (hapart : SignedApart P made) :
    ∀ (calls : List (Shared.Call (Membership P))) (clone : ℕ) (membership : Membership P),
      Shared.Latest calls clone membership →
      (∀ signing, Unforged P made signing →
        (validateOn sha256 (Shared.run calls) clone signing = some (.ok ()) ↔
          TrustedMember sha256 made membership signing)) ∧
      (∀ credential mlsKey mlsKey', Unforged P made ⟨credential, mlsKey⟩ →
        Unforged P made ⟨credential, mlsKey'⟩ →
        validateOn sha256 (Shared.run calls) clone ⟨credential, mlsKey⟩ = some (.ok ()) →
        mlsKey' ≠ mlsKey →
        ∃ error, validateOn sha256 (Shared.run calls) clone ⟨credential, mlsKey'⟩ =
          some (.error error)) ∧
      (∀ predecessor successor,
        validSuccessorOn sha256 (Shared.run calls) clone predecessor successor = some (.ok true) →
        (∃ a b : Binding P, Binding.parse sha256 P predecessor.credential = .ok a ∧
          Binding.parse sha256 P successor.credential = .ok b ∧ a.device = b.device) ∧
        validateOn sha256 (Shared.run calls) clone successor = some (.ok ())) ∧
      (∀ (earlier : List (Shared.Call (Membership P))) (clone' : ℕ) (before : Membership P),
        Shared.Latest earlier clone' before →
        ∀ (device : HideSigner) (generated : Option (Except String Bytes)),
        ((∃ signing, clientWithProviderOn sha256 (Shared.run earlier) clone' device generated =
            some (.ok signing)) ↔
          before.contains (deviceId sha256 (device.verifyingKey P)) = true ∧
            ∃ mlsKey, generated = some (.ok mlsKey)) ∧
        ∀ signing, clientWithProviderOn sha256 (Shared.run earlier) clone' device generated =
            some (.ok signing) →
          Replayed sha256 membership →
          (validateOn sha256 (Shared.run calls) clone signing = some (.ok ()) ↔
              membership.contains (deviceId sha256 (device.verifyingKey P)) = true) ∨
            ∃ trusted, membership.get (deviceId sha256 (device.verifyingKey P)) = some trusted ∧
              Collides sha256 [deviceIdInput (device.verifyingKey P), deviceIdInput trusted.key]) := by
  intro calls clone membership hlatest
  have hread := Shared.read_run.mpr hlatest
  -- a clone sees the latest membership
  have hon : ∀ signing, validateOn sha256 (Shared.run calls) clone signing =
      some (validate sha256 membership signing) := by
    intro signing
    rw [validateOn, hread, Option.map_some]
  refine ⟨?_, ?_, ?_, ?_⟩
  · intro signing hunforged
    rw [hon, Option.some.injEq]
    exact validate_iff_trustedMember hP hunforged
  · intro credential mlsKey mlsKey' hunforged hunforged' hvalid hne
    rw [hon, Option.some.injEq] at hvalid
    rw [hon]
    rcases hother : validate sha256 membership ⟨credential, mlsKey'⟩ with error | _
    · exact ⟨error, rfl⟩
    · exact absurd (signatureKey_of_validate hP hapart hunforged' hunforged hother hvalid) hne
  · intro predecessor successor hsuccessor
    rw [validSuccessorOn, hread, Option.map_some, Option.some.injEq] at hsuccessor
    obtain ⟨hsame, hvalid⟩ := validSuccessor_eq_true hsuccessor
    exact ⟨hsame, by rw [hon, hvalid]⟩
  · intro earlier clone' before hbefore device generated
    rw [clientWithProviderOn, Shared.read_run.mpr hbefore, Option.map_some]
    simp only [Option.some.injEq, clientWithProvider_eq_ok]
    refine ⟨⟨?_, ?_⟩, ?_⟩
    · rintro ⟨_, hmember, mlsKey, hgenerated, -⟩
      exact ⟨hmember, mlsKey, hgenerated⟩
    · rintro ⟨hmember, mlsKey, hgenerated⟩
      exact ⟨_, hmember, mlsKey, hgenerated, rfl⟩
    · rintro _ ⟨-, mlsKey, -, rfl⟩ hreplayed
      rw [hon, Option.some.injEq]
      exact validate_client hP hreplayed

/-! ## The sample identity in a group -/

namespace Sample

open Identity.Sample (digest identity device key log)

/-- The credentials the devices of the sample identity made. -/
def made (signer : HideSigner) (message : Bytes) : Prop :=
  ∃ n : UInt8, signer = identity n ∧ message = bindingMessage (device n) [9]

def binding (n : UInt8) : Binding Primitives.keyed :=
  clientBinding digest Primitives.keyed (identity n) [9]

/-- Device `n`, with an MLS key. -/
def signing (n : UInt8) (mlsKey : Bytes) : SigningIdentity :=
  { credential := .custom hideCredential (binding n).bytes, signatureKey := mlsKey }

theorem device_binding (n : UInt8) : (binding n).device = device n :=
  Identity.Sample.deviceId_identity n

theorem parse_signing (n : UInt8) (mlsKey : Bytes) :
    Binding.parse digest Primitives.keyed (signing n mlsKey).credential = .ok (binding n) :=
  Binding.parse_eq_ok.mpr ⟨rfl, rfl⟩

theorem signedApart : SignedApart Primitives.keyed made := by
  rintro _ _ _ _ ⟨n, rfl, rfl⟩ ⟨m, rfl, rfl⟩ hsign
  have hlist := congrArg Vector.toList hsign
  rw [toList_sign, toList_sign] at hlist
  have hed := Vector.toList_inj.mp
    (List.append_inj hlist (by rw [Vector.length_toList, Vector.length_toList])).1
  have hseed := keyedTag_inj (by decide) Vector.length_toList Vector.length_toList hed
  have hdevice : device n = device m := Vector.toList_inj.mp hseed
  rw [hdevice]

/-- The signature of a device says how long the MLS key was. -/
theorem length_of_verify_signing {n : UInt8} {mlsKey : Bytes}
    (h : (binding n).key.verify bindingContext (bindingMessage (binding n).device mlsKey)
      (binding n).signature.toList = .ok ()) :
    UInt8.ofNat (Sign.bind bindingContext (bindingMessage (device n) [9])).length =
      UInt8.ofNat (Sign.bind bindingContext (bindingMessage (device n) mlsKey)).length := by
  obtain ⟨ed, ml, hhalves, hed, -⟩ := verify_eq_ok.mp h
  have hsignature : (binding n).signature =
      (identity n).sign Primitives.keyed bindingContext (bindingMessage (binding n).device [9]) := rfl
  rw [hsignature, toList_sign] at hhalves
  have hhalf := Vector.toList_inj.mp
    (List.append_inj hhalves (by rw [Vector.length_toList, Vector.length_toList])).1
  have htag : ed = keyedTag ed25519SignatureLen (identity n).seed.toList
      (Sign.bind bindingContext (bindingMessage (binding n).device mlsKey)) := eq_of_beq hed
  rw [← hhalf, device_binding] at htag
  exact length_of_keyedTag (by decide) Vector.length_toList htag

theorem unforged (n : UInt8) : Unforged Primitives.keyed made (signing n [9]) := by
  intro found hcredential _
  obtain rfl : binding n = found := Binding.bytes_inj (Credential.custom.inj hcredential).2
  exact ⟨identity n, ⟨n, rfl, by rw [device_binding]; rfl⟩, rfl, rfl⟩

/-- Nobody signed for a longer MLS key, and the signature does not verify with one. -/
theorem unforged_lifted (n : UInt8) : Unforged Primitives.keyed made (signing n [9, 9]) := by
  intro found hcredential hverify
  obtain rfl : binding n = found := Binding.bytes_inj (Credential.custom.inj hcredential).2
  have hlen := length_of_verify_signing hverify
  have hcontext : bindingContext.length = 20 := by decide
  simp only [Sign.bind, lenPrefixed, length_beBytes, bindingMessage, List.length_append, hcontext,
    Vector.length_toList, List.length_cons, List.length_nil, signing] at hlen
  exact absurd hlen (by decide)

section
variable {α : Type} (a b c : α)

theorem latest_create : Shared.Latest [.create a, .clone 0] 1 a :=
  ⟨0, rfl, [], .create a, [.clone 0], rfl, rfl, by
    intro seen later rest hrest
    obtain ⟨rfl, rfl⟩ : seen = [] ∧ later = .clone 0 := by
      rcases seen with _ | ⟨first, seen⟩
      · exact ⟨rfl, (List.cons.inj hrest).1.symm⟩
      · cases seen <;> simp at hrest
    rfl⟩

theorem latest_write : Shared.Latest [.create a, .clone 0, .write 0 b] 1 b :=
  ⟨0, rfl, [.create a, .clone 0], .write 0 b, [], rfl, rfl, by simp⟩

theorem latest_write_clone : Shared.Latest [.create a, .clone 0, .write 0 b, .write 1 c] 0 c :=
  ⟨0, rfl, [.create a, .clone 0, .write 0 b], .write 1 c, [], rfl, rfl, by simp⟩

end

/-- The membership that the first `n` calls leave. -/
def membership (n : ℕ) : Membership Primitives.keyed := (log n).membership digest

/-- A provider is made when the phone is a member, and cloned. -/
def earlier : List (Shared.Call (Membership Primitives.keyed)) :=
  [.create (membership 3), .clone 0]

/-- The phone enrols the tablet. -/
def grown : List (Shared.Call (Membership Primitives.keyed)) :=
  [.create (membership 3), .clone 0, .write 0 (membership 4)]

/-- The phone revokes itself. -/
def revoked : List (Shared.Call (Membership Primitives.keyed)) :=
  [.create (membership 3), .clone 0, .write 0 (membership 4), .write 1 (membership 5)]

theorem latest_earlier : Shared.Latest earlier 1 (membership 3) := latest_create _

theorem latest_grown : Shared.Latest grown 1 (membership 4) := latest_write _ _

theorem latest_revoked : Shared.Latest revoked 0 (membership 5) := latest_write_clone _ _ _

theorem replayed (n : ℕ) : Replayed digest (membership n) :=
  Or.inr ⟨(log n).entries, key 9, Identity.Sample.replay_log n⟩

theorem not_collides {n : ℕ} (hn : n ≤ 6) {m : UInt8} {trusted : Device Primitives.keyed}
    (h : (membership n).get (device m) = some trusted) :
    ¬Collides digest [deviceIdInput ((identity m).verifyingKey Primitives.keyed),
      deviceIdInput trusted.key] := by
  rw [Identity.Sample.key_of_get hn h]
  exact not_collides_self

end Sample

/-- The theorem at the sample identity: the phone gets a client when it is a member and not after it
has revoked itself. Its credential validates on the other clone when the log has grown, with its own
MLS key only and as the successor of no other device, and not after the revocation. -/
theorem members_are_trusted_devices_phone :
    clientWithProviderOn Sample.digest (Shared.run Sample.earlier) 1 (Sample.identity 2)
      (some (.ok [9])) = some (.ok (Sample.signing 2 [9])) ∧
    (∀ signing, clientWithProviderOn Sample.digest (Shared.run Sample.revoked) 0 (Sample.identity 2)
      (some (.ok [9])) ≠ some (.ok signing)) ∧
    validateOn Sample.digest (Shared.run Sample.grown) 1 (Sample.signing 2 [9]) = some (.ok ()) ∧
    TrustedMember Sample.digest Sample.made (Sample.membership 4) (Sample.signing 2 [9]) ∧
    (∃ error, validateOn Sample.digest (Shared.run Sample.grown) 1 (Sample.signing 2 [9, 9]) =
      some (.error error)) ∧
    validSuccessorOn Sample.digest (Shared.run Sample.grown) 1 (Sample.signing 3 [9])
      (Sample.signing 2 [9]) ≠ some (.ok true) ∧
    validateOn Sample.digest (Shared.run Sample.revoked) 0 (Sample.signing 2 [9]) ≠
      some (.ok ()) := by
  have hall := members_are_trusted_devices Sample.digest Primitives.keyed Primitives.keyed_correct
    Sample.made Sample.signedApart
  have ⟨htrusted, hlifted, hsuccessor, hclients⟩ := hall Sample.grown 1 (Sample.membership 4)
    Sample.latest_grown
  have ⟨_, _, _, hrevoked⟩ := hall Sample.revoked 0 (Sample.membership 5)
    Sample.latest_revoked
  have hid : deviceId Sample.digest ((Sample.identity 2).verifyingKey Primitives.keyed) =
      Sample.device 2 := Sample.deviceId_identity 2
  have hmember : (Sample.membership 3).contains (Sample.device 2) = true :=
    (Sample.contains_phone (by omega)).mpr (Or.inr (Or.inl rfl))
  have hmember' : (Sample.membership 4).contains (Sample.device 2) = true :=
    (Sample.contains_phone (by omega)).mpr (Or.inr (Or.inr rfl))
  have hgone : (Sample.membership 5).contains (Sample.device 2) ≠ true := by
    intro h
    have := (Sample.contains_phone (by omega)).mp h
    omega
  -- the client that was made before both updates
  have ⟨hcreated, hstanding⟩ := hclients Sample.earlier 1 (Sample.membership 3)
    Sample.latest_earlier (Sample.identity 2) (some (.ok [9]))
  have ⟨_, hstanding'⟩ := hrevoked Sample.earlier 1 (Sample.membership 3)
    Sample.latest_earlier (Sample.identity 2) (some (.ok [9]))
  have hclient : clientWithProviderOn Sample.digest (Shared.run Sample.earlier) 1
      (Sample.identity 2) (some (.ok [9])) = some (.ok (Sample.signing 2 [9])) := by
    obtain ⟨made, hmade⟩ := hcreated.mpr ⟨by rw [hid]; exact hmember, _, rfl⟩
    rw [hmade]
    rw [clientWithProviderOn, Shared.read_run.mpr Sample.latest_earlier, Option.map_some,
      Option.some.injEq, clientWithProvider_eq_ok] at hmade
    obtain ⟨-, mlsKey, hkey, rfl⟩ := hmade
    rw [Option.some.injEq, Except.ok.injEq] at hkey
    rw [← hkey]
    rfl
  have hvalid : validateOn Sample.digest (Shared.run Sample.grown) 1 (Sample.signing 2 [9]) =
      some (.ok ()) := by
    rcases hstanding _ hclient (Sample.replayed 4) with hiff | ⟨trusted, hget, hc⟩
    · exact hiff.mpr (by rw [hid]; exact hmember')
    · rw [hid] at hget
      exact absurd hc (Sample.not_collides (by omega) hget)
  refine ⟨hclient, ?_, hvalid, (htrusted _ (Sample.unforged 2)).mp hvalid,
    hlifted _ [9] [9, 9] (Sample.unforged 2) (Sample.unforged_lifted 2) hvalid (by decide), ?_, ?_⟩
  · intro signing hsome
    have ⟨hcreated', _⟩ := hrevoked Sample.revoked 0 (Sample.membership 5)
      Sample.latest_revoked (Sample.identity 2) (some (.ok [9]))
    have ⟨hin, _⟩ := hcreated'.mp ⟨signing, hsome⟩
    rw [hid] at hin
    exact hgone hin
  · intro hok
    have ⟨⟨a, b, ha, hb, hsame⟩, _⟩ := hsuccessor _ _ hok
    rw [Sample.parse_signing, Except.ok.injEq] at ha hb
    rw [← ha, ← hb, Sample.device_binding, Sample.device_binding, Sample.device_inj] at hsame
    exact absurd hsame (by decide)
  · intro hok
    rcases hstanding' _ hclient (Sample.replayed 5) with hiff | ⟨trusted, hget, hc⟩
    · have hin := hiff.mp hok
      rw [hid] at hin
      exact hgone hin
    · rw [hid] at hget
      exact Sample.not_collides (by omega) hget hc

end HideProtocol.Mls
