import HideProtocol.Identity.Bindings
import HideProtocol.Identity.History
import HideProtocol.Mls.Binding
import HideProtocol.Object.SignatureBinding
import HideProtocol.Sign.Challenge
import HideProtocol.Transparency.CheckpointTheorems

/-!
# Roles

One identity signs containers, log entries, bindings, checkpoints, challenges and MLS keys. Each
of these is a role with a context of its own. A signature is made over `bind context message`, so
it crosses from one role into another only if two payloads are equal.

* Payloads of two operations are equal only in one role, and then the messages are equal.
* No payload of an application is one of these: their contexts are all reserved.
* In each role the message determines what was signed.
-/

namespace HideProtocol.Sign

open Lib Identity Object Transparency

inductive Role where
  | container
  | legacyContainer
  | identityEntry
  | recoveryBinding
  | epochBinding
  | checkpoint
  | challenge
  | mlsBinding
deriving DecidableEq, Repr

def Role.context : Role → Bytes
  | container => signingContextBytes
  | legacyContainer => legacySigningContext
  | identityEntry => entryContext
  | recoveryBinding => recoveryBindingContext
  | epochBinding => epochBindingContext
  | checkpoint => checkpointContext
  | challenge => challengeContext
  | mlsBinding => Mls.bindingContext

/-- What a container signature is made from. Every `Vec` has a length that fits a `u64`. -/
structure SignedContainer where
  preamble : Format.Preamble
  header : Format.ProtectedHeader
  metadataBase : Bytes
  plaintextHash : Crypto.Key
  plaintextLen : UInt64
  fits : Fits header
  base_lt : metadataBase.length < 2 ^ 64

def SignedContainer.message (signed : SignedContainer) : Bytes :=
  transcript signed.preamble signed.header signed.metadataBase signed.plaintextHash
    signed.plaintextLen.toNat

/-- Two containers agree in everything a signature commits to. -/
def SignedContainer.Same (signed signed' : SignedContainer) : Prop :=
  signed.preamble.minor = signed'.preamble.minor ∧
    signed.preamble.flags = signed'.preamble.flags ∧
    signed.header.objectId = signed'.header.objectId ∧
    signed.header.recipients.map wire = signed'.header.recipients.map wire ∧
    signed.header.extensions = signed'.header.extensions ∧
    signed.metadataBase = signed'.metadataBase ∧
    signed.plaintextHash = signed'.plaintextHash ∧ signed.plaintextLen = signed'.plaintextLen

/-- The signing operations of the protocol, with their inputs. The log signs the text of its
checkpoint, a witness the text of the note it is given. An entry is signed after its label is
checked, and its device is an encoded key. -/
inductive Operation (P : Primitives) where
  | container (signed : SignedContainer) (h : signed.preamble.isLegacy = false)
  | legacyContainer (signed : SignedContainer) (h : signed.preamble.isLegacy = true)
  | identityEntry (previous : Identity.Hash) (sequence : Sequence) (event : Event) (signer : DeviceId)
      (sized : event.WellSized)
  | recoveryBinding (root : Identity.Hash) (recovery : VerifyingIdentity P)
  | epochBinding (identityRoot identityHead chainHead : Identity.Hash) (epochs : UInt64)
      (signer : DeviceId)
  | checkpoint (checkpoint : Checkpoint) (text : Text) (h : checkpoint.text = .ok text)
  | cosignature (note : SignedNote)
  | challenge (challenge : Challenge)
  | mlsBinding (device : DeviceId) (mlsPublicKey : Bytes)

namespace Operation
variable {P : Primitives}

def role : Operation P → Role
  | container _ _ => .container
  | legacyContainer _ _ => .legacyContainer
  | identityEntry _ _ _ _ _ => .identityEntry
  | recoveryBinding _ _ => .recoveryBinding
  | epochBinding _ _ _ _ _ => .epochBinding
  | checkpoint _ _ _ => .checkpoint
  | cosignature _ => .checkpoint
  | challenge _ => .challenge
  | mlsBinding _ _ => .mlsBinding

def message : Operation P → Bytes
  | container signed _ => signed.message
  | legacyContainer signed _ => signed.message
  | identityEntry previous sequence event signer _ => signedBytes previous sequence event signer
  | recoveryBinding root recovery => recoveryMessage root recovery
  | epochBinding identityRoot identityHead chainHead epochs signer =>
    EpochBinding.message ⟨identityRoot, identityHead, chainHead, epochs, signer, []⟩
  | checkpoint _ text _ => textBytes text
  | cosignature note => textBytes note.text
  | challenge c => c.toSignedBytes
  | mlsBinding device mlsPublicKey => Mls.bindingMessage device mlsPublicKey

/-- What both halves of the identity's key sign. -/
def payload (operation : Operation P) : Bytes := bind operation.role.context operation.message

/-- A container of the HIDE/0.5 form is as minor 2 admits it; nothing is asked of the others. -/
def Admitted : Operation P → Prop
  | legacyContainer signed _ => LegacyShape signed.header
  | _ => True

/-- Two operations sign the same thing: the same version, stanzas, extensions, metadata and
plaintext of a container, the same text of a note, and otherwise the same inputs. -/
def SameStructure : Operation P → Operation P → Prop
  | container signed _, container signed' _ => signed.Same signed'
  | legacyContainer signed _, legacyContainer signed' _ => signed.Same signed'
  | checkpoint c _ _, cosignature note => c.text = .ok note.text
  | cosignature note, checkpoint c _ _ => c.text = .ok note.text
  | cosignature note, cosignature note' => note.text = note'.text
  | operation, operation' => operation = operation'

end Operation

/-! ## Contexts -/

theorem Role.length_context (role : Role) : role.context.length < 2 ^ 64 := by
  cases role <;> decide

theorem Role.context_reserved (role : Role) : isReservedContext role.context = true := by
  cases role <;> decide

theorem Role.context_inj {role role' : Role} (h : role.context = role'.context) : role = role' := by
  cases role <;> cases role' <;> first | rfl | exact absurd h (by decide)

/-! ## Messages -/

theorem recoveryMessage_inj {P : Primitives} {root root' : Identity.Hash}
    {recovery recovery' : VerifyingIdentity P}
    (h : recoveryMessage root recovery = recoveryMessage root' recovery') :
    root = root' ∧ recovery = recovery' := by
  obtain ⟨hroot, hkey⟩ := selfDelimiting_vector 32 _ _ _ _ trivial trivial h
  exact ⟨hroot, VerifyingIdentity.toBytes_inj (Vector.toList_inj.mp hkey)⟩

/-- Everything but the signature. -/
theorem epochMessage_inj {binding binding' : EpochBinding}
    (h : binding.message = binding'.message) :
    binding.identityRoot = binding'.identityRoot ∧ binding.identityHead = binding'.identityHead ∧
      binding.chainHead = binding'.chainHead ∧ binding.epochs = binding'.epochs ∧
      binding.signer = binding'.signer := by
  simp only [EpochBinding.message, List.append_assoc] at h
  obtain ⟨hroot, h⟩ := selfDelimiting_vector 32 _ _ _ _ trivial trivial h
  obtain ⟨hhead, h⟩ := selfDelimiting_vector 32 _ _ _ _ trivial trivial h
  obtain ⟨hchain, h⟩ := selfDelimiting_vector 32 _ _ _ _ trivial trivial h
  obtain ⟨hepochs, hsigner⟩ := selfDelimiting_beBytes 8 _ _ _ _ binding.epochs.toNat_lt
    binding'.epochs.toNat_lt h
  exact ⟨hroot, hhead, hchain, UInt64.toNat_inj.mp hepochs, Vector.toList_inj.mp hsigner⟩

/-- Texts with the same bytes are the same. -/
theorem text_of_textBytes {text text' : Text} (h : textBytes text = textBytes text') :
    text = text' :=
  String.ofList_injective (utf8_inj h)

namespace Operation
variable {P : Primitives}

/-- Equal payloads are payloads of one role, over one message. -/
theorem payload_inj {operation operation' : Operation P}
    (h : operation.payload = operation'.payload) :
    operation.role = operation'.role ∧ operation.message = operation'.message := by
  obtain ⟨hcontext, hmessage⟩ := bind_inj (Role.length_context _) (Role.length_context _) h
  exact ⟨Role.context_inj hcontext, hmessage⟩

/-- A context an application may choose is none of the roles'. -/
theorem bind_ne_payload {context message : Bytes} (operation : Operation P)
    (hlen : context.length < 2 ^ 64) (hfree : isReservedContext context = false) :
    bind context message ≠ operation.payload := by
  intro h
  obtain ⟨hcontext, -⟩ := bind_inj hlen (Role.length_context _) h
  rw [hcontext, Role.context_reserved] at hfree
  cases hfree

/-! ## What a message determines -/

theorem same_of_message {signed signed' : SignedContainer}
    (h : signed.preamble.isLegacy = false) (h' : signed'.preamble.isLegacy = false)
    (hmessage : signed.message = signed'.message) : signed.Same signed' := by
  obtain ⟨hminor, hflags, hid, hrec, hext, hbase, hhash, hlen⟩ := transcript_inj h h' signed.fits
    signed'.fits signed.base_lt signed'.base_lt signed.plaintextLen.toNat_lt
    signed'.plaintextLen.toNat_lt hmessage
  exact ⟨hminor, hflags, hid, hrec, hext, hbase, hhash, UInt64.toNat_inj.mp hlen⟩

theorem same_of_legacyMessage {signed signed' : SignedContainer}
    (h : signed.preamble.isLegacy = true) (h' : signed'.preamble.isLegacy = true)
    (hshape : LegacyShape signed.header) (hshape' : LegacyShape signed'.header)
    (hmessage : signed.message = signed'.message) : signed.Same signed' := by
  obtain ⟨hminor, hflags⟩ := sameVersion_of_transcript (h.trans h'.symm) hmessage
  have hlegacy := hmessage
  simp only [SignedContainer.message, transcript, h, h', if_true] at hlegacy
  obtain ⟨hid, hrec, hbase, hhash, hlen⟩ := legacyTranscript_inj hshape.2 hshape'.2 signed.fits
    signed'.fits signed.base_lt signed'.base_lt signed.plaintextLen.toNat_lt
    signed'.plaintextLen.toNat_lt hlegacy
  have hext : signed.header.extensions = signed'.header.extensions := by
    rw [hshape.1, hshape'.1]
  exact ⟨hminor, hflags, hid, by rw [hrec], hext, hbase, hhash, UInt64.toNat_inj.mp hlen⟩

/-- In each role the message determines what was signed. -/
theorem sameStructure_of_message {operation operation' : Operation P}
    (hadmitted : operation.Admitted) (hadmitted' : operation'.Admitted)
    (hrole : operation.role = operation'.role)
    (hmessage : operation.message = operation'.message) : SameStructure operation operation' := by
  -- equal roles leave one kind of operation, but for checkpoints, whose role cosignatures share
  cases operation with
  | container signed h =>
    cases operation' with
    | container signed' h' => exact same_of_message h h' hmessage
    | _ => cases hrole
  | legacyContainer signed h =>
    cases operation' with
    | legacyContainer signed' h' =>
      exact same_of_legacyMessage h h' hadmitted hadmitted' hmessage
    | _ => cases hrole
  | identityEntry previous sequence event signer sized =>
    cases operation' with
    | identityEntry previous' sequence' event' signer' sized' =>
      obtain ⟨hprevious, hsequence, hevent, hsigner⟩ := signedBytes_inj sized sized' hmessage
      cases hprevious; cases hsequence; cases hevent; cases hsigner
      rfl
    | _ => cases hrole
  | recoveryBinding root recovery =>
    cases operation' with
    | recoveryBinding root' recovery' =>
      obtain ⟨hroot, hrecovery⟩ := recoveryMessage_inj hmessage
      cases hroot; cases hrecovery
      rfl
    | _ => cases hrole
  | epochBinding identityRoot identityHead chainHead epochs signer =>
    cases operation' with
    | epochBinding identityRoot' identityHead' chainHead' epochs' signer' =>
      obtain ⟨hroot, hhead, hchain, hepochs, hsigner⟩ := epochMessage_inj hmessage
      cases hroot; cases hhead; cases hchain; cases hepochs; cases hsigner
      rfl
    | _ => cases hrole
  | checkpoint c text h =>
    cases operation' with
    | checkpoint c' text' h' =>
      have htext : text = text' := text_of_textBytes hmessage
      cases htext
      have hc := Checkpoint.parseText_text h
      rw [Checkpoint.parseText_text h'] at hc
      cases hc
      rfl
    | cosignature note => rw [SameStructure, h, text_of_textBytes hmessage]
    | _ => cases hrole
  | cosignature note =>
    cases operation' with
    | checkpoint c text h => rw [SameStructure, h, text_of_textBytes hmessage]
    | cosignature note' => exact text_of_textBytes hmessage
    | _ => cases hrole
  | challenge c =>
    cases operation' with
    | challenge c' =>
      cases Challenge.toSignedBytes_inj hmessage
      rfl
    | _ => cases hrole
  | mlsBinding device key =>
    cases operation' with
    | mlsBinding device' key' =>
      obtain ⟨hdevice, hkey⟩ := Mls.bindingMessage_inj hmessage
      cases hdevice; cases hkey
      rfl
    | _ => cases hrole

end Operation

/-- Signatures do not cross roles: equal payloads are of one role and one message, an application
signs none of them, and within a role the message determines what was signed. -/
theorem signatures_keep_roles (P : Primitives) :
    (∀ operation operation' : Operation P, operation.payload = operation'.payload →
      operation.role = operation'.role ∧ operation.message = operation'.message) ∧
    (∀ (identity : SigningIdentity) (context message : Bytes)
      (signature : Vector UInt8 signatureLength) (operation : Operation P),
      context.length < 2 ^ 64 → identity.signApplication P context message = .ok signature →
      bind context message ≠ operation.payload) ∧
    (∀ operation operation' : Operation P, operation.Admitted → operation'.Admitted →
      operation.role = operation'.role → operation.message = operation'.message →
      operation.SameStructure operation') := by
  refine ⟨fun _ _ => Operation.payload_inj, ?_, ?_⟩
  · intro identity context message signature operation hlen hsign
    unfold SigningIdentity.signApplication at hsign
    obtain ⟨_, hfree, -⟩ := bind_eq_ok.mp hsign
    rw [failIf_eq_ok, Bool.not_eq_true] at hfree
    exact Operation.bind_ne_payload operation hlen hfree
  · intro operation operation' hadmitted hadmitted' hrole hmessage
    exact Operation.sameStructure_of_message hadmitted hadmitted' hrole hmessage

end HideProtocol.Sign
