import HideProtocol.Identity.BindingTheorems
import HideProtocol.Mls.Provider
import HideProtocol.Sign.Roles
import HideProtocol.Transparency.NoteTheorems

/-!
# What the signers sign

Signatures of the protocol come from a few calls: encryption with a signer, the calls on an
identity log, the creators of bindings, the two signers of a note, the answer to a challenge and
an MLS credential. Whatever one of them leaves behind is the signature of an operation of its role
(`made_signs`). So what is said of payloads holds of every signature the program makes.
-/

namespace HideProtocol.Sign

open Lib Identity Object Transparency

variable {C : Crypto.Primitives} {P : Primitives} {sha256 : Bytes → Identity.Hash}

/-- The signature of an operation: both halves of the key sign its payload. -/
def Operation.signature (operation : Operation P) (identity : SigningIdentity) :
    Vector UInt8 signatureLength :=
  P.edSign (identity.ed25519 P) operation.payload ++ P.mlSign (identity.mlDsa P) operation.payload

/-- The role a container is signed in. -/
def Role.ofPreamble (preamble : Format.Preamble) : Role :=
  if preamble.isLegacy then .legacyContainer else .container

variable (C P sha256) in
/-- The signatures that the calls of the program make with an identity. A caller of `encryptInner`
does not hand in a signature of its own. -/
inductive Made (identity : SigningIdentity) : Role → Bytes → Prop
  | container {metadata : Format.Metadata} {material : ObjectMaterial}
      {recipients : List Format.RecipientStanza} {placement : SignaturePlacement}
      {shape : VectorShape} {plaintext : Bytes} {prepared : Prepared}
      {stanza : Format.SignatureStanza}
      (h : prepare C P metadata material recipients (some (identity, placement)) shape plaintext =
        .ok prepared)
      (hfits : plaintext.length < 2 ^ 64) (hnone : metadata.signature = none)
      (hstanza : carriedStanza prepared.header prepared.metadata = some stanza) :
      Made identity (.ofPreamble prepared.preamble) stanza.signature
  | create {label : String} {recovery : VerifyingIdentity P} {log : IdentityLog P} {entry : Entry}
      (h : IdentityLog.create sha256 identity label recovery = .ok log)
      (hentry : entry ∈ log.entries) : Made identity .identityEntry entry.signature
  | call {call : Identity.Call P} {log log' : IdentityLog P} {sequence : Sequence} {entry : Entry}
      (hauthor : call.author = identity) (h : call.run sha256 log = .ok (log', sequence))
      (hentry : log'.entries = log.entries ++ [entry]) :
      Made identity .identityEntry entry.signature
  | recoveryBinding {log : IdentityLog P} {binding : RecoveryBinding P}
      (h : RecoveryBinding.create log identity = .ok binding) :
      Made identity .recoveryBinding binding.signature
  | epochBinding {log : IdentityLog P} {records : List Epoch.EpochRecord} {binding : EpochBinding}
      (h : EpochBinding.create sha256 log identity records = .ok binding) :
      Made identity .epochBinding binding.signature
  | checkpoint {checkpoint : Checkpoint} {note : SignedNote} {line : NoteSignature}
      (h : checkpoint.sign sha256 P identity = .ok note) (hline : line ∈ note.signatures) :
      Made identity .checkpoint line.signature
  | cosignature {note cosigned : SignedNote} {name : Text} {line : NoteSignature}
      (h : Checkpoint.cosign sha256 P note name identity = .ok cosigned)
      (hline : cosigned.signatures = note.signatures ++ [line]) :
      Made identity .checkpoint line.signature
  | challenge (challenge : Challenge) :
      Made identity .challenge (challenge.answer P identity).toList
  | mlsBinding (mlsPublicKey : Bytes) :
      Made identity .mlsBinding
        ((Mls.credentialData sha256 P identity mlsPublicKey).drop
          (Mls.deviceIdLen + verifyingKeyLength))

/-! ## Containers -/

theorem ofPreamble_context (preamble : Format.Preamble) :
    (Role.ofPreamble preamble).context = signingContext preamble := by
  unfold Role.ofPreamble signingContext
  cases preamble.isLegacy <;> rfl

/-- A container is signed in the role its minor gives. -/
theorem container_signs (identity : SigningIdentity) (preamble : Format.Preamble)
    (signed : SignedContainer) (h : signed.preamble = preamble) :
    ∃ operation : Operation P, operation.role = .ofPreamble preamble ∧
      operation.signature identity = identity.sign P (signingContext preamble) signed.message := by
  subst h
  rw [← ofPreamble_context]
  unfold Role.ofPreamble
  cases hlegacy : signed.preamble.isLegacy with
  | false => exact ⟨.container signed hlegacy, rfl, rfl⟩
  | true => exact ⟨.legacyContainer signed hlegacy, rfl, rfl⟩

/-- The only stanza there is was made by the run. -/
theorem stanza_of_slots {identity : SigningIdentity} {placement : SignaturePlacement}
    {made : SigningIdentity → Format.SignatureStanza} {header : Format.ProtectedHeader}
    {metadata : Format.Metadata} {stanza : Format.SignatureStanza}
    (h : Slots (some (identity, placement)) none made header metadata)
    (hstanza : carriedStanza header metadata = some stanza) : stanza = made identity := by
  unfold carriedStanza at hstanza
  cases placement <;> rw [h.1, h.2] at hstanza <;> cases hstanza <;> rfl

theorem prepare_signs {metadata : Format.Metadata} {material : ObjectMaterial}
    {recipients : List Format.RecipientStanza} {identity : SigningIdentity}
    {placement : SignaturePlacement} {shape : VectorShape} {plaintext : Bytes} {prepared : Prepared}
    {stanza : Format.SignatureStanza}
    (h : prepare C P metadata material recipients (some (identity, placement)) shape plaintext =
      .ok prepared)
    (hfits : plaintext.length < 2 ^ 64) (hnone : metadata.signature = none)
    (hstanza : carriedStanza prepared.header prepared.metadata = some stanza) :
    ∃ operation : Operation P, operation.role = .ofPreamble prepared.preamble ∧
      stanza.signature = (operation.signature identity).toList := by
  have hprepares := prepare_eq_ok h
  obtain ⟨base, hbase, hslots⟩ := hprepares.signature
  rw [hnone] at hslots
  have hheader : prepared.header.Valid true :=
    ((Format.ProtectedHeader.encodeWithSignatures_eq_ok _ true _).mp
      hprepares.wellFormed.encodes).1
  have hlen : (UInt64.ofNat plaintext.length).toNat = plaintext.length :=
    UInt64.toNat_ofNat_of_lt' hfits
  let signed : SignedContainer :=
    { preamble := prepared.preamble, header := prepared.header, metadataBase := base
      plaintextHash := Crypto.hash C [plaintext], plaintextLen := UInt64.ofNat plaintext.length
      fits := .of_valid hheader, base_lt := signingBase_fits hbase }
  obtain ⟨operation, hrole, hsignature⟩ :=
    @container_signs P identity prepared.preamble signed rfl
  refine ⟨operation, hrole, ?_⟩
  rw [stanza_of_slots hslots hstanza, hsignature]
  show (identity.sign P _ (transcript _ _ _ _ plaintext.length)).toList =
    (identity.sign P _ (transcript _ _ _ _ (UInt64.ofNat plaintext.length).toNat)).toList
  rw [hlen]

/-- Encryption that succeeds with a signer puts one of these signatures in the container. -/
theorem encryptInner_makes {metadata : Format.Metadata} {material : ObjectMaterial}
    {recipients : List Format.RecipientStanza} {identity : SigningIdentity}
    {placement : SignaturePlacement} {shape : VectorShape} {plaintext : Bytes} {input : Reader}
    {n : ℕ} (hinput : input.Delivers plaintext) (hfits : plaintext.length < 2 ^ 64)
    (hnone : metadata.signature = none) (hplacement : placement ≠ .stripped)
    (h : (encryptInner C P input metadata material recipients (some (identity, placement))
      shape).result = .ok n) :
    ∃ prepared payload stanza,
      encryptInner C P input metadata material recipients (some (identity, placement)) shape =
        writeContainer C material prepared payload ∧
      carriedStanza prepared.header prepared.metadata = some stanza ∧
      Made C P sha256 identity (.ofPreamble prepared.preamble) stanza.signature := by
  obtain ⟨prepared, payload, hprepare, -, hwrite⟩ := encryptInner_eq_ok hinput h
  obtain ⟨base, -, hslots⟩ := (prepare_eq_ok hprepare).signature
  rw [hnone] at hslots
  obtain ⟨stanza, hstanza⟩ : ∃ stanza,
      carriedStanza prepared.header prepared.metadata = some stanza := by
    unfold carriedStanza
    rcases hslots.one hplacement with ⟨hheader, -⟩ | ⟨hheader, hmetadata⟩
    · exact ⟨_, by rw [hheader]; rfl⟩
    · exact ⟨_, by rw [hheader, hmetadata]; rfl⟩
  exact ⟨prepared, payload, stanza, hwrite, hstanza, .container hprepare hfits hnone hstanza⟩

/-! ## Log entries -/

/-- A candidate whose device and label are checked is signed as an entry. -/
theorem candidate_signs (log : IdentityLog P) (author : SigningIdentity) {event : Event}
    (sized : event.WellSized) :
    ∃ operation : Operation P, operation.role = .identityEntry ∧
      (log.candidate sha256 author event).signature = (operation.signature author).toList :=
  ⟨.identityEntry log.head (UInt64.ofNat log.entries.length) event
    (deviceId sha256 (author.verifyingKey P)) sized, rfl, rfl⟩

theorem call_wellSized {call : Identity.Call P} {log log' : IdentityLog P} {sequence : Sequence}
    (h : call.run sha256 log = .ok (log', sequence)) : call.event.WellSized := by
  rw [Call.run_eq_append] at h
  obtain ⟨-, ⟨membership, happly⟩, -, -⟩ := IdentityLog.append_eq_ok.mp h
  have hlabel := (apply_eq_ok.mp happly).1
  cases call with
  | enrol author device label => exact ⟨Vector.length_toList, hlabel label rfl⟩
  | revoke author device => trivial
  | recover recoveryKey device label => exact ⟨Vector.length_toList, hlabel label rfl⟩

/-! ## Every signer -/

/-- **Whatever a call leaves behind is the signature of an operation of its role.** -/
theorem made_signs {identity : SigningIdentity} {role : Role} {signature : Bytes}
    (h : Made C P sha256 identity role signature) :
    ∃ operation : Operation P, operation.role = role ∧
      signature = (operation.signature identity).toList := by
  cases h with
  | container h hfits hnone hstanza => exact prepare_signs h hfits hnone hstanza
  | create h hentry =>
    obtain ⟨hlabel, rfl⟩ := create_eq_ok.mp h
    rw [List.mem_singleton.mp hentry]
    exact candidate_signs _ _ ⟨Vector.length_toList, hlabel⟩
  | @call call log log' sequence entry hauthor h hentry =>
    have hsized := call_wellSized h
    rw [Call.run_eq_append] at h
    obtain ⟨-, -, hlog, -⟩ := IdentityLog.append_eq_ok.mp h
    rw [hlog] at hentry
    obtain rfl : log.candidate sha256 call.author call.event = entry :=
      List.singleton_inj.mp (List.append_cancel_left hentry)
    rw [← hauthor]
    exact candidate_signs log call.author hsized
  | @recoveryBinding log binding h =>
    obtain ⟨-, rfl⟩ := RecoveryBinding.create_eq_ok.mp h
    exact ⟨.recoveryBinding log.root log.recovery, rfl, rfl⟩
  | @epochBinding log records binding h =>
    obtain ⟨-, -, -, -, -, -, -, -, hsignature⟩ := EpochBinding.create_eq_ok.mp h
    exact ⟨.epochBinding binding.identityRoot binding.identityHead binding.chainHead binding.epochs
      binding.signer, rfl, hsignature⟩
  | @checkpoint checkpoint note line h hline =>
    obtain ⟨text, htext, -⟩ := bind_eq_ok.mp h
    rw [sign_eq_partyNote htext] at h
    obtain rfl := Except.ok.inj h
    rw [List.mem_singleton.mp hline]
    exact ⟨.checkpoint checkpoint text htext, rfl, rfl⟩
  | @cosignature note cosigned name line h hline =>
    obtain ⟨-, -, rfl⟩ := cosign_eq_ok.mp h
    obtain rfl : _ = line := List.singleton_inj.mp (List.append_cancel_left hline)
    exact ⟨.cosignature note, rfl, rfl⟩
  | challenge challenge => exact ⟨.challenge challenge, rfl, rfl⟩
  | mlsBinding mlsPublicKey =>
    refine ⟨.mlsBinding (deviceId sha256 (identity.verifyingKey P)) mlsPublicKey, rfl, ?_⟩
    unfold Mls.credentialData
    rw [List.drop_left' (by
      rw [List.length_append, Vector.length_toList, Vector.length_toList]
      rfl)]
    rfl

/-- It verifies in its role, over the message of an operation, and an application signs no such
payload. -/
theorem made_verifies (hP : P.Correct) {identity : SigningIdentity} {role : Role}
    {signature : Bytes} (h : Made C P sha256 identity role signature) :
    ∃ operation : Operation P, operation.role = role ∧
      (identity.verifyingKey P).verify role.context operation.message signature = .ok () ∧
      ∀ context message, context.length < 2 ^ 64 → isReservedContext context = false →
        bind context message ≠ operation.payload := by
  obtain ⟨operation, rfl, rfl⟩ := made_signs h
  exact ⟨operation, rfl, verify_sign hP identity _ _,
    fun _ _ => Operation.bind_ne_payload operation⟩

end HideProtocol.Sign
