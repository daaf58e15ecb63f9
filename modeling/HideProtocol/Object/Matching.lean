import HideProtocol.Object.Container

/-!
# Who a container is for

A reader decodes the header before it tries its secret, and tries its secret before it writes
anything. So what is wrong with a header is wrong for every secret, a secret that is not a
recipient's is turned away with nothing staged, and it is turned away again when more of the
input arrives.
-/

namespace HideProtocol.Object

open Lib Format Crypto

/-- A header as it was read, before a secret is tried. -/
structure Head where
  preambleBytes : Bytes
  preamble : Preamble
  protectedBytes : Bytes
  mac : Key
  header : ProtectedHeader
  rest : Bytes

/-- The part of `openHeader` that knows no secret. -/
def readHead (input : Bytes) : Except ObjectError Head := do
  let (preambleBytes, input) ← readExact preambleLen input
  let preamble ← mapErr ObjectError.format (Preamble.decode preambleBytes)
  let (headerBytes, input) ← readExact preamble.headerLen input
  let (protectedBytes, mac) ← mapErr ObjectError.format (decodeHeader headerBytes)
  let header ← mapErr ObjectError.format (ProtectedHeader.decode protectedBytes)
  failIf (preamble.isLegacy ∧ (header.extensions ≠ [] ∨
    header.recipients.any fun stanza => stanza.asXwing.isNone)) (.format .malformedHeader)
  pure { preambleBytes, preamble, protectedBytes, mac, header, rest := input }

namespace Head
variable (P : Crypto.Primitives) (head : Head)

/-- The content key, for a secret that is a recipient's. -/
def recover (secret : RecipientSecret) : Except ObjectError Key :=
  recoverCek P secret head.header.objectId head.preambleBytes head.protectedBytes head.mac
    head.header.recipients

/-- The part of `openHeader` that knows the content key. -/
def openWith (cek : Key) : Except ObjectError Opened := do
  let plaintext ← mapErr ObjectError.crypto
    («open» P (metadataKey P cek head.header.objectId) metadataNonce
      (metadataAad head.header.objectId) head.header.encryptedMetadata)
  let metadata ← mapErr ObjectError.format (Metadata.decode plaintext)
  failIf (head.preamble.isLegacy ∧ metadata.extensions ≠ []) (.format .invalidMetadata)
  let (salt, payload) ← readPayload 16 head.rest
  let salt ← okOr (tryInto 16 salt) .truncatedPayload
  pure { preamble := head.preamble, header := head.header, protectedBytes := head.protectedBytes,
         cek, metadata, salt, payload }

end Head

/-- The header is fine, and the secret is a recipient's. -/
def Recovers (P : Crypto.Primitives) (input : Bytes) (secret : RecipientSecret) : Prop :=
  ∃ head cek, readHead input = .ok head ∧ head.recover P secret = .ok cek

section
variable {P : Crypto.Primitives} {S : Sign.Primitives} {input : Bytes} {secret : RecipientSecret}
  {head : Head}

theorem openHeader_eq (P : Crypto.Primitives) (input : Bytes) (secret : RecipientSecret) :
    openHeader P input secret = (do
      let head ← readHead input
      let cek ← head.recover P secret
      head.openWith P cek) := by
  unfold openHeader readHead Head.openWith
  simp only [bind_assoc, pure_bind]
  rfl

/-! ## Only the trial of the recipients finds no recipient -/

theorem readExact_ne (n : ℕ) (input : Bytes) :
    readExact n input ≠ .error .noMatchingRecipient := by
  unfold readExact
  split
  · simp
  · simp

theorem readPayload_ne (n : ℕ) (input : Bytes) :
    readPayload n input ≠ .error .noMatchingRecipient := by
  unfold readPayload
  split
  · simp
  · simp

theorem format_ne (error : FormatError) : ObjectError.format error ≠ .noMatchingRecipient := by
  simp

theorem readHead_ne (input : Bytes) : readHead input ≠ .error .noMatchingRecipient := by
  unfold readHead
  refine bind_ne_error (readExact_ne _ _) fun _ => ?_
  refine bind_ne_error (mapErr_ne_error format_ne) fun _ => ?_
  refine bind_ne_error (readExact_ne _ _) fun _ => ?_
  refine bind_ne_error (mapErr_ne_error format_ne) fun _ => ?_
  refine bind_ne_error (mapErr_ne_error format_ne) fun _ => ?_
  exact bind_ne_error (failIf_ne_error (format_ne _)) fun _ => pure_ne_error

theorem openWith_ne (cek : Key) : head.openWith P cek ≠ .error .noMatchingRecipient := by
  unfold Head.openWith
  refine bind_ne_error (mapErr_ne_error fun _ => by simp) fun _ => ?_
  refine bind_ne_error (mapErr_ne_error format_ne) fun _ => ?_
  refine bind_ne_error (failIf_ne_error (format_ne _)) fun _ => ?_
  refine bind_ne_error (readPayload_ne _ _) fun _ => ?_
  exact bind_ne_error (okOr_ne_error (by simp)) fun _ => pure_ne_error

theorem readRecord_ne (counter : ℕ) (input : Bytes) :
    readRecord counter input ≠ .error .noMatchingRecipient := by
  have hlength : ∀ kind length, recordLength kind length counter ≠ .error .noMatchingRecipient := by
    intro kind length
    refine bind_ne_error (failIf_ne_error (by simp)) fun _ => ?_
    dsimp only
    split
    · exact pure_ne_error
    · split
      · exact pure_ne_error
      · simp
  unfold readRecord
  refine bind_ne_error (readPayload_ne _ _) fun _ => ?_
  refine bind_ne_error (hlength _ _) fun _ => ?_
  exact bind_ne_error (readPayload_ne _ _) fun _ => pure_ne_error

theorem decryptLoop_ne (key objectId headerHash : Key) (input : Bytes) (counter total : ℕ) :
    (decryptLoop P key objectId headerHash input counter total).result ≠
      .error .noMatchingRecipient := by
  induction hm : maxChunks - counter generalizing input counter total with
  | zero =>
    rw [decryptLoop, dif_neg (by omega)]
    simp
  | succ m ih =>
    rw [decryptLoop, dif_pos (by omega)]
    rcases hread : readRecord counter input with error | record
    · have hne := readRecord_ne counter input
      rw [hread] at hne
      exact fun h => hne (congrArg _ (Except.error.inj h))
    · dsimp only
      split
      · simp
      · split
        · split
          · simp
          · simp
        · exact ih record.rest (counter + 1) _ (by omega)

theorem verifySignature_ne (preamble : Preamble) (header : ProtectedHeader) (metadata : Metadata)
    (plaintextHash : Key) (plaintextLen : ℕ) :
    verifySignature S preamble header metadata plaintextHash plaintextLen ≠
      .error .noMatchingRecipient := by
  unfold verifySignature
  extract_lets checkStanza
  have hcheck : ∀ stanza, checkStanza stanza ≠ .error .noMatchingRecipient := by
    intro stanza
    refine bind_ne_error (failIf_ne_error (by simp)) fun _ => ?_
    refine bind_ne_error (mapErr_ne_error fun _ => by simp) fun _ => ?_
    refine bind_ne_error (mapErr_ne_error format_ne) fun _ => ?_
    exact bind_ne_error (mapErr_ne_error fun _ => by simp) fun _ => pure_ne_error
  split
  · simp
  · exact hcheck _
  · exact hcheck _
  · split
    · simp
    · simp

/-- The trial of the recipients fails in one way. -/
theorem recoverCek_eq_error {objectId mac : Key} {preamble protectedBytes : Bytes}
    {stanzas : List Stanza} {error : ObjectError}
    (h : recoverCek P secret objectId preamble protectedBytes mac stanzas = .error error) :
    error = .noMatchingRecipient := by
  induction stanzas with
  | nil => exact (Except.error.inj h).symm
  | cons stanza stanzas ih =>
    unfold recoverCek at h
    split at h
    · exact ih h
    · split at h
      · exact ih h
      · split at h
        · cases h
        · exact ih h

theorem recover_eq_error {error : ObjectError} (h : head.recover P secret = .error error) :
    error = .noMatchingRecipient := recoverCek_eq_error h

/-! ## What a run comes to -/

variable (P S)

/-- What is wrong with a header is wrong for every secret. -/
theorem decryptToStaging_of_readHead_error {error : ObjectError}
    (h : readHead input = .error error) (secret : RecipientSecret) :
    decryptToStaging P S input secret = { result := .error error } := by
  unfold decryptToStaging
  rw [openHeader_eq, h]
  rfl

theorem decryptToStaging_of_recover_error {error : ObjectError} (h : readHead input = .ok head)
    (herror : head.recover P secret = .error error) :
    decryptToStaging P S input secret = { result := .error .noMatchingRecipient } := by
  unfold decryptToStaging
  rw [openHeader_eq, h, ok_bind, herror, recover_eq_error herror]
  rfl

theorem decryptToStaging_of_openWith_error {cek : Key} {error : ObjectError}
    (h : readHead input = .ok head) (hcek : head.recover P secret = .ok cek)
    (herror : head.openWith P cek = .error error) :
    decryptToStaging P S input secret = { result := .error error } := by
  unfold decryptToStaging
  rw [openHeader_eq, h, ok_bind, hcek, ok_bind, herror]

variable {P S}

/-- A secret that recovers a content key is not turned away. -/
theorem decryptToStaging_of_recovers (h : Recovers P input secret) :
    (decryptToStaging P S input secret).result ≠ .error .noMatchingRecipient := by
  obtain ⟨head, cek, hhead, hcek⟩ := h
  have hopened : openHeader P input secret = head.openWith P cek := by
    rw [openHeader_eq, hhead, ok_bind, hcek, ok_bind]
  unfold decryptToStaging
  rw [hopened]
  cases hopen : head.openWith P cek with
  | error error =>
    have hne : head.openWith P cek ≠ .error .noMatchingRecipient := openWith_ne cek
    rw [hopen] at hne
    exact fun h => hne (congrArg _ (Except.error.inj h))
  | ok opened =>
    refine bind_ne_error (decryptLoop_ne _ _ _ _ _ _) fun _ => ?_
    exact bind_ne_error (verifySignature_ne _ _ _ _ _) fun _ => pure_ne_error

/-- The three ways of a secret with a container. -/
theorem matching_cases (P : Crypto.Primitives) (input : Bytes) (secret : RecipientSecret) :
    (∃ error, readHead input = .error error ∧ error ≠ .noMatchingRecipient) ∨
    (∃ head, readHead input = .ok head ∧
      head.recover P secret = .error .noMatchingRecipient) ∨
    Recovers P input secret := by
  cases hhead : readHead input with
  | error error =>
    left
    refine ⟨error, rfl, ?_⟩
    intro heq
    exact readHead_ne input (hhead.trans (congrArg _ heq))
  | ok head =>
    right
    cases hcek : head.recover P secret with
    | error error =>
      left
      exact ⟨head, rfl, hcek.trans (congrArg _ (recover_eq_error hcek))⟩
    | ok cek =>
      right
      exact ⟨head, cek, hhead, hcek⟩

/-- A secret is turned away exactly when the header is fine and none of its stanzas is for it. -/
theorem noMatchingRecipient_iff :
    (decryptToStaging P S input secret).result = .error .noMatchingRecipient ↔
      ∃ head, readHead input = .ok head ∧
        head.recover P secret = .error .noMatchingRecipient := by
  constructor
  · intro h
    rcases matching_cases P input secret with ⟨error, hhead, hne⟩ | hturned | hrecovers
    · rw [decryptToStaging_of_readHead_error P S hhead secret] at h
      exact absurd (Except.error.inj h) hne
    · exact hturned
    · exact absurd h (decryptToStaging_of_recovers hrecovers)
  · intro h
    obtain ⟨head, hhead, hcek⟩ := h
    rw [decryptToStaging_of_recover_error P S hhead hcek]

/-- Turned away, it has staged nothing. -/
theorem staging_of_noMatchingRecipient
    (h : (decryptToStaging P S input secret).result = .error .noMatchingRecipient) :
    (decryptToStaging P S input secret).staging = [] := by
  obtain ⟨head, hhead, hcek⟩ := noMatchingRecipient_iff.mp h
  rw [decryptToStaging_of_recover_error P S hhead hcek]

/-- An error for a secret that recovers no content key is `noMatchingRecipient`, or the error of
every secret. -/
theorem error_of_not_recovers {error : ObjectError} (hnot : ¬Recovers P input secret)
    (h : (decryptToStaging P S input secret).result = .error error) :
    error = .noMatchingRecipient ∨
      ∀ other, (decryptToStaging P S input other).result = .error error := by
  rcases matching_cases P input secret with ⟨e, hhead, -⟩ | hturned | hrecovers
  · right
    intro other
    rw [decryptToStaging_of_readHead_error P S hhead] at h ⊢
    exact h
  · left
    rw [noMatchingRecipient_iff.mpr hturned] at h
    exact (Except.error.inj h).symm
  · exact absurd hrecovers hnot

/-! ## More input -/

theorem readExact_more {n : ℕ} {bytes rest : Bytes} (more : Bytes)
    (h : readExact n input = .ok (bytes, rest)) :
    readExact n (input ++ more) = .ok (bytes, rest ++ more) := by
  unfold readExact at h ⊢
  split at h
  · cases h
  · next hlen =>
    obtain ⟨rfl, rfl⟩ := Prod.mk.inj (Except.ok.inj h)
    have hle : n ≤ input.length := Nat.not_lt.mp hlen
    rw [if_neg (by rw [List.length_append]; omega), List.take_append_of_le_length hle,
      List.drop_append_of_le_length hle]

/-- A header that was read is read again in front of more input. -/
theorem readHead_more (more : Bytes) (h : readHead input = .ok head) :
    readHead (input ++ more) = .ok { head with rest := head.rest ++ more } := by
  unfold readHead at h ⊢
  obtain ⟨⟨preambleBytes, afterPreamble⟩, hpreambleBytes, h⟩ := bind_eq_ok.mp h
  obtain ⟨preamble, hpreamble, h⟩ := bind_eq_ok.mp h
  obtain ⟨⟨headerBytes, afterHeader⟩, hheaderBytes, h⟩ := bind_eq_ok.mp h
  obtain ⟨⟨protectedBytes, mac⟩, henvelope, h⟩ := bind_eq_ok.mp h
  obtain ⟨header, hheader, h⟩ := bind_eq_ok.mp h
  obtain ⟨_, hlegacy, h⟩ := bind_eq_ok.mp h
  rw [pure_eq_ok.mp h, readExact_more more hpreambleBytes, ok_bind]
  dsimp only at hpreamble hheaderBytes ⊢
  rw [hpreamble, ok_bind, readExact_more more hheaderBytes, ok_bind]
  dsimp only at henvelope ⊢
  rw [henvelope, ok_bind]
  dsimp only at hheader ⊢
  rw [hheader, ok_bind, hlegacy, ok_bind]
  rfl

/-- A secret that was turned away on the beginning of an input is turned away on all of it. -/
theorem noMatchingRecipient_more (more : Bytes)
    (h : (decryptToStaging P S input secret).result = .error .noMatchingRecipient) :
    (decryptToStaging P S (input ++ more) secret).result = .error .noMatchingRecipient := by
  obtain ⟨head, hhead, hcek⟩ := noMatchingRecipient_iff.mp h
  exact noMatchingRecipient_iff.mpr ⟨_, readHead_more more hhead, hcek⟩

end

end HideProtocol.Object
