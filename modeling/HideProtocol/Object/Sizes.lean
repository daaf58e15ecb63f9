import Mathlib.Data.List.Forall2
import HideProtocol.Object.RoundTrip

/-!
# How long a container is

An unsigned container of the default shape has a length that depends on nothing but three
numbers: the recipients, the encoded length of the metadata and the length of the plaintext.
Every surface that limits what it reads has to be compared with it.
-/

namespace HideProtocol.Object

open Lib Format Crypto

/-! ## The formula -/

/-- The records of a payload: one for each full chunk, and one for what is left. -/
def recordCount (plaintextLen : ℕ) : ℕ := max 1 ((plaintextLen + chunkLen - 1) / chunkLen)

/-- Each record adds its kind, its length and its tag. -/
def payloadLen (plaintextLen : ℕ) : ℕ := plaintextLen + recordCount plaintextLen * (5 + tagLen)

/-- An X-Wing stanza: two heads, an encapsulation of 1120 bytes and a wrapped key of 48. -/
def stanzaLen : ℕ := 1175

def protectedLen (recipients metadataLen : ℕ) : ℕ :=
  42 + Cbor.headLen recipients + recipients * stanzaLen +
    Cbor.headLen (metadataLen + tagLen) + (metadataLen + tagLen)

/-- The protected bytes, as a byte string, and the MAC. -/
def headerLen (recipients metadataLen : ℕ) : ℕ :=
  1 + Cbor.headLen (protectedLen recipients metadataLen) + protectedLen recipients metadataLen + 34

def containerLen (recipients metadataLen plaintextLen : ℕ) : ℕ :=
  preambleLen + headerLen recipients metadataLen + 16 + payloadLen plaintextLen

/-- An absent field takes no room; a present one a key, a head and its text. -/
def fieldLen (field : Option Bytes) : ℕ :=
  field.elim 0 fun text => 1 + (Cbor.headLen text.length + text.length)

/-- The encoded length of metadata that is a filename and a media type. -/
def metadataLen (filename mediaType : Option Bytes) : ℕ :=
  1 + fieldLen filename + fieldLen mediaType

theorem encodedLen_eq (filename mediaType : Option String) :
    ({ filename, mediaType } : Metadata).encodedLen =
      metadataLen (filename.map utf8) (mediaType.map utf8) := by
  cases filename <;> cases mediaType <;> rfl

theorem lt_containerLen (recipients metadataLen plaintextLen : ℕ) :
    plaintextLen < containerLen recipients metadataLen plaintextLen := by
  simp only [containerLen, headerLen, payloadLen]
  omega

/-! ## The payload -/

section
variable {P : Crypto.Primitives} {key objectId headerHash : Key}

theorem length_encodeRecord (kind : UInt8) (ciphertext : Bytes) :
    (encodeRecord kind ciphertext).length = 5 + ciphertext.length := by
  simp only [encodeRecord, List.cons_append, List.length_cons, List.length_append, length_beBytes]
  omega

/-- The chunk in hand is one record, and what follows it the rest. -/
theorem length_encryptLoop (hP : AeadCorrect P) {current rest : Bytes} {input : Reader}
    (counter total n : ℕ) (hinput : input.Delivers rest) (hlen : current.length ≤ chunkLen)
    (hok : (encryptLoop P key objectId headerHash current input counter total).result = .ok n) :
    (encryptLoop P key objectId headerHash current input counter total).output.length =
      current.length + rest.length +
        (1 + (rest.length + chunkLen - 1) / chunkLen) * (5 + tagLen) := by
  induction hn : rest.length using Nat.strongRecOn
    generalizing current rest input counter total with
  | ind m ih =>
    subst hn
    rcases encryptLoop_cases P key objectId headerHash counter total hinput hlen with
      ⟨_, -, heq⟩ | ⟨hrest, -, ciphertext, hseal, heq⟩ |
      ⟨hrest, -, ciphertext, after, hseal, hafter, heq⟩
    · rw [heq] at hok
      cases hok
    · have hsealed := hP.length _ _ _ _ _ hseal
      have hzero : (0 + chunkLen - 1) / chunkLen = 0 := by decide
      rw [heq, hrest, List.length_nil, hzero]
      show (encodeRecord final ciphertext).length = _
      rw [length_encodeRecord, hsealed]
      omega
    · have hsealed := hP.length _ _ _ _ _ hseal
      have hpos := List.length_pos_iff.mpr hrest
      have hdrop : (rest.drop chunkLen).length = rest.length - chunkLen := List.length_drop
      have htake : (rest.take chunkLen).length = min chunkLen rest.length := List.length_take
      have hchunk : 0 < chunkLen := by decide
      rw [heq] at hok ⊢
      have hmore := ih _ (by rw [hdrop]; omega) (counter + 1) (total + current.length) hafter
        (List.length_take_le chunkLen rest) hok rfl
      -- one chunk less to round up
      have hdiv : (rest.length + chunkLen - 1) / chunkLen =
          (rest.length - chunkLen + chunkLen - 1) / chunkLen + 1 := by
        simp only [chunkLen]
        omega
      show (encodeRecord data ciphertext ++
        (encryptLoop P key objectId headerHash _ _ _ _).output).length = _
      rw [List.length_append, length_encodeRecord, hsealed, hmore, hdrop, htake, hdiv]
      simp only [tagLen]
      omega

theorem length_encryptRecords (hP : AeadCorrect P) {plaintext : Bytes} {input : Reader} {n : ℕ}
    (hinput : input.Delivers plaintext)
    (hok : (encryptRecords P key objectId headerHash input).result = .ok n) :
    (encryptRecords P key objectId headerHash input).output.length =
      payloadLen plaintext.length := by
  obtain ⟨after, hafter, heq⟩ := encryptRecords_eq P key objectId headerHash hinput
  rw [heq] at hok ⊢
  rw [length_encryptLoop hP 0 0 n hafter (List.length_take_le _ _) hok]
  have hdrop : (plaintext.drop chunkLen).length = plaintext.length - chunkLen := List.length_drop
  have htake : (plaintext.take chunkLen).length = min chunkLen plaintext.length :=
    List.length_take
  rw [hdrop, htake]
  simp only [payloadLen, recordCount, chunkLen, tagLen]
  omega

end

/-! ## The header -/

theorem length_stanza_bytes {stanza : RecipientStanza} (h : (Stanza.xWing stanza).Valid) :
    (Stanza.xWing stanza).bytes.length = stanzaLen := by
  obtain ⟨hencapsulation, hwrapped⟩ := h
  simp only [Stanza.bytes, Cbor.array, Cbor.uint, Cbor.bytes, List.length_append, Cbor.length_head,
    hencapsulation, hwrapped]
  decide

theorem length_stanzas_bytes {stanzas : List RecipientStanza}
    (h : ∀ s ∈ stanzas, (Stanza.xWing s).Valid) :
    ((stanzas.map Stanza.xWing).flatMap Stanza.bytes).length = stanzas.length * stanzaLen := by
  induction stanzas with
  | nil => rfl
  | cons stanza stanzas ih =>
    rw [List.map_cons, List.flatMap_cons, List.length_append,
      length_stanza_bytes (h stanza List.mem_cons_self),
      ih fun s hs => h s (List.mem_cons_of_mem _ hs), List.length_cons]
    ring

section
variable {P : Crypto.Primitives} {S : Sign.Primitives} {metadata : Metadata}
  {material : ObjectMaterial} {stanzas : List RecipientStanza} {prepared : Prepared}

/-- A run that does not sign seals the metadata it was given. -/
theorem metadata_of_prepares
    (h : Prepares P S metadata material stanzas none {} [] prepared) :
    prepared.metadata = metadata := by
  obtain ⟨_, _, _, hsignature⟩ := h.signature
  have hname := h.filename
  have htype := h.mediaType
  have hext := h.metadataExtensions
  rcases hprepared : prepared.metadata with ⟨filename, mediaType, signature, extensions⟩
  rw [hprepared] at hsignature hname htype hext
  cases metadata
  simp_all

theorem length_encryptedMetadata (hP : AeadCorrect P)
    (h : Prepares P S metadata material stanzas none {} [] prepared) :
    prepared.header.encryptedMetadata.length = metadata.encodedLen + tagLen := by
  obtain ⟨encoded, hencode, hseal⟩ := h.wellFormed.metadata
  rw [metadata_of_prepares h] at hencode
  have hencoded := ((Metadata.encodeWithSignature_eq_ok metadata true encoded).mp hencode).2
  rw [hP.length _ _ _ _ _ hseal, hencoded, Metadata.length_bytes]

theorem length_protectedBytes (hP : AeadCorrect P)
    (h : Prepares P S metadata material stanzas none {} [] prepared) :
    prepared.protectedBytes.length = protectedLen stanzas.length metadata.encodedLen := by
  obtain ⟨hvalid, hbytes, -⟩ :=
    (ProtectedHeader.encodeWithSignatures_eq_ok _ true _).mp h.wellFormed.encodes
  obtain ⟨_, _, hsignatures, _⟩ := h.signature
  have hslot : prepared.header.slot true = [] := hsignatures
  have hrecipients : prepared.header.recipients = stanzas.map Stanza.xWing := h.recipients
  have hextensions : prepared.header.extensions = [] := h.extensions
  have hstanzas : ((stanzas.map Stanza.xWing).flatMap Stanza.bytes).length =
      stanzas.length * stanzaLen := by
    apply length_stanzas_bytes
    intro s hs
    apply hvalid.stanza
    rw [hrecipients]
    exact List.mem_map_of_mem hs
  have hid : prepared.header.objectId.toList.length = 32 := Vector.length_toList
  have hmetadata := length_encryptedMetadata hP h
  rw [hbytes]
  simp only [ProtectedHeader.bytes, Cbor.map, Cbor.array, Cbor.uint, Cbor.bytes,
    List.length_append, Cbor.length_head, hslot, hrecipients, hextensions, hstanzas, hid,
    hmetadata, List.length_map, List.flatMap_nil, List.length_nil, Nat.add_zero, protectedLen]
  have h₁ : Cbor.headLen 0 = 1 := rfl
  have h₂ : Cbor.headLen 1 = 1 := rfl
  have h₃ : Cbor.headLen 2 = 1 := rfl
  have h₄ : Cbor.headLen 3 = 1 := rfl
  have h₅ : Cbor.headLen 4 = 1 := rfl
  have h₆ : Cbor.headLen 5 = 1 := rfl
  have h₇ : Cbor.headLen suite = 1 := rfl
  have h₈ : Cbor.headLen 32 = 2 := rfl
  omega

theorem length_headerBytes (hP : AeadCorrect P)
    (h : Prepares P S metadata material stanzas none {} [] prepared) :
    prepared.headerBytes.length = headerLen stanzas.length metadata.encodedLen := by
  have hprotected := length_protectedBytes hP h
  have hheader := h.wellFormed.headerBytes
  unfold encodeHeader at hheader
  obtain ⟨_, -, hheader⟩ := bind_eq_ok.mp hheader
  obtain ⟨_, -, hheader⟩ := bind_eq_ok.mp hheader
  have hmac : prepared.mac.toList.length = 32 := Vector.length_toList
  rw [pure_eq_ok.mp hheader]
  simp only [Cbor.array, Cbor.bytes, List.length_append, Cbor.length_head, hmac, hprotected,
    headerLen]
  have h₁ : Cbor.headLen 2 = 1 := rfl
  have h₂ : Cbor.headLen 32 = 2 := rfl
  omega

/-! ## The container -/

/-- The length of what a run that does not sign writes. -/
theorem length_encryptInner (hP : AeadCorrect P) {input : Reader} {plaintext : Bytes} {n : ℕ}
    (hinput : input.Delivers plaintext)
    (hok : (encryptInner P S input metadata material stanzas none {}).result = .ok n) :
    (encryptInner P S input metadata material stanzas none {}).output.length =
      containerLen stanzas.length metadata.encodedLen plaintext.length := by
  obtain ⟨prepared, payload, hprepare, hpayload, hrun⟩ := encryptInner_eq_ok hinput hok
  have hprepares := prepare_eq_ok hprepare
  rw [hrun] at hok ⊢
  have hrecords := length_encryptRecords hP hpayload hok
  have hsalt : material.payloadSalt.toList.length = 16 := Vector.length_toList
  show (prepared.preamble.encode ++ prepared.headerBytes ++ material.payloadSalt.toList ++
    (encryptRecords P _ _ _ payload).output).length = _
  rw [List.length_append, List.length_append, List.length_append, Preamble.length_encode,
    length_headerBytes hP hprepares, hsalt, hrecords]
  rfl

theorem length_wrapRecipients {recipients : List (RecipientPublic × Key)}
    (h : wrapRecipients P material recipients = .ok stanzas) :
    stanzas.length = recipients.length :=
  (forall₂_of_mapM h).length_eq.symm

theorem length_encrypt (hP : AeadCorrect P) {input : Reader} {plaintext : Bytes} {n : ℕ}
    {recipients : List (RecipientPublic × Key)} (hinput : input.Delivers plaintext)
    (hok : (encrypt P S input recipients metadata material).result = .ok n) :
    (encrypt P S input recipients metadata material).output.length =
      containerLen recipients.length metadata.encodedLen plaintext.length := by
  unfold encrypt at hok ⊢
  obtain ⟨stanzas, hwrap, hrun⟩ := encryptFor_eq_ok hok
  rw [hrun] at hok ⊢
  rw [length_encryptInner hP hinput hok, length_wrapRecipients hwrap]

end

end HideProtocol.Object
