import HideProtocol.Format.Codec

/-!
# Exactness of the header and metadata codecs

For each encoder: the values it accepts (`Valid`) and the bytes it writes, as one `iff`.
For each decoder: that it `Reads` those bytes back. Put together, an encoder and its
decoder are inverse partial functions, up to the one limit that only the metadata decoder
enforces: `Metadata.encode` has no bound on the total length.
-/

namespace HideProtocol.Format

open Lib

/-! ## Integers -/

theorem reads_cbor_u64 (k : UInt16) : Reads (cbor Cbor.readU64) (Cbor.uint k.toNat) k.toNat :=
  Cbor.reads_u64 _ (by have := k.toNat_lt; omega)

theorem u16TryFrom_toNat (k : UInt16) : u16TryFrom k.toNat = some k := by
  rw [u16TryFrom, if_pos k.toNat_lt]
  simp

theorem reads_key {k : ℕ} (h : k < 2 ^ 8) : Reads (key k) (Cbor.uint k) () :=
  (Cbor.reads_u8 _ h).bind_last (Reads.failIf _ (by simp))

/-! ## Extensions -/

/-- Extension keys are ignorable, strictly ascending after `previous`, and values bounded. -/
def ExtensionsFrom : ℕ → List Extension → Prop
  | _, [] => True
  | previous, extension :: rest =>
    (firstIgnorableKey ≤ extension.key.toNat ∧ previous < extension.key.toNat ∧
      extension.value.length ≤ maxExtensionLen) ∧ ExtensionsFrom extension.key.toNat rest

theorem checkExtensionsFrom_eq_ok (previous : ℕ) (extensions : List Extension) (u : Unit) :
    checkExtensionsFrom previous extensions = .ok u ↔ ExtensionsFrom previous extensions := by
  induction extensions generalizing previous with
  | nil => simp [checkExtensionsFrom, ExtensionsFrom]
  | cons extension rest ih =>
    simp only [checkExtensionsFrom, bind_eq_ok, failIf_eq_ok, ih, ExtensionsFrom, not_or, not_lt,
      not_le, exists_const]

/-- The extension lists both encoders accept. -/
def ValidExtensions (extensions : List Extension) : Prop :=
  extensions.length ≤ maxExtensions ∧ ExtensionsFrom 0 extensions

theorem checkExtensions_eq_ok (extensions : List Extension) (u : Unit) :
    checkExtensions extensions = .ok u ↔ ValidExtensions extensions := by
  simp only [checkExtensions, bind_eq_ok, failIf_eq_ok, checkExtensionsFrom_eq_ok, not_lt,
    ValidExtensions, exists_const]

/-- The decoder starts after the last core key, the encoder at zero; both orders agree
because every ignorable key is past the core keys. -/
theorem reads_decodeExtensions {extensions : List Extension} {checked previous : ℕ}
    (h : ExtensionsFrom checked extensions)
    (hprev : previous ≤ checked ∨ previous < firstIgnorableKey) :
    Reads (decodeExtensions extensions.length previous)
      (extensions.flatMap encodeExtension) extensions := by
  induction extensions generalizing checked previous with
  | nil => exact Reads.pure []
  | cons extension rest ih =>
    obtain ⟨⟨hkey, hasc, hval⟩, hrest⟩ := h
    have hlt : previous < extension.key.toNat := by omega
    rw [List.flatMap_cons, encodeExtension, List.append_assoc, List.length_cons]
    refine (reads_cbor_u64 extension.key).bind ?_
    refine (Reads.failIf _ (by omega)).bind_nil ?_
    refine (Reads.failIf _ (by omega)).bind_nil ?_
    refine (Reads.lift (by rw [u16TryFrom_toNat, okOr_some])).bind_nil ?_
    refine (Cbor.reads_bytes _ (by simp only [maxExtensionLen] at hval; omega)).bind ?_
    refine (Reads.failIf _ (by omega)).bind_nil ?_
    exact (ih hrest (Or.inl le_rfl)).bind_last (Reads.pure _)

/-! ## Stanzas -/

namespace Stanza

/-- The stanzas `encode_stanza` accepts. -/
def Valid : Stanza → Prop
  | xWing stanza =>
    stanza.encapsulation.length = encapsulationLen ∧ stanza.wrappedCek.length = wrappedCekLen
  | unknown stanza =>
    xwingTag < stanza.tag.toNat ∧ stanza.fields.length < maxStanzaItems ∧
      ∀ f ∈ stanza.fields, f.length ≤ maxExtensionLen

/-- The bytes `encode_stanza` writes. -/
def bytes : Stanza → Bytes
  | xWing stanza => Cbor.array 3 ++ Cbor.uint xwingTag ++ Cbor.bytes stanza.encapsulation ++
      Cbor.bytes stanza.wrappedCek
  | unknown stanza => Cbor.array (1 + stanza.fields.length) ++ Cbor.uint stanza.tag.toNat ++
      stanza.fields.flatMap Cbor.bytes

end Stanza

theorem encodeStanza_eq_ok (stanza : Stanza) (b : Bytes) :
    encodeStanza stanza = .ok b ↔ stanza.Valid ∧ b = stanza.bytes := by
  cases stanza with
  | xWing stanza =>
    simp only [encodeStanza, bind_eq_ok, failIf_eq_ok, pure_eq_ok, not_or, not_not, exists_const,
      Stanza.Valid, Stanza.bytes]
  | unknown stanza =>
    simp only [encodeStanza, bind_eq_ok, failIf_eq_ok, pure_eq_ok, not_or, not_le, not_lt,
      ge_iff_le, not_exists, not_and, exists_const, Stanza.Valid, Stanza.bytes, gt_iff_lt]

theorem reads_decodeField {f : Bytes} (h : f.length ≤ maxExtensionLen) :
    Reads decodeField (Cbor.bytes f) f := by
  refine (Cbor.reads_bytes _ (by simp only [maxExtensionLen] at h; omega)).bind_last ?_
  exact (Reads.failIf _ (by omega)).bind_nil (Reads.pure _)

theorem reads_decodeStanza {stanza : Stanza} (h : stanza.Valid) :
    Reads decodeStanza stanza.bytes stanza := by
  cases stanza with
  | xWing stanza =>
    obtain ⟨henc, hcek⟩ := h
    simp only [encapsulationLen] at henc
    simp only [wrappedCekLen] at hcek
    simp only [Stanza.bytes, List.append_assoc]
    refine (Cbor.reads_array _ (by omega)).bind ?_
    refine (Reads.lift (okOr_some _ _)).bind_nil ?_
    refine (Reads.failIf _ (by simp only [maxStanzaItems]; omega)).bind_nil ?_
    refine (Cbor.reads_u64 _ (by simp only [xwingTag]; omega)).bind ?_
    rw [if_pos rfl]
    refine (Reads.failIf _ (by omega)).bind_nil ?_
    refine (Cbor.reads_bytes _ (by omega)).bind ?_
    refine (Cbor.reads_bytes _ (by omega)).bind_last ?_
    refine (Reads.failIf _ (by simp only [encapsulationLen, wrappedCekLen]; omega)).bind_nil ?_
    exact Reads.pure _
  | unknown stanza =>
    obtain ⟨htag, hitems, hfields⟩ := h
    simp only [maxStanzaItems] at hitems
    have hne : ¬stanza.tag.toNat = xwingTag := by omega
    have hzero : ¬stanza.tag = 0 := by
      intro h0
      rw [h0] at htag
      simp [xwingTag] at htag
    have hsub : 1 + stanza.fields.length - 1 = stanza.fields.length := by omega
    simp only [Stanza.bytes, List.append_assoc]
    refine (Cbor.reads_array _ (by omega)).bind ?_
    refine (Reads.lift (okOr_some _ _)).bind_nil ?_
    refine (Reads.failIf _ (by simp only [maxStanzaItems]; omega)).bind_nil ?_
    refine (reads_cbor_u64 stanza.tag).bind ?_
    rw [if_neg hne, hsub]
    refine (Reads.lift (by rw [u16TryFrom_toNat, okOr_some])).bind_nil ?_
    refine (Reads.failIf _ hzero).bind_nil ?_
    exact (Reads.times fun f hf => reads_decodeField (hfields f hf)).bind_last (Reads.pure _)

/-! ## Signatures -/

namespace SignatureStanza

def Valid (stanza : SignatureStanza) : Prop :=
  stanza.verifyingKey.length = verifyingKeyLen ∧ stanza.signature.length = signatureLen

def bytes (stanza : SignatureStanza) : Bytes :=
  Cbor.array 3 ++ Cbor.uint 1 ++ Cbor.bytes stanza.verifyingKey ++ Cbor.bytes stanza.signature

end SignatureStanza

theorem encodeSignature_eq_ok (e : FormatError) (stanza : SignatureStanza) (b : Bytes) :
    encodeSignature e stanza = .ok b ↔ stanza.Valid ∧ b = stanza.bytes := by
  simp only [encodeSignature, bind_eq_ok, failIf_eq_ok, pure_eq_ok, not_or, not_not, exists_const,
    SignatureStanza.Valid, SignatureStanza.bytes]

theorem reads_decodeSignature {stanza : SignatureStanza} (h : stanza.Valid) :
    Reads decodeSignature stanza.bytes stanza := by
  obtain ⟨hkey, hsig⟩ := h
  have hkey' : ¬stanza.verifyingKey.length ≠ verifyingKeyLen := not_not.mpr hkey
  simp only [verifyingKeyLen] at hkey
  simp only [signatureLen] at hsig
  simp only [SignatureStanza.bytes, List.append_assoc]
  refine (Cbor.reads_array _ (by omega)).bind ?_
  refine (Reads.failIf _ (by simp)).bind_nil ?_
  refine (Cbor.reads_u8 _ (by omega)).bind ?_
  refine (Reads.failIf _ (by omega)).bind_nil ?_
  refine (Cbor.reads_bytes _ (by omega)).bind ?_
  refine (Cbor.reads_bytes _ (by omega)).bind_last ?_
  refine (Reads.failIf _ (by simp only [verifyingKeyLen, signatureLen]; omega)).bind_nil ?_
  exact Reads.pure _

/-! ## The protected header -/

namespace ProtectedHeader

/-- The signature slot as it is written. -/
def slot (header : ProtectedHeader) (withSignatures : Bool) : List SignatureStanza :=
  if withSignatures then header.signatures else []

/-- Every rule of `encode_with_signatures` but the total length. -/
structure Valid (header : ProtectedHeader) (withSignatures : Bool) : Prop where
  recipients_ne : header.recipients ≠ []
  recipients_le : header.recipients.length ≤ maxRecipients
  le_metadata : tagLen ≤ header.encryptedMetadata.length
  metadata_le : header.encryptedMetadata.length ≤ maxMetadataLen + tagLen
  signatures_le : header.signatures.length ≤ maxSignatures
  extensions : ValidExtensions header.extensions
  stanza : ∀ s ∈ header.recipients, s.Valid
  signature : ∀ s ∈ header.slot withSignatures, s.Valid

/-- The bytes `encode_with_signatures` writes. -/
def bytes (header : ProtectedHeader) (withSignatures : Bool) : Bytes :=
  Cbor.map (5 + header.extensions.length) ++ Cbor.uint 1 ++ Cbor.uint suite ++
    Cbor.uint 2 ++ Cbor.bytes header.objectId.toList ++
    Cbor.uint 3 ++ Cbor.array header.recipients.length ++ header.recipients.flatMap Stanza.bytes ++
    Cbor.uint 4 ++ Cbor.bytes header.encryptedMetadata ++
    Cbor.uint 5 ++ Cbor.array (header.slot withSignatures).length ++
    (header.slot withSignatures).flatMap SignatureStanza.bytes ++
    header.extensions.flatMap encodeExtension

theorem encodeWithSignatures_eq_ok (header : ProtectedHeader) (w : Bool) (b : Bytes) :
    header.encodeWithSignatures w = .ok b ↔
      header.Valid w ∧ b = header.bytes w ∧ ¬(b.length = 0 ∨ b.length > maxHeaderLen) := by
  simp only [encodeWithSignatures, checkHeaderLen, bind_eq_ok, failIf_eq_ok, mapErr_eq_ok,
    checkExtensions_eq_ok, mapM_eq_ok encodeStanza_eq_ok, pure_eq_ok, exists_const,
    mapM_eq_ok (encodeSignature_eq_ok FormatError.malformedHeader)]
  constructor
  · rintro ⟨hrec, hmeta, hsigs, hext, stanzas, ⟨hst, rfl⟩, sigs, ⟨hsl, rfl⟩, hlen, hbytes⟩
    simp only [not_or, not_lt, not_not] at hrec hmeta hsigs
    rw [← hbytes] at hlen
    refine ⟨⟨hrec.1, hrec.2, hmeta.1, hmeta.2, hsigs, hext, hst, hsl⟩, ?_, hlen⟩
    rw [hbytes]
    simp only [bytes, slot, List.flatMap_def]
  · rintro ⟨hv, hbytes, hlen⟩
    rw [hbytes] at hlen ⊢
    refine ⟨by simp only [not_or, not_lt]; exact ⟨hv.recipients_ne, hv.recipients_le⟩,
      not_not.mpr ⟨hv.le_metadata, hv.metadata_le⟩, not_lt.mpr hv.signatures_le, hv.extensions,
      _, ⟨hv.stanza, rfl⟩, _, ⟨hv.signature, rfl⟩, ?_⟩
    simp only [bytes, slot, List.flatMap_def] at hlen ⊢
    exact ⟨hlen, trivial⟩

/-- The decoder reads back every header that was written. -/
theorem reads_decodeFields {header : ProtectedHeader} (h : header.Valid true) :
    Reads decodeFields (header.bytes true) header := by
  have hrec := h.recipients_le
  have hmeta := h.metadata_le
  have hmeta' := h.le_metadata
  have hsig := h.signatures_le
  have hext := h.extensions.1
  have hne : header.recipients.length ≠ 0 := fun h0 =>
    h.recipients_ne (List.length_eq_zero_iff.mp h0)
  have hslot : header.slot true = header.signatures := rfl
  have hsub : 5 + header.extensions.length - 5 = header.extensions.length := by omega
  have hsuite : suite < 2 ^ 16 := by decide
  have hid : header.objectId.toList.length < 2 ^ 64 := by simp
  simp only [maxRecipients, maxMetadataLen, tagLen, maxSignatures, maxExtensions] at *
  simp only [bytes, List.append_assoc, hslot]
  refine (Cbor.reads_map _ (by omega)).bind ?_
  refine (Reads.lift (okOr_some _ _)).bind_nil ?_
  refine (Reads.failIf _ (by simp only [maxExtensions]; omega)).bind_nil ?_
  refine (reads_key (by omega)).bind ?_
  refine (Cbor.reads_u16 _ hsuite).bind ?_
  refine (Reads.failIf _ (by simp)).bind_nil ?_
  refine (reads_key (by omega)).bind ?_
  refine (Cbor.reads_bytes _ hid).bind ?_
  refine (Reads.lift (by rw [tryInto_toList, okOr_some])).bind_nil ?_
  refine (reads_key (by omega)).bind ?_
  refine (Cbor.reads_array _ (by omega)).bind ?_
  refine (Reads.lift (okOr_some _ _)).bind_nil ?_
  refine (Reads.failIf _ (by simp only [maxRecipients]; omega)).bind_nil ?_
  refine (Reads.times fun s hs => reads_decodeStanza (h.stanza s hs)).bind ?_
  refine (reads_key (by omega)).bind ?_
  refine (Cbor.reads_bytes _ (by omega)).bind ?_
  refine (Reads.failIf _ (by simp only [maxMetadataLen, tagLen]; omega)).bind_nil ?_
  refine (reads_key (by omega)).bind ?_
  refine (Cbor.reads_array _ (by omega)).bind ?_
  refine (Reads.lift (okOr_some _ _)).bind_nil ?_
  refine (Reads.failIf _ (by simp only [maxSignatures]; omega)).bind_nil ?_
  refine (Reads.times fun s hs => reads_decodeSignature (h.signature s hs)).bind ?_
  rw [hsub]
  refine (Reads.renameErr (reads_decodeExtensions h.extensions.2 (Or.inr ?_))).bind_last ?_
  · simp only [firstIgnorableKey]
    omega
  · exact Reads.pure _

theorem decode_of_encode {header : ProtectedHeader} {b : Bytes} (h : header.encode = .ok b) :
    decode b = .ok header := by
  obtain ⟨hv, hbytes, hlen⟩ := (encodeWithSignatures_eq_ok header true b).mp h
  rw [hbytes] at h hlen ⊢
  have hread := reads_decodeFields hv []
  rw [List.append_nil] at hread
  simp only [decode, checkHeaderLen, canonical, hread, h, ok_bind]
  rw [failIf_neg _ hlen, failIf_neg _ (by simp)]
  rfl

theorem encode_of_decode {header : ProtectedHeader} {b : Bytes} (h : decode b = .ok header) :
    header.encode = .ok b := by
  simp only [decode, canonical, bind_eq_ok, failIf_eq_ok, pure_eq_ok] at h
  obtain ⟨-, -, ⟨header', rest⟩, -, encoded, henc, -, hcanon, rfl⟩ := h
  have : b = encoded := by
    by_contra hne
    exact hcanon (Or.inr hne)
  rw [this]
  exact henc

end ProtectedHeader

/-! ## The outer header -/

theorem decodeHeader_of_encodeHeader {protectedBytes : Bytes} {mac : Vector UInt8 32} {b : Bytes}
    (h : encodeHeader protectedBytes mac = .ok b) :
    decodeHeader b = .ok (protectedBytes, mac) := by
  have h' := h
  simp only [encodeHeader, checkHeaderLen, bind_eq_ok, failIf_eq_ok, pure_eq_ok, exists_const] at h'
  obtain ⟨hprot, hlen, hbytes⟩ := h'
  rw [hbytes] at h ⊢
  have hmac : mac.toList.length < 2 ^ 64 := by simp
  have hprot' : protectedBytes.length < 2 ^ 64 := by
    simp only [maxHeaderLen] at hprot
    omega
  have hread : Reads decodeHeaderFields
      (Cbor.array 2 ++ Cbor.bytes protectedBytes ++ Cbor.bytes mac.toList) (protectedBytes, mac) := by
    simp only [List.append_assoc]
    refine (Cbor.reads_array _ (by omega)).bind ?_
    refine (Reads.failIf _ (by simp)).bind_nil ?_
    refine (Cbor.reads_bytes _ hprot').bind ?_
    refine (Cbor.reads_bytes _ hmac).bind_last ?_
    exact (Reads.lift (by rw [tryInto_toList, okOr_some])).bind_nil (Reads.pure _)
  have hread' := hread []
  rw [List.append_nil] at hread'
  simp only [decodeHeader, checkHeaderLen, canonical, hread', h, ok_bind]
  rw [failIf_neg _ hlen, failIf_neg _ (by simp)]
  rfl

theorem encodeHeader_of_decodeHeader {protectedBytes : Bytes} {mac : Vector UInt8 32} {b : Bytes}
    (h : decodeHeader b = .ok (protectedBytes, mac)) :
    encodeHeader protectedBytes mac = .ok b := by
  simp only [decodeHeader, canonical, bind_eq_ok, failIf_eq_ok, pure_eq_ok, Prod.mk.injEq] at h
  obtain ⟨-, -, ⟨⟨p', m'⟩, rest⟩, -, encoded, henc, -, hcanon, rfl, rfl⟩ := h
  have : b = encoded := by
    by_contra hne
    exact hcanon (Or.inr hne)
  rw [this]
  exact henc

/-- **Header codec exactness.** Encoding and decoding are inverse to each other, for the
protected header and for the outer one, so a header has exactly one accepted byte form. -/
theorem header_codec_exact :
    (∀ (header : ProtectedHeader) (b : Bytes),
      header.encode = .ok b ↔ ProtectedHeader.decode b = .ok header) ∧
    (∀ (protectedBytes : Bytes) (mac : Vector UInt8 32) (b : Bytes),
      encodeHeader protectedBytes mac = .ok b ↔ decodeHeader b = .ok (protectedBytes, mac)) ∧
    (∀ (header : ProtectedHeader) (b b' : Bytes), ProtectedHeader.decode b = .ok header →
      ProtectedHeader.decode b' = .ok header → b = b') := by
  refine ⟨fun header b => ?_, fun p mac b => ?_, fun header b b' h h' => ?_⟩
  · exact ⟨ProtectedHeader.decode_of_encode, ProtectedHeader.encode_of_decode⟩
  · exact ⟨decodeHeader_of_encodeHeader, encodeHeader_of_decodeHeader⟩
  · have hb := ProtectedHeader.encode_of_decode h
    rw [ProtectedHeader.encode_of_decode h'] at hb
    exact (Except.ok.inj hb).symm

/-! ## Metadata -/

namespace Metadata

/-- The signature as it is written. -/
def slot (metadata : Metadata) (withSignature : Bool) : Option SignatureStanza :=
  if withSignature then metadata.signature else none

/-- Every rule of `encode_with_signature`. None of them bounds the total length. -/
structure Valid (metadata : Metadata) (withSignature : Bool) : Prop where
  extensions : ValidExtensions metadata.extensions
  filename : ∀ s, metadata.filename = some s → validateFilename s = .ok ()
  mediaType : ∀ s, metadata.mediaType = some s → validateMediaType s = .ok ()
  signature : ∀ s, metadata.slot withSignature = some s → s.Valid

/-- The bytes of an optional field. -/
def fieldBytes {α : Type} (field : Option α) (write : α → Bytes) : Bytes := field.elim [] write

/-- The number of map entries written. -/
def entries (metadata : Metadata) (withSignature : Bool) : ℕ :=
  metadata.filename.isSome.toNat + metadata.mediaType.isSome.toNat +
    (metadata.slot withSignature).isSome.toNat + metadata.extensions.length

/-- The bytes `encode_with_signature` writes. -/
def bytes (metadata : Metadata) (withSignature : Bool) : Bytes :=
  Cbor.map (metadata.entries withSignature) ++
    fieldBytes metadata.filename (fun s => Cbor.uint 1 ++ Cbor.str s) ++
    fieldBytes metadata.mediaType (fun s => Cbor.uint 2 ++ Cbor.str s) ++
    fieldBytes (metadata.slot withSignature) (fun s => Cbor.uint 3 ++ s.bytes) ++
    metadata.extensions.flatMap encodeExtension

theorem encodeField_eq_ok {α : Type} {write : α → Except FormatError Bytes} {P : α → Prop}
    {g : α → Bytes} (hw : ∀ a b, write a = .ok b ↔ P a ∧ b = g a) (field : Option α) (b : Bytes) :
    encodeField field write = .ok b ↔ (∀ a, field = some a → P a) ∧ b = fieldBytes field g := by
  cases field with
  | none => simp [encodeField, fieldBytes, eq_comm]
  | some a => simp [encodeField, fieldBytes, hw]

theorem encodeWithSignature_eq_ok (metadata : Metadata) (w : Bool) (b : Bytes) :
    metadata.encodeWithSignature w = .ok b ↔ metadata.Valid w ∧ b = metadata.bytes w := by
  have hsig : ∀ (s : SignatureStanza) (b : Bytes),
      (do let bytes ← encodeSignature .invalidMetadata s; pure (Cbor.uint 3 ++ bytes)) =
      Except.ok b ↔ s.Valid ∧ b = Cbor.uint 3 ++ s.bytes := by
    intro s b
    simp only [bind_eq_ok, encodeSignature_eq_ok, pure_eq_ok]
    constructor
    · rintro ⟨_, ⟨hv, rfl⟩, rfl⟩
      exact ⟨hv, rfl⟩
    · rintro ⟨hv, rfl⟩
      exact ⟨_, ⟨hv, rfl⟩, rfl⟩
  simp only [encodeWithSignature, bind_eq_ok, mapErr_eq_ok, checkExtensions_eq_ok, exists_const,
    encodeField_eq_ok fun s b => check_pure_eq_ok, encodeField_eq_ok hsig, pure_eq_ok]
  constructor
  · rintro ⟨hext, f, ⟨hf, rfl⟩, m, ⟨hm, rfl⟩, s, ⟨hs, rfl⟩, rfl⟩
    exact ⟨⟨hext, hf, hm, hs⟩, rfl⟩
  · rintro ⟨hv, rfl⟩
    exact ⟨hv.extensions, _, ⟨hv.filename, rfl⟩, _, ⟨hv.mediaType, rfl⟩, _, ⟨hv.signature, rfl⟩, rfl⟩

/-! ### The decoder's loop, one key at a time -/

/-- The loop stops in front of the extensions, which are then read. -/
theorem decodeEntries_extensions {metadata : Metadata} {extensions : List Extension} {previous : ℕ}
    (h : ExtensionsFrom 0 extensions) (hprev : previous ≤ 3) (rest : Bytes) :
    decodeEntries extensions.length previous metadata
        (extensions.flatMap encodeExtension ++ rest)
      = .ok ({ metadata with extensions }, rest) := by
  have hread : ∀ f : FormatError → FormatError,
      Reads ((decodeExtensions extensions.length previous).renameErr f)
        (extensions.flatMap encodeExtension) extensions := fun f =>
    Reads.renameErr (reads_decodeExtensions h (Or.inr (by simp only [firstIgnorableKey]; omega)))
  have hstop : decodeCore extensions.length previous metadata
      (extensions.flatMap encodeExtension ++ rest)
      = .ok ((metadata, extensions.length, previous), extensions.flatMap encodeExtension ++ rest) := by
    cases extensions with
    | nil => rfl
    | cons extension tl =>
      have hkey : extension.key.toNat > 3 := by
        have h64 := h.1.1
        simp only [firstIgnorableKey] at h64
        omega
      have hpeek : peek (cbor Cbor.readU64)
          ((extension :: tl).flatMap encodeExtension ++ rest)
          = .ok (extension.key.toNat, (extension :: tl).flatMap encodeExtension ++ rest) := by
        simp only [List.flatMap_cons, encodeExtension, List.append_assoc, peek]
        rw [reads_cbor_u64 extension.key]
        rfl
      show (peek (cbor Cbor.readU64) ((extension :: tl).flatMap encodeExtension ++ rest) >>= _) = _
      rw [hpeek, ok_bind]
      show (if _ then _ else _ : Parser FormatError _) _ = _
      rw [if_pos hkey]
      rfl
  show (decodeCore extensions.length previous metadata _ >>= _) = _
  rw [hstop, ok_bind]
  show ((decodeExtensions extensions.length previous).renameErr _ _ >>= _) = _
  rw [hread]
  rfl

/-- Peeking at a written key. -/
private theorem peek_uint {k : ℕ} (hk : k < 2 ^ 64) (bs : Bytes) :
    peek (cbor Cbor.readU64) (Cbor.uint k ++ bs) = .ok (k, Cbor.uint k ++ bs) := by
  have hread : cbor Cbor.readU64 (Cbor.uint k ++ bs) = .ok (k, bs) := Cbor.reads_u64 _ hk bs
  simp only [peek, hread]
  rfl

/-- One turn of the loop on a core key: the key is read and checked, and its value decides
the rest of the turn. -/
private theorem decodeCore_turn {remaining previous k : ℕ} {metadata : Metadata} (hk : k ≤ 3)
    (hprev : previous < k) (bs : Bytes) :
    decodeCore (remaining + 1) previous metadata (Cbor.uint k ++ bs)
      = (if k = 3 then do
          let stanza ← decodeSignature.renameErr fun _ => .invalidMetadata
          decodeCore remaining k { metadata with signature := some stanza }
        else do
          let text ← cbor Cbor.readStr
          Parser.lift (failIf ((utf8 text).length > 255) .invalidMetadata)
          if k = 1 then decodeCore remaining k { metadata with filename := some text }
          else decodeCore remaining k { metadata with mediaType := some text } :
        Parser FormatError (Metadata × ℕ × ℕ)) bs := by
  have hread : cbor Cbor.readU64 (Cbor.uint k ++ bs) = .ok (k, bs) :=
    Cbor.reads_u64 _ (by omega) bs
  show (peek (cbor Cbor.readU64) (Cbor.uint k ++ bs) >>= _) = _
  rw [peek_uint (by omega), ok_bind]
  show (if k > 3 then _ else _ : Parser FormatError _) _ = _
  rw [if_neg (by omega)]
  show (cbor Cbor.readU64 (Cbor.uint k ++ bs) >>= _) = _
  rw [hread, ok_bind]
  show (Parser.lift (failIf (k ≤ previous ∨ k = 0) FormatError.invalidMetadata) bs >>= _) = _
  rw [failIf_neg _ (by omega)]
  rfl

/-- A text field of at most 255 bytes under key 1 or 2. -/
private theorem decodeCore_text {remaining previous k : ℕ} {metadata : Metadata} (hk : k < 3)
    (hprev : previous < k) {text : String} (htext : (utf8 text).length ≤ 255) (bs : Bytes) :
    decodeCore (remaining + 1) previous metadata (Cbor.uint k ++ Cbor.str text ++ bs)
      = (if k = 1 then decodeCore remaining k { metadata with filename := some text }
        else decodeCore remaining k { metadata with mediaType := some text }) bs := by
  have hread : cbor Cbor.readStr (Cbor.str text ++ bs) = .ok (text, bs) :=
    Cbor.reads_str _ (by omega) bs
  rw [List.append_assoc, decodeCore_turn (by omega) hprev, if_neg (by omega)]
  show (cbor Cbor.readStr (Cbor.str text ++ bs) >>= _) = _
  rw [hread, ok_bind]
  show (Parser.lift (failIf ((utf8 text).length > 255) FormatError.invalidMetadata) bs >>= _) = _
  rw [failIf_neg _ (by omega)]
  rfl

private theorem decodeCore_signature {remaining previous : ℕ} {metadata : Metadata}
    (hprev : previous < 3) {stanza : SignatureStanza} (hs : stanza.Valid) (bs : Bytes) :
    decodeCore (remaining + 1) previous metadata (Cbor.uint 3 ++ stanza.bytes ++ bs)
      = decodeCore remaining 3 { metadata with signature := some stanza } bs := by
  rw [List.append_assoc, decodeCore_turn le_rfl hprev, if_pos rfl]
  show ((decodeSignature.renameErr _) (stanza.bytes ++ bs) >>= _) = _
  rw [Reads.renameErr (reads_decodeSignature hs)]
  rfl

/-- The loop step carries over to the whole entry list. -/
private theorem decodeEntries_congr {r r' q q' : ℕ} {m m' : Metadata} {bs bs' : Bytes}
    (h : decodeCore r q m bs = decodeCore r' q' m' bs') :
    decodeEntries r q m bs = decodeEntries r' q' m' bs' := by
  show (decodeCore r q m bs >>= _) = (decodeCore r' q' m' bs' >>= _)
  rw [h]

theorem validateFilename_len {s : String} (h : validateFilename s = .ok ()) :
    (utf8 s).length ≤ 255 := by
  simp only [validateFilename, failIf_eq_ok, not_or] at h
  exact not_lt.mp h.2.1

theorem validateMediaType_len {s : String} (h : validateMediaType s = .ok ()) :
    (utf8 s).length ≤ 255 := by
  simp only [validateMediaType, failIf_eq_ok, not_or] at h
  exact not_lt.mp h.2.1

/-- The decoder reads back every metadata map that was written, whatever its length. -/
theorem reads_decodeFields {metadata : Metadata} (h : metadata.Valid true) :
    Reads decodeFields (metadata.bytes true) metadata := by
  have hext := h.extensions.1
  have hcount : metadata.entries true ≤ 3 + maxExtensions := by
    simp only [entries, maxExtensions] at hext ⊢
    have h₁ := Bool.toNat_le metadata.filename.isSome
    have h₂ := Bool.toNat_le metadata.mediaType.isSome
    have h₃ := Bool.toNat_le (metadata.slot true).isSome
    omega
  simp only [bytes, List.append_assoc]
  refine (Cbor.reads_map _ (by simp only [maxExtensions] at hcount; omega)).bind ?_
  refine (Reads.lift (okOr_some _ _)).bind_nil ?_
  refine (Reads.failIf _ (by omega)).bind_nil ?_
  intro rest
  obtain ⟨filename, mediaType, signature, extensions⟩ := metadata
  have hslot : slot ⟨filename, mediaType, signature, extensions⟩ true = signature := rfl
  have hs := h.signature
  rw [hslot] at hs
  have hf : ∀ s, filename = some s → (utf8 s).length ≤ 255 := fun s e =>
    validateFilename_len (h.filename s e)
  have hm : ∀ s, mediaType = some s → (utf8 s).length ≤ 255 := fun s e =>
    validateMediaType_len (h.mediaType s e)
  -- The three core keys in turn: at each, the loop either reads the field or finds it absent.
  have hsig : ∀ (q : ℕ) (m : Metadata), q < 3 → m.signature = none →
      decodeEntries (signature.isSome.toNat + extensions.length) q m
        (fieldBytes signature (fun s => Cbor.uint 3 ++ s.bytes) ++
          (extensions.flatMap encodeExtension ++ rest))
        = .ok ({ m with signature := signature, extensions := extensions }, rest) := by
    intro q m hq hm0
    cases signature with
    | none =>
      have hz : (Option.isSome (none : Option SignatureStanza)).toNat + extensions.length
          = extensions.length := by simp
      rw [hz, fieldBytes, Option.elim_none, List.nil_append,
        decodeEntries_extensions h.extensions.2 (by omega), ← hm0]
    | some stanza =>
      have hz : (Option.isSome (some stanza)).toNat + extensions.length
          = extensions.length + 1 := by simp; omega
      rw [hz, fieldBytes, Option.elim_some,
        decodeEntries_congr (decodeCore_signature hq (hs stanza rfl) _),
        decodeEntries_extensions h.extensions.2 (by omega)]
  have hmed : ∀ (q : ℕ) (m : Metadata), q < 2 → m.signature = none → m.mediaType = none →
      decodeEntries (mediaType.isSome.toNat + (signature.isSome.toNat + extensions.length)) q m
        (fieldBytes mediaType (fun s => Cbor.uint 2 ++ Cbor.str s) ++
          (fieldBytes signature (fun s => Cbor.uint 3 ++ s.bytes) ++
            (extensions.flatMap encodeExtension ++ rest)))
        = .ok ({ m with mediaType, signature, extensions }, rest) := by
    intro q m hq hm0 hm1
    cases mediaType with
    | none =>
      rw [Option.isSome_none, Bool.toNat_false, Nat.zero_add, fieldBytes, Option.elim_none,
        List.nil_append, hsig q m (by omega) hm0, ← hm1]
    | some s =>
      rw [Option.isSome_some, Bool.toNat_true, Nat.add_comm 1, fieldBytes, Option.elim_some,
        decodeEntries_congr (decodeCore_text (by omega) hq (hm s rfl) _)]
      exact hsig 2 _ (by omega) hm0
  have hsum : entries ⟨filename, mediaType, signature, extensions⟩ true
      = filename.isSome.toNat + (mediaType.isSome.toNat +
          (signature.isSome.toNat + extensions.length)) := by
    simp only [entries, hslot]
    omega
  rw [hsum, List.append_assoc, List.append_assoc, List.append_assoc, hslot]
  cases filename with
  | none =>
    rw [Option.isSome_none, Bool.toNat_false, Nat.zero_add, fieldBytes, Option.elim_none,
      List.nil_append]
    exact hmed 0 {} (by omega) rfl rfl
  | some s =>
    rw [Option.isSome_some, Bool.toNat_true, Nat.add_comm 1, fieldBytes, Option.elim_some,
      decodeEntries_congr (decodeCore_text (by omega) (by omega) (hf s rfl) _)]
    exact hmed 1 _ (by omega) rfl rfl

theorem decode_of_encode {metadata : Metadata} {b : Bytes} (h : metadata.encode = .ok b)
    (hlen : b.length ≤ maxMetadataLen) : decode b = .ok metadata := by
  obtain ⟨hv, rfl⟩ := (encodeWithSignature_eq_ok metadata true b).mp h
  have hread := reads_decodeFields hv []
  rw [List.append_nil] at hread
  simp only [decode, canonical, hread, h, ok_bind]
  rw [failIf_neg _ (by omega), failIf_neg _ (by simp)]
  rfl

theorem encode_of_decode {metadata : Metadata} {b : Bytes} (h : decode b = .ok metadata) :
    metadata.encode = .ok b := by
  simp only [decode, canonical, bind_eq_ok, failIf_eq_ok, pure_eq_ok] at h
  obtain ⟨-, -, ⟨metadata', rest⟩, -, encoded, henc, -, hcanon, rfl⟩ := h
  have : b = encoded := by
    by_contra hne
    exact hcanon (Or.inr hne)
  rw [this]
  exact henc

theorem length_le_of_decode {metadata : Metadata} {b : Bytes} (h : decode b = .ok metadata) :
    b.length ≤ maxMetadataLen := by
  simp only [decode, bind_eq_ok, failIf_eq_ok] at h
  obtain ⟨-, hlen, -⟩ := h
  exact not_lt.mp hlen

/-! ### The length of an encoding -/

/-- The length of a metadata map's encoding, computed from the lengths of its fields. -/
def encodedLen (metadata : Metadata) : ℕ :=
  Cbor.headLen (metadata.entries true) +
    metadata.filename.elim 0 (fun s => 1 + (Cbor.headLen (utf8 s).length + (utf8 s).length)) +
    metadata.mediaType.elim 0 (fun s => 1 + (Cbor.headLen (utf8 s).length + (utf8 s).length)) +
    metadata.signature.elim 0 (fun s => 1 + (1 + 1 +
      (Cbor.headLen s.verifyingKey.length + s.verifyingKey.length) +
      (Cbor.headLen s.signature.length + s.signature.length))) +
    (metadata.extensions.map fun e => Cbor.headLen e.key.toNat +
      (Cbor.headLen e.value.length + e.value.length)).sum

theorem length_bytes (metadata : Metadata) : (metadata.bytes true).length = metadata.encodedLen := by
  have hext : (metadata.extensions.flatMap encodeExtension).length
      = (metadata.extensions.map fun e => Cbor.headLen e.key.toNat +
          (Cbor.headLen e.value.length + e.value.length)).sum := by
    rw [List.length_flatMap]
    congr 1
    apply List.map_congr_left
    intro e _
    simp [encodeExtension, Cbor.uint, Cbor.bytes]
  have hone : Cbor.headLen 1 = 1 := rfl
  have htwo : Cbor.headLen 2 = 1 := rfl
  have hthree : Cbor.headLen 3 = 1 := rfl
  obtain ⟨filename, mediaType, signature, extensions⟩ := metadata
  simp only [bytes, encodedLen, List.length_append, hext, Cbor.map, Cbor.length_head]
  cases filename <;> cases mediaType <;> cases signature <;>
    simp [fieldBytes, slot, Cbor.uint, Cbor.str, Cbor.bytes, Cbor.array, SignatureStanza.bytes,
      hone, htwo, hthree] <;> omega

/-- **Metadata codec exactness, up to the missing limit.** Encoding and decoding a metadata
value are inverse to each other exactly when the value either breaks a rule of the encoder
or has an encoding of at most `maxMetadataLen` bytes: the decoder refuses longer ones, and
`encode` does not check. -/
theorem metadata_codec_exact_iff (metadata : Metadata) :
    ((∀ b, metadata.encode = .ok b → decode b = .ok metadata) ∧
      (∀ b, decode b = .ok metadata → metadata.encode = .ok b)) ↔
    (metadata.Valid true → metadata.encodedLen ≤ maxMetadataLen) := by
  constructor
  · rintro ⟨hdec, -⟩ hv
    have henc := (encodeWithSignature_eq_ok metadata true _).mpr ⟨hv, rfl⟩
    rw [← length_bytes]
    exact length_le_of_decode (hdec _ henc)
  · intro hlen
    refine ⟨fun b h => ?_, fun b h => encode_of_decode h⟩
    obtain ⟨hv, hb⟩ := (encodeWithSignature_eq_ok metadata true b).mp h
    refine decode_of_encode h ?_
    rw [hb, length_bytes]
    exact hlen hv

/-- Four extensions with one value: every rule on extensions holds when it is 64 KiB long. -/
def fourExtensions (value : Bytes) : Metadata where
  extensions := [64, 65, 66, 67].map fun k => ⟨k, value⟩

/-- Four extensions of 64 KiB each encode, to 262173 bytes, and do not decode. -/
theorem four_full_extensions_encode_and_are_refused :
    ∃ b, (fourExtensions (List.replicate 65536 0)).encode = .ok b ∧
      decode b = .error .invalidMetadata := by
  have key : ∀ value : Bytes, value.length = 65536 →
      ∃ b, (fourExtensions value).encode = .ok b ∧ decode b = .error .invalidMetadata := by
    intro value hval
    have hv : (fourExtensions value).Valid true := by
      refine ⟨⟨by simp [fourExtensions, maxExtensions], ?_⟩, by simp [fourExtensions],
        by simp [fourExtensions], by simp [fourExtensions, slot]⟩
      simp [fourExtensions, ExtensionsFrom, firstIgnorableKey, maxExtensionLen, hval]
    have hlen : ((fourExtensions value).bytes true).length = 262173 := by
      rw [length_bytes]
      simp [encodedLen, fourExtensions, entries, slot, Cbor.headLen, hval]
    refine ⟨_, (encodeWithSignature_eq_ok _ true _).mpr ⟨hv, rfl⟩, ?_⟩
    rw [decode, failIf_pos _ (by rw [hlen]; decide)]
    rfl
  exact key _ List.length_replicate

end Metadata

end HideProtocol.Format
