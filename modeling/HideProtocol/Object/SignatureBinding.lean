import HideProtocol.Object.RoundTrip

/-!
# What a signature binds

The recipients of a container hold its content key, so only the signature stands between them
and a rewritten header. The transcript is read back field by field (`transcript_inj`): each is
of fixed width, behind its length or behind its count. The legacy transcript leaves out stanza
tags and header extensions. It binds the rest where all stanzas are X-Wing ones
(`legacyTranscript_inj`), and its two ends whatever the stanzas are (`legacyTranscript_front`,
`legacyTranscript_end`).
Unless the signature it carries is a forgery, an accepted container then agrees with one of the
runs its signer made in everything the transcript holds (`signature_binds`).
-/

namespace HideProtocol.Object

open Lib Format Crypto

/-! ## The transcript is injective -/

/-- Every `Vec` of a header has a length that fits a `u64`. -/
structure Fits (header : ProtectedHeader) : Prop where
  recipients : header.recipients.length < 2 ^ 64
  fields : ∀ s ∈ header.recipients, s.fields.length < 2 ^ 64 ∧ ∀ f ∈ s.fields, f.length < 2 ^ 64
  extensions : header.extensions.length < 2 ^ 64
  values : ∀ e ∈ header.extensions, e.value.length < 2 ^ 64

/-- The tag and all fields of a stanza. -/
def wire (stanza : Stanza) : ℕ × List Bytes := (stanza.tag.toNat, stanza.fields)

/-- `transcriptStanza`, as a function of what it reads. -/
def transcriptWire (stanza : ℕ × List Bytes) : Bytes :=
  beBytes 8 stanza.1 ++ (beBytes 8 stanza.2.length ++ stanza.2.flatMap (lenPrefixed 8))

theorem selfDelimiting_transcriptWire :
    SelfDelimiting (fun s : ℕ × List Bytes =>
      s.1 < 256 ^ 8 ∧ s.2.length < 256 ^ 8 ∧ ∀ f ∈ s.2, f.length < 256 ^ 8) transcriptWire :=
  (selfDelimiting_beBytes 8).append ((selfDelimiting_lenPrefixed 8).counted 8)

theorem selfDelimiting_transcriptExtension :
    SelfDelimiting (fun e : Extension => e.value.length < 256 ^ 8) transcriptExtension := by
  intro e e' x y he he' heq
  have hkey : e.key.toNat < 256 ^ 2 := e.key.toNat_lt
  have hkey' : e'.key.toNat < 256 ^ 2 := e'.key.toNat_lt
  simp only [transcriptExtension, List.append_assoc] at heq
  obtain ⟨hk, heq⟩ := selfDelimiting_beBytes 2 _ _ _ _ hkey hkey' heq
  obtain ⟨hv, hxy⟩ := selfDelimiting_lenPrefixed 8 _ _ _ _ he he' heq
  have he : e = e' := by
    rw [show e = ⟨e.key, e.value⟩ from rfl, UInt16.toNat_inj.mp hk, hv]
  exact ⟨he, hxy⟩

theorem flatMap_transcriptStanza (stanzas : List Stanza) :
    stanzas.flatMap transcriptStanza = (stanzas.map wire).flatMap transcriptWire := by
  rw [List.flatMap_map]
  rfl

theorem Fits.wires {header : ProtectedHeader} (h : Fits header) :
    ∀ s ∈ header.recipients.map wire,
      s.1 < 256 ^ 8 ∧ s.2.length < 256 ^ 8 ∧ ∀ f ∈ s.2, f.length < 256 ^ 8 := by
  intro s hs
  obtain ⟨stanza, hmem, rfl⟩ := List.mem_map.mp hs
  obtain ⟨hcount, hfields⟩ := h.fields stanza hmem
  have htag : stanza.tag.toNat < 2 ^ 16 := stanza.tag.toNat_lt
  refine ⟨?_, ?_, ?_⟩
  · show stanza.tag.toNat < 256 ^ 8
    omega
  · show stanza.fields.length < 256 ^ 8
    omega
  · intro f hf
    have := hfields f hf
    omega

section
variable {preamble preamble' : Preamble} {header header' : ProtectedHeader}
  {base base' : Bytes} {hash hash' : Key} {n n' : ℕ}

/-- What both transcripts end with. -/
theorem transcriptTail_inj (hbase : base.length < 2 ^ 64) (hbase' : base'.length < 2 ^ 64)
    (hn : n < 2 ^ 64) (hn' : n' < 2 ^ 64)
    (heq : lenPrefixed 8 base ++ (hash.toList ++ beBytes 8 n) =
      lenPrefixed 8 base' ++ (hash'.toList ++ beBytes 8 n')) :
    base = base' ∧ hash = hash' ∧ n = n' := by
  obtain ⟨h₁, heq⟩ := selfDelimiting_lenPrefixed 8 _ _ _ _ (by omega) (by omega) heq
  obtain ⟨h₂, heq⟩ := selfDelimiting_vector 32 _ _ _ _ trivial trivial heq
  exact ⟨h₁, h₂, beBytes_inj (by omega) (by omega) heq⟩

/-- The HIDE/1.0 transcript determines everything it commits to. -/
theorem transcript_inj (hlegacy : preamble.isLegacy = false) (hlegacy' : preamble'.isLegacy = false)
    (hfits : Fits header) (hfits' : Fits header') (hbase : base.length < 2 ^ 64)
    (hbase' : base'.length < 2 ^ 64) (hn : n < 2 ^ 64) (hn' : n' < 2 ^ 64)
    (heq : transcript preamble header base hash n = transcript preamble' header' base' hash' n') :
    preamble.minor = preamble'.minor ∧ preamble.flags = preamble'.flags ∧
      header.objectId = header'.objectId ∧
      header.recipients.map wire = header'.recipients.map wire ∧
      header.extensions = header'.extensions ∧ base = base' ∧ hash = hash' ∧ n = n' := by
  have hpow : (256 : ℕ) ^ 8 = 2 ^ 64 := by norm_num
  simp only [transcript, hlegacy, hlegacy', Bool.false_eq_true, if_false, List.append_assoc] at heq
  have heq := List.append_cancel_left heq
  obtain ⟨hversion, heq⟩ := List.append_inj heq (by simp)
  obtain ⟨hminor, hflags⟩ := Preamble.signedPrefix_inj hversion
  have heq := List.append_cancel_left heq
  obtain ⟨hid, heq⟩ := selfDelimiting_vector 32 _ _ _ _ trivial trivial heq
  -- the stanzas, behind their count
  obtain ⟨hcount, heq⟩ := selfDelimiting_beBytes 8 _ _ _ _ (hpow ▸ hfits.recipients)
    (hpow ▸ hfits'.recipients) heq
  rw [flatMap_transcriptStanza, flatMap_transcriptStanza] at heq
  obtain ⟨hrec, heq⟩ := selfDelimiting_transcriptWire.flatMap
    (by rw [List.length_map, List.length_map, hcount]) hfits.wires hfits'.wires heq
  -- the extensions, likewise
  obtain ⟨hcount, heq⟩ := selfDelimiting_beBytes 8 _ _ _ _ (hpow ▸ hfits.extensions)
    (hpow ▸ hfits'.extensions) heq
  obtain ⟨hext, heq⟩ := selfDelimiting_transcriptExtension.flatMap hcount
    (by rw [hpow]; exact hfits.values) (by rw [hpow]; exact hfits'.values) heq
  obtain ⟨h₁, h₂, h₃⟩ := transcriptTail_inj hbase hbase' hn hn' heq
  exact ⟨hminor, hflags, hid, hrec, hext, h₁, h₂, h₃⟩

/-- Well-formed X-Wing stanzas only, as minor 2 admits them. -/
def LegacyStanzas (header : ProtectedHeader) : Prop :=
  ∀ s ∈ header.recipients, s.asXwing.isSome ∧ s.Valid

/-- A header as minor 2 may carry it. -/
def LegacyShape (header : ProtectedHeader) : Prop :=
  header.extensions = [] ∧ LegacyStanzas header

theorem selfDelimiting_legacyStanza :
    SelfDelimiting (fun s : RecipientStanza => (Stanza.xWing s).Valid)
      (fun s => s.encapsulation ++ s.wrappedCek) := by
  intro s s' x y hs hs' heq
  simp only [List.append_assoc] at heq
  obtain ⟨henc, heq⟩ := selfDelimiting_fixed encapsulationLen _ _ _ _ hs.1 hs'.1 heq
  obtain ⟨hcek, hxy⟩ := selfDelimiting_fixed wrappedCekLen _ _ _ _ hs.2 hs'.2 heq
  have hs : s = s' := by
    rw [show s = ⟨s.encapsulation, s.wrappedCek⟩ from rfl, henc, hcek]
  exact ⟨hs, hxy⟩

/-- Stanzas that are all X-Wing are what `asXwing` makes of them. -/
theorem map_xWing_filterMap {stanzas : List Stanza} (h : ∀ s ∈ stanzas, s.asXwing.isSome) :
    (stanzas.filterMap Stanza.asXwing).map Stanza.xWing = stanzas := by
  induction stanzas with
  | nil => rfl
  | cons s stanzas ih =>
    have hs := h s List.mem_cons_self
    have hrest := ih fun t ht => h t (List.mem_cons_of_mem _ ht)
    rcases s with x | x
    · rw [List.filterMap_cons_some (show (Stanza.xWing x).asXwing = some x from rfl),
        List.map_cons, hrest]
    · cases hs

theorem LegacyStanzas.length_filterMap (h : LegacyStanzas header) :
    (header.recipients.filterMap Stanza.asXwing).length = header.recipients.length := by
  have hx := congrArg List.length (map_xWing_filterMap fun s hs => (h s hs).1)
  rwa [List.length_map] at hx

/-- The X-Wing stanzas of a list of well-formed ones are well-formed. -/
theorem valid_of_filterMap {stanzas : List Stanza} (h : ∀ s ∈ stanzas, s.Valid) :
    ∀ x ∈ stanzas.filterMap Stanza.asXwing, (Stanza.xWing x).Valid := by
  intro x hx
  obtain ⟨s, hs, hsome⟩ := List.mem_filterMap.mp hx
  rcases s with y | y
  · have hy : y = x := Option.some.inj hsome
    rw [← hy]
    exact h _ hs
  · cases hsome

/-- What follows the count of the stanzas in a legacy transcript. -/
def legacyBody (header : ProtectedHeader) (base : Bytes) (hash : Key) (n : ℕ) : Bytes :=
  (header.recipients.filterMap Stanza.asXwing).flatMap (fun s => s.encapsulation ++ s.wrappedCek) ++
    (lenPrefixed 8 base ++ (hash.toList ++ beBytes 8 n))

/-- Whatever the stanzas are, the object id and their count can be read off the front. -/
theorem legacyTranscript_front (hfits : header.recipients.length < 2 ^ 64)
    (hfits' : header'.recipients.length < 2 ^ 64)
    (heq : legacyTranscript header base hash n = legacyTranscript header' base' hash' n') :
    header.objectId = header'.objectId ∧
      header.recipients.length = header'.recipients.length ∧
      legacyBody header base hash n = legacyBody header' base' hash' n' := by
  have hpow : (256 : ℕ) ^ 8 = 2 ^ 64 := by norm_num
  simp only [legacyTranscript, List.append_assoc] at heq
  have heq := List.append_cancel_left heq
  have heq := List.append_cancel_left heq
  obtain ⟨hid, heq⟩ := selfDelimiting_vector 32 _ _ _ _ trivial trivial heq
  obtain ⟨hcount, heq⟩ := selfDelimiting_beBytes 8 _ _ _ _ (hpow ▸ hfits) (hpow ▸ hfits') heq
  exact ⟨hid, hcount, heq⟩

/-- Nothing but the object id, the count and the body is signed. -/
theorem legacyTranscript_congr (hid : header.objectId = header'.objectId)
    (hcount : header.recipients.length = header'.recipients.length)
    (hbody : legacyBody header base hash n = legacyBody header' base' hash' n') :
    legacyTranscript header base hash n = legacyTranscript header' base' hash' n' := by
  unfold legacyBody at hbody
  simp only [legacyTranscript, List.append_assoc, hid, hcount, hbody]

/-- The hash and the length are the last forty bytes. -/
theorem legacyTranscript_end (hn : n < 2 ^ 64) (hn' : n' < 2 ^ 64)
    (heq : legacyBody header base hash n = legacyBody header' base' hash' n') :
    hash = hash' ∧ n = n' := by
  simp only [legacyBody, ← List.append_assoc] at heq
  obtain ⟨heq, hlen⟩ := List.append_inj' heq (by simp)
  obtain ⟨-, hhash⟩ := List.append_inj' heq (by simp)
  exact ⟨Vector.toList_inj.mp hhash, beBytes_inj (by omega) (by omega) hlen⟩

/-- Where one of two headers has no more X-Wing stanzas than the other, all well-formed, they
are the first ones of the other. -/
theorem legacyBody_stanzas
    (hle : (header'.recipients.filterMap Stanza.asXwing).length ≤
      (header.recipients.filterMap Stanza.asXwing).length)
    (hvalid : ∀ s ∈ header.recipients, s.Valid) (hvalid' : ∀ s ∈ header'.recipients, s.Valid)
    (heq : legacyBody header base hash n = legacyBody header' base' hash' n') :
    header'.recipients.filterMap Stanza.asXwing <+: header.recipients.filterMap Stanza.asXwing := by
  let known := header.recipients.filterMap Stanza.asXwing
  let known' := header'.recipients.filterMap Stanza.asXwing
  have hcut : known = known.take known'.length ++ known.drop known'.length :=
    (List.take_append_drop _ _).symm
  have hlen : (known.take known'.length).length = known'.length := by
    rw [List.length_take]
    exact Nat.min_eq_left hle
  have hknown : ∀ x ∈ known.take known'.length, (Stanza.xWing x).Valid :=
    fun x hx => valid_of_filterMap hvalid x (List.mem_of_mem_take hx)
  unfold legacyBody at heq
  rw [show header.recipients.filterMap Stanza.asXwing = _ from hcut, List.flatMap_append,
    List.append_assoc] at heq
  obtain ⟨hrec, -⟩ := selfDelimiting_legacyStanza.flatMap hlen hknown (valid_of_filterMap hvalid')
    heq
  show known' <+: known
  rw [show known' = known.take known'.length from hrec.symm]
  exact List.take_prefix _ _

/-- On well-formed X-Wing stanzas the HIDE/0.5 transcript determines everything as well, but for
the header's extensions. -/
theorem legacyTranscript_inj (hstanzas : LegacyStanzas header) (hstanzas' : LegacyStanzas header')
    (hfits : Fits header) (hfits' : Fits header') (hbase : base.length < 2 ^ 64)
    (hbase' : base'.length < 2 ^ 64) (hn : n < 2 ^ 64) (hn' : n' < 2 ^ 64)
    (heq : legacyTranscript header base hash n = legacyTranscript header' base' hash' n') :
    header.objectId = header'.objectId ∧ header.recipients = header'.recipients ∧
      base = base' ∧ hash = hash' ∧ n = n' := by
  obtain ⟨hid, hcount, heq⟩ := legacyTranscript_front hfits.recipients hfits'.recipients heq
  -- nothing but the count separates the stanzas from the metadata
  have hlen : (header.recipients.filterMap Stanza.asXwing).length =
      (header'.recipients.filterMap Stanza.asXwing).length := by
    rw [hstanzas.length_filterMap, hstanzas'.length_filterMap, hcount]
  obtain ⟨hrec, heq⟩ := selfDelimiting_legacyStanza.flatMap hlen
    (valid_of_filterMap fun s hs => (hstanzas s hs).2)
    (valid_of_filterMap fun s hs => (hstanzas' s hs).2) heq
  obtain ⟨h₁, h₂, h₃⟩ := transcriptTail_inj hbase hbase' hn hn' heq
  refine ⟨hid, ?_, h₁, h₂, h₃⟩
  rw [← map_xWing_filterMap fun s hs => (hstanzas s hs).1,
    ← map_xWing_filterMap fun s hs => (hstanzas' s hs).1, hrec]

end

/-! ## Decoded headers and metadata fit -/

theorem ExtensionsFrom.value_le {extensions : List Extension} {previous : ℕ}
    (h : ExtensionsFrom previous extensions) :
    ∀ e ∈ extensions, e.value.length ≤ maxExtensionLen := by
  induction extensions generalizing previous with
  | nil => simp
  | cons extension rest ih =>
    intro e he
    rcases List.mem_cons.mp he with rfl | he
    · exact h.1.2.2
    · exact ih h.2 e he

theorem Fits.of_parts {header : ProtectedHeader} (hle : header.recipients.length ≤ maxRecipients)
    (hvalid : ∀ s ∈ header.recipients, s.Valid) (hext : ValidExtensions header.extensions) :
    Fits header where
  recipients := by
    rw [maxRecipients] at hle
    omega
  fields := by
    intro s hs
    have hvalid := hvalid s hs
    rcases s with x | x
    · obtain ⟨henc, hcek⟩ := hvalid
      rw [encapsulationLen] at henc
      rw [wrappedCekLen] at hcek
      refine ⟨(by decide : 2 < 2 ^ 64), ?_⟩
      intro f hf
      simp only [Stanza.fields, List.mem_cons, List.not_mem_nil, or_false] at hf
      rcases hf with rfl | rfl
      · omega
      · omega
    · obtain ⟨-, hcount, hfields⟩ := hvalid
      rw [maxStanzaItems] at hcount
      refine ⟨lt_trans hcount (by decide), ?_⟩
      intro f hf
      have := hfields f hf
      rw [maxExtensionLen] at this
      omega
  extensions := by
    have := hext.1
    rw [maxExtensions] at this
    omega
  values := by
    intro e he
    have := ExtensionsFrom.value_le hext.2 e he
    rw [maxExtensionLen] at this
    omega

theorem Fits.of_valid {header : ProtectedHeader} (h : header.Valid true) : Fits header :=
  .of_parts h.recipients_le h.stanza h.extensions

section
variable {metadata metadata' : Metadata} {base bytes : Bytes}

/-- The signing base is the encoding of the metadata without its signature. -/
theorem signingBase_eq_encode (metadata : Metadata) :
    metadata.signingBase = ({ metadata with signature := none } : Metadata).encode := rfl

theorem headLen_mono {m n : ℕ} (h : m ≤ n) : Cbor.headLen m ≤ Cbor.headLen n := by
  unfold Cbor.headLen
  grind

/-- A base is no longer than the metadata it was taken from. -/
theorem signingBase_length_le (hbase : metadata.signingBase = .ok base)
    (hbytes : metadata.encode = .ok bytes) : base.length ≤ bytes.length := by
  rw [signingBase_eq_encode] at hbase
  rw [((Metadata.encodeWithSignature_eq_ok _ true _).mp hbase).2,
    ((Metadata.encodeWithSignature_eq_ok _ true _).mp hbytes).2, Metadata.length_bytes,
    Metadata.length_bytes]
  have hentries : ({ metadata with signature := none } : Metadata).entries true ≤
      metadata.entries true := by
    simp [Metadata.entries, Metadata.slot]
  have := headLen_mono hentries
  simp only [Metadata.encodedLen, Option.elim_none]
  omega

theorem signingBase_fits (hbase : metadata.signingBase = .ok base) : base.length < 2 ^ 64 := by
  obtain ⟨hvalid, rfl⟩ := (Metadata.encodeWithSignature_eq_ok _ false _).mp hbase
  have hext : (metadata.extensions.flatMap encodeExtension).length ≤
      metadata.extensions.length * 65554 := by
    apply length_flatMap_le
    intro e he
    have hvalue := ExtensionsFrom.value_le hvalid.extensions.2 e he
    have := Cbor.headLen_le e.key.toNat
    have := Cbor.headLen_le e.value.length
    rw [maxExtensionLen] at hvalue
    simp only [encodeExtension, Cbor.uint, Cbor.bytes, List.length_append, Cbor.length_head]
    omega
  have hcount := hvalid.extensions.1
  rw [maxExtensions] at hcount
  have htext : ∀ (field : Option String) (k : ℕ), (∀ s, field = some s → (utf8 s).length ≤ 255) →
      (Metadata.fieldBytes field fun s => Cbor.uint k ++ Cbor.str s).length ≤ 300 := by
    intro field k hfield
    rcases field with _ | text
    · simp [Metadata.fieldBytes]
    · have := hfield text rfl
      have := Cbor.headLen_le k
      have := Cbor.headLen_le (utf8 text).length
      simp only [Metadata.fieldBytes, Option.elim_some, Cbor.uint, Cbor.str, List.length_append,
        Cbor.length_head]
      omega
  have hname := htext metadata.filename 1 fun s hs =>
    Metadata.validateFilename_len (hvalid.filename s hs)
  have htype := htext metadata.mediaType 2 fun s hs =>
    Metadata.validateMediaType_len (hvalid.mediaType s hs)
  have hhead := Cbor.headLen_le (metadata.entries false)
  have hslot : (Metadata.fieldBytes (metadata.slot false) fun s => Cbor.uint 3 ++ s.bytes) = [] :=
    rfl
  simp only [Metadata.bytes, List.length_append, hslot, Cbor.map, Cbor.length_head, List.length_nil]
  omega

/-- The base determines the metadata apart from the signature. -/
theorem signingBase_inj (hbase : metadata.signingBase = .ok base)
    (hbase' : metadata'.signingBase = .ok base) (hlen : base.length ≤ maxMetadataLen) :
    metadata.filename = metadata'.filename ∧ metadata.mediaType = metadata'.mediaType ∧
      metadata.extensions = metadata'.extensions := by
  rw [signingBase_eq_encode] at hbase hbase'
  have hdecode := Metadata.decode_of_encode hbase hlen
  rw [Metadata.decode_of_encode hbase' hlen] at hdecode
  have heq := Except.ok.inj hdecode
  exact ⟨(congrArg Metadata.filename heq).symm, (congrArg Metadata.mediaType heq).symm,
    (congrArg Metadata.extensions heq).symm⟩

end

/-! ## What the reader checked -/

section
variable {P : Crypto.Primitives} {S : Sign.Primitives}

/-- The stanza a container carries its signature in. -/
def carriedStanza (header : ProtectedHeader) (metadata : Metadata) : Option SignatureStanza :=
  header.signatures.head?.or metadata.signature

/-- A named signer's signature over what the reader holds is in the stanza carried. -/
theorem verifySignature_signer {preamble : Preamble} {header : ProtectedHeader}
    {metadata : Metadata} {plaintextHash : Key} {n : ℕ} {identity : Sign.VerifyingIdentity S}
    (h : verifySignature S preamble header metadata plaintextHash n = .ok (some identity)) :
    ∃ base stanza, metadata.signingBase = .ok base ∧
      carriedStanza header metadata = some stanza ∧
      identity.verify (signingContext preamble) (transcript preamble header base plaintextHash n)
        stanza.signature = .ok () := by
  -- both places lead to the same check
  have hcheck : ∀ stanza : SignatureStanza, (do
      failIf (!preamble.isSigned) ObjectError.unexpectedSignature
      let identity ← mapErr (fun _ => ObjectError.invalidSignature)
        (Sign.VerifyingIdentity.fromBytes S stanza.verifyingKey)
      let base ← mapErr ObjectError.format metadata.signingBase
      let message := transcript preamble header base plaintextHash n
      mapErr (fun _ => ObjectError.invalidSignature)
        (identity.verify (signingContext preamble) message stanza.signature)
      pure (some identity)) = Except.ok (some identity) →
      ∃ base, metadata.signingBase = .ok base ∧
        identity.verify (signingContext preamble) (transcript preamble header base plaintextHash n)
          stanza.signature = .ok () := by
    intro stanza hok
    simp only [bind_eq_ok, mapErr_eq_ok, pure_eq_ok] at hok
    obtain ⟨_, -, found, -, base, hbase, _, hverify, heq⟩ := hok
    rw [← Option.some.inj heq] at hverify
    exact ⟨base, hbase, hverify⟩
  unfold verifySignature at h
  split at h
  next => cases h
  next stanza hheader hmetadata =>
    obtain ⟨base, hbase, hverify⟩ := hcheck stanza h
    exact ⟨base, stanza, hbase, by simp [carriedStanza, hheader], hverify⟩
  next stanza hheader hmetadata =>
    obtain ⟨base, hbase, hverify⟩ := hcheck stanza h
    exact ⟨base, stanza, hbase, by simp [carriedStanza, hheader, hmetadata], hverify⟩
  next =>
    split at h
    · cases h
    · cases Except.ok.inj h

/-- A header that opened was decoded and passed the checks for minor 2. -/
theorem openHeader_eq_ok {input : Bytes} {secret : RecipientSecret} {opened : Opened}
    (h : openHeader P input secret = .ok opened) :
    opened.header.Valid true ∧ (opened.preamble.isLegacy = true → LegacyShape opened.header) ∧
      ∃ bytes, opened.metadata.encode = .ok bytes ∧ bytes.length ≤ maxMetadataLen := by
  unfold openHeader at h
  simp only [bind_eq_ok, mapErr_eq_ok, failIf_eq_ok, pure_eq_ok, Prod.exists] at h
  obtain ⟨_, _, _, preamble, -, _, _, -, protectedBytes, _, -, header, hheader, _, hlegacy, _, -,
    plaintext, -, metadata, hmetadata, _, -, _, _, -, _, -, rfl⟩ := h
  have hvalid := ((ProtectedHeader.encodeWithSignatures_eq_ok _ true _).mp
    (ProtectedHeader.encode_of_decode hheader)).1
  refine ⟨hvalid, ?_, plaintext, Metadata.encode_of_decode hmetadata,
    Metadata.length_le_of_decode hmetadata⟩
  intro hminor
  have hok := fun hbad => hlegacy ⟨hminor, hbad⟩
  constructor
  · by_contra hext
    exact hok (Or.inl hext)
  · intro s hs
    refine ⟨?_, hvalid.stanza s hs⟩
    by_contra hnone
    apply hok
    right
    apply List.any_eq_true.mpr
    exact ⟨s, hs, by simpa using hnone⟩

/-- An accepted container opened, its payload was read, and its signature was checked over the
hash and length of what was staged. -/
theorem decryptToStaging_eq_ok (hP : AeadShrinks P) {input : Bytes} {secret : RecipientSecret}
    {verified : VerifiedObject S} (h : (decryptToStaging P S input secret).result = .ok verified) :
    ∃ opened, openHeader P input secret = .ok opened ∧ verified.metadata = opened.metadata ∧
      verified.plaintextLen = (decryptToStaging P S input secret).staging.length ∧
      verified.plaintextLen < 2 ^ 64 ∧
      verifySignature S opened.preamble opened.header opened.metadata
        (hash P [(decryptToStaging P S input secret).staging]) verified.plaintextLen =
        .ok verified.signer := by
  unfold decryptToStaging at h ⊢
  rcases hopened : openHeader P input secret with error | opened
  · simp [hopened] at h
  · simp only [hopened, bind_eq_ok, pure_eq_ok] at h ⊢
    obtain ⟨n, hn, signer, hsigner, rfl⟩ := h
    have htotal := decryptLoop_total _ _ _ _ hn
    have hmax : (maxChunks - 0) * chunkLen < 2 ^ 64 := by decide
    rw [Nat.zero_add] at htotal
    exact ⟨opened, rfl, rfl, htotal.1, by
      rw [htotal.1]
      exact lt_of_le_of_lt (htotal.2 hP) hmax, hsigner⟩

end

/-! ## The runs of a signer -/

/-- What a signing run of `encryptInner` is given, and the plaintext it read. The lengths of
its `Vec`s fit a `u64`. -/
structure SigningRun where
  metadata : Metadata
  material : ObjectMaterial
  recipients : List RecipientStanza
  placement : SignaturePlacement
  shape : VectorShape
  plaintext : Bytes
  fits : Fits (unsignedHeader material recipients shape)
  plaintext_fits : plaintext.length < 2 ^ 64

namespace SigningRun

def header (run : SigningRun) : ProtectedHeader :=
  unsignedHeader run.material run.recipients run.shape

/-- The context and message a run signs, where it gets as far as signing. -/
def Signs (P : Crypto.Primitives) (identity : Sign.SigningIdentity) (run : SigningRun)
    (context message : Bytes) : Prop :=
  ∃ base provisional, run.metadata.signingBase = .ok base ∧
    preambleFor (some (identity, run.placement)) run.shape 1 = .ok provisional ∧
    context = signingContext provisional ∧
    message = transcript provisional run.header base (hash P [run.plaintext]) run.plaintext.length

/-- `signContents` signs what `Signs` says, and nothing else. -/
theorem signContents_signs {P : Crypto.Primitives} {S : Sign.Primitives} {run : SigningRun}
    {identity : Sign.SigningIdentity} {contents : ProtectedHeader × Metadata}
    (h : signContents P S run.metadata run.material run.recipients
      (some (identity, run.placement)) run.shape run.plaintext = .ok contents) :
    ∃ provisional message, run.Signs P identity (signingContext provisional) message ∧
      contents = placeSignature S identity run.placement provisional message run.header
        run.metadata := by
  unfold signContents at h
  simp only [bind_eq_ok, mapErr_eq_ok, pure_eq_ok] at h
  obtain ⟨base, hbase, provisional, hprovisional, rfl⟩ := h
  exact ⟨provisional, _, ⟨base, provisional, hbase, hprovisional, rfl, rfl⟩, rfl⟩

end SigningRun

/-- What the reader of an opened container checks a signature over. -/
def Opened.message (P : Crypto.Primitives) (opened : Opened) (base staging : Bytes) : Bytes :=
  transcript opened.preamble opened.header base (hash P [staging]) staging.length

/-- The signature in a container is no forgery: if the one it carries verifies under the key of
`identity`, over what its reader holds, then one of `runs` signed the payload it verifies. -/
def Unforged (P : Crypto.Primitives) (S : Sign.Primitives) (identity : Sign.SigningIdentity)
    (runs : Set SigningRun) (input : Bytes) (secret : RecipientSecret) : Prop :=
  ∀ opened stanza base, openHeader P input secret = .ok opened →
    carriedStanza opened.header opened.metadata = some stanza →
    opened.metadata.signingBase = .ok base →
    (identity.verifyingKey S).verify (signingContext opened.preamble)
      (opened.message P base (decryptToStaging P S input secret).staging) stanza.signature =
        .ok () →
    ∃ run ∈ runs, ∃ context message, run.Signs P identity context message ∧
      Sign.bind (signingContext opened.preamble)
        (opened.message P base (decryptToStaging P S input secret).staging) =
          Sign.bind context message

theorem length_signingContext (preamble : Preamble) :
    (signingContext preamble).length < 2 ^ 64 := by
  unfold signingContext
  split
  · exact (by decide : (utf8 "HIDE/0.5 container").length < 2 ^ 64)
  · exact (by decide : (utf8 "HIDE/1.0 container").length < 2 ^ 64)

/-- The two contexts tell the two transcripts apart. -/
theorem signingContext_inj {preamble preamble' : Preamble}
    (h : signingContext preamble = signingContext preamble') :
    preamble.isLegacy = preamble'.isLegacy := by
  have hne : legacySigningContext ≠ signingContextBytes := by
    intro heq
    exact absurd (utf8_inj heq) (by decide)
  unfold signingContext at h
  by_cases hlegacy : preamble.isLegacy = true
  · by_cases hlegacy' : preamble'.isLegacy = true
    · rw [hlegacy, hlegacy']
    · rw [if_pos hlegacy, if_neg hlegacy'] at h
      exact absurd h hne
  · by_cases hlegacy' : preamble'.isLegacy = true
    · rw [if_neg hlegacy, if_pos hlegacy'] at h
      exact absurd h.symm hne
    · rw [Bool.not_eq_true] at hlegacy hlegacy'
      rw [hlegacy, hlegacy']

/-- Minor 2 has no flags, so a signing run writes it only in its legacy form. -/
theorem preambleFor_isLegacy {identity : Sign.SigningIdentity} {placement : SignaturePlacement}
    {shape : VectorShape} {n : ℕ} {preamble : Preamble}
    (h : preambleFor (some (identity, placement)) shape n = .ok preamble) :
    preamble.isLegacy = true ↔ placement = .legacyPublic := by
  obtain ⟨hminor, hflags⟩ := preambleFor_eq_ok h
  by_cases hplacement : placement = .legacyPublic
  · rw [if_pos (by rw [hplacement]; rfl)] at hminor
    simp [Preamble.isLegacy, hminor, hplacement]
  · have hne : Option.map Prod.snd (some (identity, placement)) ≠ some .legacyPublic := by
      intro heq
      exact hplacement (Option.some.inj heq)
    rw [if_neg hne, Option.isSome_some, if_pos rfl] at hflags
    constructor
    · intro hlegacy
      have hnoflags := preamble.flags_known
      rw [hflags] at hnoflags
      exact absurd (Or.inr ⟨of_decide_eq_true hlegacy, by decide⟩) hnoflags
    · intro heq
      exact absurd heq hplacement

theorem preambleFor_isSigned {identity : Sign.SigningIdentity} {placement : SignaturePlacement}
    {shape : VectorShape} {n : ℕ} {preamble : Preamble}
    (h : preambleFor (some (identity, placement)) shape n = .ok preamble) :
    preamble.isSigned = true := by
  unfold Preamble.isSigned
  by_cases hlegacy : preamble.isLegacy = true
  · rw [hlegacy, Bool.true_or]
  · have hne : ¬Option.map Prod.snd (some (identity, placement)) = some .legacyPublic := by
      intro heq
      exact hlegacy ((preambleFor_isLegacy h).mpr (Option.some.inj heq))
    rw [(preambleFor_eq_ok h).2, if_neg hne, Option.isSome_some, if_pos rfl,
      show decide (flagSigned &&& flagSigned ≠ 0) = true from by decide, Bool.or_true]

/-- A container and a run agree in what any signature commits to: the object, how many stanzas
it has and the plaintext. The well-formed X-Wing stanzas of a legacy run are the first ones. -/
structure SameObject (P : Crypto.Primitives) (run : SigningRun) (opened : Opened)
    (staging : Bytes) (plaintextLen : ℕ) : Prop where
  objectId : opened.header.objectId = run.material.objectId
  count : opened.header.recipients.length = run.header.recipients.length
  known : run.placement = .legacyPublic → (∀ s ∈ run.header.recipients, s.Valid) →
    run.header.recipients.filterMap Stanza.asXwing <+:
      opened.header.recipients.filterMap Stanza.asXwing
  plaintextHash : hash P [staging] = hash P [run.plaintext]
  plaintextLen : plaintextLen = run.plaintext.length

/-- They agree in all stanzas and in the metadata. -/
structure SameEnvelope (run : SigningRun) (opened : Opened) : Prop where
  recipients : opened.header.recipients.map wire = run.header.recipients.map wire
  filename : opened.metadata.filename = run.metadata.filename
  mediaType : opened.metadata.mediaType = run.metadata.mediaType
  metadataExtensions : opened.metadata.extensions = run.metadata.extensions

section
variable {P : Crypto.Primitives} {S : Sign.Primitives} {run : SigningRun} {opened : Opened}
  {staging base base' : Bytes} {n : ℕ} {provisional : Preamble}

/-- Equal transcripts of one form are of one object. -/
theorem sameObject_of_transcript (hvalid : opened.header.Valid true)
    (hshape : opened.preamble.isLegacy = true → LegacyShape opened.header)
    (hlegacy : opened.preamble.isLegacy = provisional.isLegacy)
    (hplacement : provisional.isLegacy = true ↔ run.placement = .legacyPublic)
    (hbase : opened.metadata.signingBase = .ok base)
    (hbase' : run.metadata.signingBase = .ok base') (hn : n < 2 ^ 64)
    (heq : transcript opened.preamble opened.header base (hash P [staging]) n =
      transcript provisional run.header base' (hash P [run.plaintext]) run.plaintext.length) :
    SameObject P run opened staging n := by
  have hfits := Fits.of_valid hvalid
  by_cases h : opened.preamble.isLegacy = true
  · simp only [transcript, ← hlegacy, h, if_true] at heq
    obtain ⟨hid, hcount, hbody⟩ := legacyTranscript_front hfits.recipients run.fits.recipients heq
    obtain ⟨hhash, hlen⟩ := legacyTranscript_end hn run.plaintext_fits hbody
    refine ⟨hid, hcount, ?_, hhash, hlen⟩
    intro _ hvalid'
    have hle : (run.header.recipients.filterMap Stanza.asXwing).length ≤
        (opened.header.recipients.filterMap Stanza.asXwing).length := by
      rw [(hshape h).2.length_filterMap, hcount]
      exact List.length_filterMap_le _ _
    exact legacyBody_stanzas hle hvalid.stanza hvalid' hbody
  · rw [Bool.not_eq_true] at h
    obtain ⟨-, -, hid, hrec, -, -, hhash, hlen⟩ := transcript_inj h (hlegacy ▸ h) hfits run.fits
      (signingBase_fits hbase) (signingBase_fits hbase') hn run.plaintext_fits heq
    have hcount := congrArg List.length hrec
    rw [List.length_map, List.length_map] at hcount
    refine ⟨hid, hcount, ?_, hhash, hlen⟩
    intro hrun
    rw [← hlegacy, h] at hplacement
    exact absurd (hplacement.mpr hrun) (by decide)

/-- Where minor 2 admits the stanzas of both, they agree in stanzas and metadata. -/
theorem sameEnvelope_of_transcript (hvalid : opened.header.Valid true)
    (hshape : opened.preamble.isLegacy = true →
      LegacyStanzas opened.header ∧ LegacyStanzas run.header)
    (hlegacy : opened.preamble.isLegacy = provisional.isLegacy)
    (hbase : opened.metadata.signingBase = .ok base) (hlen : base.length ≤ maxMetadataLen)
    (hbase' : run.metadata.signingBase = .ok base') (hn : n < 2 ^ 64)
    (heq : transcript opened.preamble opened.header base (hash P [staging]) n =
      transcript provisional run.header base' (hash P [run.plaintext]) run.plaintext.length) :
    SameEnvelope run opened := by
  have hfits := Fits.of_valid hvalid
  have hcontents : opened.header.recipients.map wire = run.header.recipients.map wire ∧
      base = base' := by
    by_cases h : opened.preamble.isLegacy = true
    · obtain ⟨hstanzas, hstanzas'⟩ := hshape h
      simp only [transcript, ← hlegacy, h, if_true] at heq
      obtain ⟨-, hrec, hb, -⟩ := legacyTranscript_inj hstanzas hstanzas' hfits run.fits
        (signingBase_fits hbase) (signingBase_fits hbase') hn run.plaintext_fits heq
      exact ⟨by rw [hrec], hb⟩
    · rw [Bool.not_eq_true] at h
      obtain ⟨-, -, -, hrec, -, hb, -⟩ := transcript_inj h (hlegacy ▸ h) hfits run.fits
        (signingBase_fits hbase) (signingBase_fits hbase') hn run.plaintext_fits heq
      exact ⟨hrec, hb⟩
  obtain ⟨hrec, rfl⟩ := hcontents
  obtain ⟨hname, htype, hext⟩ := signingBase_inj hbase hbase' hlen
  exact ⟨hrec, hname, htype, hext⟩

/-- Where minor 2 admits the extensions of both headers, they are the same. -/
theorem sameExtensions_of_transcript (hvalid : opened.header.Valid true)
    (hshape : opened.preamble.isLegacy = true →
      opened.header.extensions = [] ∧ run.header.extensions = [])
    (hlegacy : opened.preamble.isLegacy = provisional.isLegacy)
    (hbase : opened.metadata.signingBase = .ok base)
    (hbase' : run.metadata.signingBase = .ok base') (hn : n < 2 ^ 64)
    (heq : transcript opened.preamble opened.header base (hash P [staging]) n =
      transcript provisional run.header base' (hash P [run.plaintext]) run.plaintext.length) :
    opened.header.extensions = run.header.extensions := by
  by_cases h : opened.preamble.isLegacy = true
  · rw [(hshape h).1, (hshape h).2]
  · rw [Bool.not_eq_true] at h
    obtain ⟨-, -, -, -, hext, -⟩ := transcript_inj h (hlegacy ▸ h) (Fits.of_valid hvalid) run.fits
      (signingBase_fits hbase) (signingBase_fits hbase') hn run.plaintext_fits heq
    exact hext

theorem flags_of_isLegacy {preamble : Preamble} (h : preamble.isLegacy = true) :
    preamble.flags = 0 := by
  by_contra hne
  exact preamble.flags_known (Or.inr ⟨of_decide_eq_true h, hne⟩)

/-- Equal transcripts, under equal contexts, are of the same version. -/
theorem sameVersion_of_transcript {preamble preamble' : Preamble} {header header' : ProtectedHeader}
    {base base' : Bytes} {h h' : Key} {n n' : ℕ} (hlegacy : preamble.isLegacy = preamble'.isLegacy)
    (heq : transcript preamble header base h n = transcript preamble' header' base' h' n') :
    preamble.minor = preamble'.minor ∧ preamble.flags = preamble'.flags := by
  by_cases hp : preamble.isLegacy = true
  · have hp' : preamble'.isLegacy = true := hlegacy ▸ hp
    rw [flags_of_isLegacy hp, flags_of_isLegacy hp', of_decide_eq_true hp, of_decide_eq_true hp']
    exact ⟨rfl, rfl⟩
  · simp only [transcript, ← hlegacy, hp, List.append_assoc] at heq
    obtain ⟨hversion, -⟩ := List.append_inj (List.append_cancel_left heq) (by simp)
    exact Preamble.signedPrefix_inj hversion

/-- **What a signature binds.** Whoever builds the container: if it is accepted as signed by
`identity`, then one of that identity's runs had its minor and flags, a legacy run if the
minor is 2, its object id and its plaintext. The two had the same stanzas and metadata, where
the stanzas of a legacy run are as minor 2 admits them, and the same header extensions, where
a legacy run has none. The place of the signature is not bound. -/
theorem signature_binds (hP : AeadShrinks P) {identity : Sign.SigningIdentity}
    {runs : Set SigningRun} :
    (∀ input secret verified, (decryptToStaging P S input secret).result = .ok verified →
      verified.signer = some (identity.verifyingKey S) →
      Unforged P S identity runs input secret →
      ∃ opened, openHeader P input secret = .ok opened ∧ verified.metadata = opened.metadata ∧
        ∃ run ∈ runs,
          (∃ provisional, preambleFor (some (identity, run.placement)) run.shape 1 =
              .ok provisional ∧
            opened.preamble.minor = provisional.minor ∧
            opened.preamble.flags = provisional.flags) ∧
          (opened.preamble.minor = legacySignedMinor → run.placement = .legacyPublic) ∧
          SameObject P run opened (decryptToStaging P S input secret).staging
            verified.plaintextLen ∧
          ((run.placement = .legacyPublic → LegacyStanzas run.header) → SameEnvelope run opened) ∧
          ((run.placement = .legacyPublic → run.header.extensions = []) →
            opened.header.extensions = run.header.extensions)) ∧
    (∀ (preamble : Preamble) (header : ProtectedHeader) (metadata : Metadata)
      (plaintextHash : Key) (n : ℕ) (stanza : SignatureStanza),
      verifySignature S preamble { header with signatures := [stanza] }
          { metadata with signature := none } plaintextHash n =
        verifySignature S preamble { header with signatures := [] }
          { metadata with signature := some stanza } plaintextHash n) := by
  constructor
  · intro input secret verified hresult hsigner hunforged
    obtain ⟨opened, hopened, hmetadata, hlen, hn, hverify⟩ := decryptToStaging_eq_ok hP hresult
    obtain ⟨hvalid, hshape, encoded, hencoded, hle⟩ := openHeader_eq_ok hopened
    rw [hsigner] at hverify
    obtain ⟨base, stanza, hbase, hcarried, hverify⟩ := verifySignature_signer hverify
    rw [hlen] at hverify hn ⊢
    -- what verifies was signed in some run
    obtain ⟨run, hrun, _, _, ⟨base', provisional, hbase', hprovisional, rfl, rfl⟩, hbound⟩ :=
      hunforged opened stanza base hopened hcarried hbase hverify
    -- both contexts have one length, so context and transcript are told apart
    obtain ⟨hcontext, hmessage⟩ := Sign.bind_inj (length_signingContext _)
      (length_signingContext _) hbound
    have hlegacy := signingContext_inj hcontext
    have hplacement := preambleFor_isLegacy hprovisional
    have hrunLegacy : opened.preamble.isLegacy = true → run.placement = .legacyPublic :=
      fun h => hplacement.mp (hlegacy ▸ h)
    refine ⟨opened, hopened, hmetadata, run, hrun, ?_, ?_, ?_, ?_, ?_⟩
    · exact ⟨provisional, hprovisional, sameVersion_of_transcript hlegacy hmessage⟩
    · intro hminor
      exact hrunLegacy (decide_eq_true hminor)
    · exact sameObject_of_transcript hvalid hshape hlegacy hplacement hbase hbase' hn hmessage
    · intro hadmitted
      apply sameEnvelope_of_transcript hvalid _ hlegacy hbase
        ((signingBase_length_le hbase hencoded).trans hle) hbase' hn hmessage
      exact fun h => ⟨(hshape h).2, hadmitted (hrunLegacy h)⟩
    · intro hadmitted
      apply sameExtensions_of_transcript hvalid _ hlegacy hbase hbase' hn hmessage
      exact fun h => ⟨(hshape h).1, hadmitted (hrunLegacy h)⟩
  · intro preamble header metadata plaintextHash n stanza
    rfl

end

/-! ## Runs read back -/

section Write
variable {S : Sign.Primitives} {identity : Sign.SigningIdentity} {secret : RecipientSecret}
  {run : SigningRun}

/-- The run itself. -/
def SigningRun.write (P : Crypto.Primitives) (S : Sign.Primitives) (identity : Sign.SigningIdentity)
    (run : SigningRun) : ObjectEncryption :=
  encryptInner P S (Reader.ofBytes run.plaintext) run.metadata run.material run.recipients
    (some (identity, run.placement)) run.shape

/-- A recipient reads a run back, as signed by its signer. -/
structure ReadBack (S : Sign.Primitives) (identity : Sign.SigningIdentity)
    (secret : RecipientSecret) (run : SigningRun) (verified : VerifiedObject S) (opened : Opened) :
    Prop where
  written : (run.write .toy S identity).result = .ok run.plaintext.length
  accepted : (decryptToStaging .toy S (run.write .toy S identity).output secret).result =
    .ok verified
  staging : (decryptToStaging .toy S (run.write .toy S identity).output secret).staging =
    run.plaintext
  signer : verified.signer = some (identity.verifyingKey S)
  opens : openHeader .toy (run.write .toy S identity).output secret = .ok opened
  recipients : opened.header.recipients = run.header.recipients
  extensions : opened.header.extensions = run.header.extensions
  filename : opened.metadata.filename = run.metadata.filename
  mediaType : opened.metadata.mediaType = run.metadata.mediaType
  metadataExtensions : opened.metadata.extensions = run.metadata.extensions
  signs : ∀ base, opened.metadata.signingBase = .ok base →
    run.Signs .toy identity (signingContext opened.preamble)
      (opened.message .toy base run.plaintext)

theorem toy_aeadShrinks : AeadShrinks Crypto.Primitives.toy := by
  intro key nonce aad ciphertext plaintext h
  unfold Crypto.Primitives.toy at h
  simp only [Option.ite_none_right_eq_some, Option.some.injEq] at h
  obtain ⟨hdrop, rfl⟩ := h
  have hlen := congrArg List.length hdrop
  rw [List.length_drop, List.length_replicate] at hlen
  rw [List.length_take, tagLen]
  omega

/-- The recipient of the first stanza needs no other. -/
theorem recoverCek_first {P : Crypto.Primitives} {objectId cek mac : Key}
    {preamble protectedBytes encapsulation wrappedCek : Bytes} {more : List Stanza}
    (hunwrap : unwrapCek P secret objectId encapsulation wrappedCek = .ok cek)
    (hmac : mac = Crypto.mac P (headerMacKey P cek objectId) [preamble, protectedBytes]) :
    recoverCek P secret objectId preamble protectedBytes mac
      (Stanza.xWing { encapsulation, wrappedCek } :: more) = .ok cek := by
  have hverify : verifyMac P (headerMacKey P cek objectId) [preamble, protectedBytes] mac =
      .ok () := failIf_neg _ (by simp [hmac])
  simp only [recoverCek, Stanza.asXwing, hunwrap, hverify]

theorem toy_recoverCek {material : ObjectMaterial} {preamble protectedBytes : Bytes} {mac : Key}
    {more : List Stanza}
    (hmac : mac = Crypto.mac .toy (headerMacKey .toy material.cek material.objectId)
      [preamble, protectedBytes]) :
    recoverCek .toy secret material.objectId preamble protectedBytes mac
      (Stanza.xWing (toyStanza secret material) :: more) = .ok material.cek := by
  have hunwrap := toy_unwrapCek secret material.cek material.objectId
  simp only [RecipientSecret.publicKey, toy_xwingPublic] at hunwrap
  unfold toyStanza
  exact recoverCek_first hunwrap hmac

/-- What a run writes carries a signature over what the run signs. -/
theorem SigningRun.signs_of_prepares {P : Crypto.Primitives} {prepared : Prepared}
    (h : Prepares P S run.metadata run.material run.recipients (some (identity, run.placement))
      run.shape run.plaintext prepared)
    (hminor : run.shape.minor ≠ 0 ∧ run.shape.minor ≠ legacySignedMinor) {base : Bytes}
    (hbase : prepared.metadata.signingBase = .ok base) :
    run.Signs P identity (signingContext prepared.preamble)
      (transcript prepared.preamble prepared.header base (hash P [run.plaintext])
        run.plaintext.length) := by
  obtain ⟨m, hpreamble⟩ := h.preamble
  obtain ⟨provisional, hprovisional⟩ := preambleFor_succeeds (some (identity, run.placement)) hminor
    one_ne_zero (by decide)
  -- the length is not signed
  obtain ⟨hm, hf⟩ := preambleFor_eq_ok hpreamble
  obtain ⟨hm', hf'⟩ := preambleFor_eq_ok hprovisional
  have hsame : prepared.preamble.minor = provisional.minor := hm.trans hm'.symm
  refine ⟨base, provisional, ?_, hprovisional, signingContext_congr hsame, ?_⟩
  · rw [← hbase]
    exact signingBase_congr h.filename.symm h.mediaType.symm h.metadataExtensions.symm
  · exact transcript_congr hsame (hf.trans hf'.symm) h.wellFormed.objectId h.recipients h.extensions
      base _ _

/-- A run whose first stanza is the recipient's is read back, if minor 2 admits a legacy one. -/
theorem readBack_of_first (hS : S.Correct) {more : List Stanza}
    (hplacement : run.placement ≠ .stripped) (hunsigned : run.metadata.signature = none)
    (hlegacy : run.placement = .legacyPublic →
      LegacyShape run.header ∧ run.metadata.extensions = [])
    (hfirst : run.header.recipients = Stanza.xWing (toyStanza secret run.material) :: more)
    (hbounds : WithinBounds run.metadata run.header.recipients run.shape)
    (hfits : run.plaintext.length ≤ maxSignedInput) :
    ∃ verified opened, ReadBack S identity secret run verified opened := by
  have hok := encryptInner_completes S run.material (some (identity, run.placement)) run.plaintext
    toy_aeadCorrect toy_neverRefuses hbounds (Reader.delivers_ofBytes run.plaintext) hfits
  obtain ⟨prepared, payload, hprep, hpayload, hrun⟩ :=
    encryptInner_eq_ok (Reader.delivers_ofBytes run.plaintext) hok
  have hprepares := prepare_eq_ok hprep
  obtain ⟨m, hpreamble⟩ := hprepares.preamble
  have hrec : prepared.header.recipients = run.header.recipients := hprepares.recipients
  have hminor := preambleFor_isLegacy hpreamble
  have hadmitted : prepared.Admitted := by
    intro h
    obtain ⟨hshape, hext⟩ := hlegacy (hminor.mp h)
    refine ⟨hprepares.extensions.trans hshape.1, ?_, hprepares.metadataExtensions.trans hext⟩
    rw [hrec]
    exact fun s hs => (hshape.2 s hs).1
  have hcek : recoverCek .toy secret run.material.objectId prepared.preamble.encode
      prepared.protectedBytes prepared.mac prepared.header.recipients = .ok run.material.cek := by
    rw [hrec, hfirst]
    exact toy_recoverCek hprepares.wellFormed.mac
  obtain ⟨base, hbase, hslots⟩ := hprepares.signature
  have hbase' : prepared.metadata.signingBase = .ok base := by
    rw [← hbase]
    exact signingBase_congr hprepares.filename hprepares.mediaType hprepares.metadataExtensions
  -- the signature stands in one of the two places, and verifies
  rw [hunsigned] at hslots
  have hsigner : verifySignature S prepared.preamble prepared.header prepared.metadata
      (hash .toy [run.plaintext]) run.plaintext.length = .ok (some (identity.verifyingKey S)) :=
    verifySignature_one identity (Sign.verify_sign hS identity _ _) (hslots.one hplacement)
      (preambleFor_isSigned hpreamble) hbase'
  rw [hrun] at hok
  have hread := (decryptToStaging_written (S := S) toy_aeadCorrect hprepares.wellFormed hadmitted
    hcek hpayload hok).1
  rw [hsigner, ok_bind] at hread
  obtain ⟨opened, hopened, hpreamble', hheader', hmetadata'⟩ :
      ∃ opened, openHeader .toy (writeContainer .toy run.material prepared payload).output secret =
          .ok opened ∧
        opened.preamble = prepared.preamble ∧ opened.header = prepared.header ∧
        opened.metadata = prepared.metadata :=
    ⟨_, openHeader_of_wellFormed toy_aeadCorrect hprepares.wellFormed hadmitted hcek
      (encryptRecords .toy (payloadKey .toy run.material.cek run.material.objectId
        run.material.payloadSalt) run.material.objectId (hash .toy [prepared.protectedBytes])
        payload).output, rfl, rfl, rfl⟩
  have hwrite : run.write .toy S identity = writeContainer .toy run.material prepared payload :=
    hrun
  refine ⟨{ metadata := prepared.metadata, plaintextLen := run.plaintext.length
            signer := some (identity.verifyingKey S) }, opened, ?_⟩
  constructor
  · rw [hwrite, hok]
  · rw [hwrite, hread]
    rfl
  · rw [hwrite, hread]
  · rfl
  · rw [hwrite, hopened]
  · rw [hheader', hrec]
  · rw [hheader']
    exact hprepares.extensions
  · rw [hmetadata']
    exact hprepares.filename
  · rw [hmetadata']
    exact hprepares.mediaType
  · rw [hmetadata']
    exact hprepares.metadataExtensions
  · intro base'' hbase''
    rw [Opened.message, hpreamble', hheader']
    exact SigningRun.signs_of_prepares hprepares hbounds.minor (hmetadata' ▸ hbase'')

/-- The signature in a run that was read back is no forgery, given a run that signs the same. -/
theorem ReadBack.unforged {verified : VerifiedObject S} {opened : Opened}
    (h : ReadBack S identity secret run verified opened) {runs : Set SigningRun}
    {signed : SigningRun} (hsigned : signed ∈ runs)
    (hsame : ∀ context message, run.Signs .toy identity context message →
      signed.Signs .toy identity context message) :
    Unforged .toy S identity runs (run.write .toy S identity).output secret := by
  intro opened' stanza base hopened _ hbase _
  rw [h.opens] at hopened
  obtain rfl := Except.ok.inj hopened
  rw [h.staging]
  exact ⟨signed, hsigned, _, _, hsame _ _ (h.signs base hbase), rfl⟩

/-- What a legacy run signs. -/
theorem SigningRun.signs_legacy {P : Crypto.Primitives} (hplacement : run.placement = .legacyPublic)
    {context message : Bytes} :
    run.Signs P identity context message ↔
      context = legacySigningContext ∧ ∃ base, run.metadata.signingBase = .ok base ∧
        message = legacyTranscript run.header base (hash P [run.plaintext])
          run.plaintext.length := by
  have hlegacy : ∀ provisional, preambleFor (some (identity, run.placement)) run.shape 1 =
      .ok provisional → provisional.isLegacy = true :=
    fun provisional h => (preambleFor_isLegacy h).mpr hplacement
  constructor
  · rintro ⟨base, provisional, hbase, hprovisional, rfl, rfl⟩
    have h := hlegacy provisional hprovisional
    exact ⟨if_pos h, base, hbase, if_pos h⟩
  · rintro ⟨rfl, base, hbase, rfl⟩
    obtain ⟨provisional, hprovisional⟩ : ∃ provisional,
        preambleFor (some (identity, run.placement)) run.shape 1 = .ok provisional := by
      rw [hplacement]
      exact ⟨_, rfl⟩
    have h := hlegacy provisional hprovisional
    exact ⟨base, provisional, hbase, hprovisional, (if_pos h).symm, (if_pos h).symm⟩

end Write

/-! ## Legacy runs that minor 2 does not admit -/

section Legacy

/-- Three bytes signed for the sample recipient. -/
def sampleSigned (metadata : Metadata) (recipients : List RecipientStanza)
    (placement : SignaturePlacement) (shape : VectorShape)
    (h : WithinBounds metadata (unsignedHeader sampleMaterial recipients shape).recipients shape) :
    SigningRun where
  metadata := metadata
  material := sampleMaterial
  recipients := recipients
  placement := placement
  shape := shape
  plaintext := [1, 2, 3]
  fits := .of_parts h.stanzas_le h.stanzas_valid h.extensions
  plaintext_fits := by decide

theorem sampleShape_bounds :
    WithinBounds namedMetadata (unsignedHeader sampleMaterial
      [toyStanza sampleSecret sampleMaterial] sampleShape).recipients sampleShape :=
  (toy_limits sampleSecret sampleMaterial namedMetadata_valid namedMetadata_room rfl (by decide)
    sampleShape_valid (by decide)).bounds sampleMaterial

theorem defaultShape_bounds :
    WithinBounds namedMetadata (unsignedHeader sampleMaterial
      [toyStanza sampleSecret sampleMaterial] {}).recipients {} :=
  (@toy_limits sampleSecret sampleMaterial namedMetadata {} namedMetadata_valid namedMetadata_room
    rfl (by decide) ⟨Nat.zero_le _, trivial⟩ (Nat.zero_le _)).bounds sampleMaterial

/-- A legacy run whose header has an extension. -/
def extendedRun : SigningRun :=
  sampleSigned namedMetadata [toyStanza sampleSecret sampleMaterial] .legacyPublic sampleShape
    sampleShape_bounds

/-- What a recipient makes of it: the extension is gone. -/
def unextendedRun : SigningRun :=
  sampleSigned namedMetadata [toyStanza sampleSecret sampleMaterial] .legacyPublic {}
    defaultShape_bounds

/-- The same contents under a signature of HIDE/1.0. -/
def confidentialRun : SigningRun :=
  sampleSigned namedMetadata [toyStanza sampleSecret sampleMaterial] .confidential sampleShape
    sampleShape_bounds

/-- The value of an extension that ends in other metadata, behind its length. -/
def hiddenValue (inner : Bytes) : Bytes := List.replicate 1154 0 ++ lenPrefixed 8 inner

def hidingMetadata (inner : Bytes) : Metadata where
  extensions := [{ key := 64, value := hiddenValue inner }]

/-- What its encoding, behind its length, has in front of the hidden metadata. -/
def hidingFront (inner : Bytes) : Bytes :=
  beBytes 8 ((hidingMetadata inner).bytes false).length ++ (Cbor.map 1 ++ (Cbor.uint 64 ++
    (Cbor.head 2 (hiddenValue inner).length ++ List.replicate 1154 0)))

/-- The stanza that front is read as. -/
def hidingStanza (inner : Bytes) : RecipientStanza where
  encapsulation := (hidingFront inner).take encapsulationLen
  wrappedCek := (hidingFront inner).drop encapsulationLen

theorem length_hiddenValue (inner : Bytes) : (hiddenValue inner).length = 1162 + inner.length := by
  simp only [hiddenValue, lenPrefixed, List.length_append, List.length_replicate, length_beBytes]
  omega

theorem lenPrefixed_hidingMetadata (inner : Bytes) :
    lenPrefixed 8 ((hidingMetadata inner).bytes false) =
      hidingFront inner ++ lenPrefixed 8 inner := by
  have hbytes : (hidingMetadata inner).bytes false = Cbor.map 1 ++ (Cbor.uint 64 ++
      (Cbor.head 2 (hiddenValue inner).length ++ hiddenValue inner)) := by
    simp [hidingMetadata, Metadata.bytes, Metadata.entries, Metadata.slot, Metadata.fieldBytes,
      encodeExtension, Cbor.bytes]
  rw [lenPrefixed, hidingFront, hbytes]
  simp only [hiddenValue, List.append_assoc]

theorem hidingStanza_bytes (inner : Bytes) :
    (hidingStanza inner).encapsulation ++ (hidingStanza inner).wrappedCek = hidingFront inner := by
  simp only [hidingStanza, List.take_append_drop]

theorem length_hidingFront {inner : Bytes} (h : inner.length ≤ 1000) :
    (hidingFront inner).length = encapsulationLen + wrappedCekLen := by
  have hhead : Cbor.headLen (1162 + inner.length) = 3 := by
    unfold Cbor.headLen
    rw [if_neg (by omega), if_neg (by omega), if_pos (by omega)]
  simp only [hidingFront, List.length_append, length_beBytes, Cbor.map, Cbor.uint, Cbor.length_head,
    length_hiddenValue, hhead, List.length_replicate]
  decide

theorem hidingStanza_valid {inner : Bytes} (h : inner.length ≤ 1000) :
    (Stanza.xWing (hidingStanza inner)).Valid := by
  have hlen := length_hidingFront h
  constructor
  · simp only [hidingStanza, List.length_take]
    omega
  · simp only [hidingStanza, List.length_drop]
    omega

theorem hidingMetadata_valid {inner : Bytes} (h : inner.length ≤ 1000) :
    (hidingMetadata inner).Valid true where
  extensions := by
    have hvalue := length_hiddenValue inner
    refine ⟨by simp [hidingMetadata, maxExtensions], ⟨?_, ?_, ?_⟩, trivial⟩
    · show firstIgnorableKey ≤ 64
      decide
    · show 0 < 64
      decide
    · show (hiddenValue inner).length ≤ maxExtensionLen
      rw [hvalue, maxExtensionLen]
      omega
  filename := by simp [hidingMetadata]
  mediaType := by simp [hidingMetadata]
  signature := by simp [hidingMetadata, Metadata.slot]

theorem hidingMetadata_room {inner : Bytes} (h : inner.length ≤ 1000) :
    (hidingMetadata inner).encodedLen + 6000 ≤ maxMetadataLen := by
  have h₁ := Cbor.headLen_le ((hidingMetadata inner).entries true)
  have h₂ := Cbor.headLen_le (hiddenValue inner).length
  have h₃ := Cbor.headLen_le 64
  have hlen : (hidingMetadata inner).encodedLen = Cbor.headLen ((hidingMetadata inner).entries true)
      + (Cbor.headLen 64 + (Cbor.headLen (hiddenValue inner).length +
        (hiddenValue inner).length)) := by
    simp [hidingMetadata, Metadata.encodedLen]
  have hvalue := length_hiddenValue inner
  rw [hlen, maxMetadataLen]
  omega

/-- The encoding that is hidden: that of the metadata a recipient puts in its place. -/
def hidden : Bytes := namedMetadata.bytes false

theorem named_signingBase : namedMetadata.signingBase = .ok hidden :=
  (Metadata.encodeWithSignature_eq_ok namedMetadata false _).mpr
    ⟨⟨namedMetadata_valid.extensions, namedMetadata_valid.filename, namedMetadata_valid.mediaType,
      fun s hs => by cases hs⟩, rfl⟩

theorem length_hidden : hidden.length ≤ 1000 := by
  have hlen : (namedMetadata.bytes true).length = 20 :=
    (Metadata.length_bytes _).trans namedMetadata_encodedLen
  have hsame : hidden = namedMetadata.bytes true := rfl
  rw [hsame, hlen]
  decide

/-- A stanza of a type no reader knows. -/
def unknownStanza : Stanza := .unknown { tag := 9, fields := [[1]] }

/-- A shape that puts it first. -/
def unknownShape : VectorShape where
  leadingStanzas := [unknownStanza]

theorem stanzas_bounds {metadata : Metadata} {stanzas : List Stanza} {shape : VectorShape}
    (hvalid : metadata.Valid true) (hroom : metadata.encodedLen + 6000 ≤ maxMetadataLen)
    (htwo : stanzas.length = 2) (hstanzas : ∀ s ∈ stanzas, s.Valid ∧ s.bytes.length ≤ 1204)
    (hminor : shape.minor = currentMinor) (hext : shape.headerExtensions = []) :
    WithinBounds metadata stanzas shape where
  metadata_valid := hvalid
  metadata_len := hroom
  stanzas_ne := by
    intro h
    rw [h] at htwo
    cases htwo
  stanzas_le := by
    rw [htwo]
    decide
  stanzas_valid := fun s hs => (hstanzas s hs).1
  stanzas_short := fun s hs => (hstanzas s hs).2
  minor := by
    rw [hminor]
    decide
  extensions := by
    rw [hext]
    exact ⟨Nat.zero_le _, trivial⟩
  extensions_len := by
    rw [hext]
    exact Nat.zero_le _

theorem sampleStanza_short : (Stanza.xWing (toyStanza sampleSecret sampleMaterial)).Valid ∧
    (Stanza.xWing (toyStanza sampleSecret sampleMaterial)).bytes.length ≤ 1204 := by
  have hvalid := toyStanza_valid sampleSecret sampleMaterial
  exact ⟨hvalid, length_stanza_le hvalid rfl⟩

theorem unknownShape_bounds :
    WithinBounds (hidingMetadata hidden) (unsignedHeader sampleMaterial
      [toyStanza sampleSecret sampleMaterial] unknownShape).recipients unknownShape := by
  apply stanzas_bounds (hidingMetadata_valid length_hidden) (hidingMetadata_room length_hidden) rfl
    _ rfl rfl
  intro s hs
  rcases List.mem_cons.mp hs with rfl | hs
  · have hvalid : unknownStanza.Valid := ⟨by decide, by decide, by decide⟩
    exact ⟨hvalid, by decide⟩
  · rw [List.mem_singleton.mp hs]
    exact sampleStanza_short

theorem twoStanzas_bounds :
    WithinBounds namedMetadata (unsignedHeader sampleMaterial
      [toyStanza sampleSecret sampleMaterial, hidingStanza hidden] {}).recipients {} := by
  apply stanzas_bounds namedMetadata_valid namedMetadata_room rfl _ rfl rfl
  intro s hs
  rcases List.mem_cons.mp hs with rfl | hs
  · exact sampleStanza_short
  · rw [List.mem_singleton.mp hs]
    have hvalid := hidingStanza_valid length_hidden
    exact ⟨hvalid, length_stanza_le hvalid rfl⟩

/-- A legacy run with a stanza of an unknown type, and one extension in its metadata. -/
def unknownRun : SigningRun :=
  sampleSigned (hidingMetadata hidden) [toyStanza sampleSecret sampleMaterial] .legacyPublic
    unknownShape unknownShape_bounds

/-- What a recipient makes of it: the unknown stanza is gone, the front of the metadata is a
stanza in its place, and the metadata is what was hidden in it. -/
def unhiddenRun : SigningRun :=
  sampleSigned namedMetadata [toyStanza sampleSecret sampleMaterial, hidingStanza hidden]
    .legacyPublic {} twoStanzas_bounds

/-- The extension is not part of what was signed. -/
theorem extendedRun_signs {identity : Sign.SigningIdentity} {context message : Bytes}
    (h : unextendedRun.Signs .toy identity context message) :
    extendedRun.Signs .toy identity context message := by
  obtain ⟨hcontext, base, hbase, rfl⟩ := (SigningRun.signs_legacy rfl).mp h
  refine (SigningRun.signs_legacy rfl).mpr ⟨hcontext, base, hbase, ?_⟩
  have hrec : unextendedRun.header.recipients = extendedRun.header.recipients := rfl
  apply legacyTranscript_congr rfl (by rw [hrec])
  simp only [legacyBody, hrec]
  rfl

/-- Nor is where the stanzas end and the metadata begins. -/
theorem unknownRun_signs {identity : Sign.SigningIdentity} {context message : Bytes}
    (h : unhiddenRun.Signs .toy identity context message) :
    unknownRun.Signs .toy identity context message := by
  obtain ⟨hcontext, base, hbase, rfl⟩ := (SigningRun.signs_legacy rfl).mp h
  obtain rfl := Except.ok.inj (named_signingBase.symm.trans hbase)
  have hvalid := hidingMetadata_valid length_hidden
  have hhiding : (hidingMetadata hidden).signingBase = .ok ((hidingMetadata hidden).bytes false) :=
    (Metadata.encodeWithSignature_eq_ok _ false _).mpr
      ⟨⟨hvalid.extensions, hvalid.filename, hvalid.mediaType, fun s hs => by cases hs⟩, rfl⟩
  have hlegacy : unknownRun.placement = .legacyPublic := rfl
  refine (SigningRun.signs_legacy hlegacy).mpr ⟨hcontext, _, hhiding, ?_⟩
  have hrec : unhiddenRun.header.recipients =
      [.xWing (toyStanza sampleSecret sampleMaterial), .xWing (hidingStanza hidden)] := rfl
  have hrec' : unknownRun.header.recipients =
      [unknownStanza, .xWing (toyStanza sampleSecret sampleMaterial)] := rfl
  have hknown : [Stanza.xWing (toyStanza sampleSecret sampleMaterial),
      .xWing (hidingStanza hidden)].filterMap Stanza.asXwing =
        [toyStanza sampleSecret sampleMaterial, hidingStanza hidden] := rfl
  have hknown' : [unknownStanza, .xWing (toyStanza sampleSecret sampleMaterial)].filterMap
      Stanza.asXwing = [toyStanza sampleSecret sampleMaterial] := rfl
  have hplain : unhiddenRun.plaintext = unknownRun.plaintext := rfl
  have hid : unhiddenRun.header.objectId = unknownRun.header.objectId := rfl
  refine legacyTranscript_congr hid (by rw [hrec, hrec', List.length_cons, List.length_cons,
    List.length_cons, List.length_cons]) ?_
  rw [legacyBody, legacyBody, hrec, hrec', hknown, hknown', List.flatMap_cons, List.flatMap_cons,
    List.flatMap_cons, List.flatMap_nil, List.append_nil, List.append_nil, hidingStanza_bytes,
    lenPrefixed_hidingMetadata, hplain]
  simp only [List.append_assoc]

theorem confidentialRun_read :
    ∃ verified opened, ReadBack .toy sampleIdentity sampleSecret confidentialRun verified opened :=
  readBack_of_first Sign.Primitives.toy_correct (by decide) rfl (fun h => by cases h) rfl
    sampleShape_bounds (by decide)

/-- The two containers are in a shape minor 2 admits, so they are accepted. -/
theorem unextendedRun_read :
    ∃ verified opened, ReadBack .toy sampleIdentity sampleSecret unextendedRun verified opened := by
  apply readBack_of_first Sign.Primitives.toy_correct (by decide) rfl _ rfl defaultShape_bounds
    (by decide)
  refine fun _ => ⟨⟨rfl, ?_⟩, rfl⟩
  intro s hs
  have hs : s = .xWing (toyStanza sampleSecret sampleMaterial) := List.mem_singleton.mp hs
  rw [hs]
  exact ⟨rfl, sampleStanza_short.1⟩

theorem unhiddenRun_read :
    ∃ verified opened, ReadBack .toy sampleIdentity sampleSecret unhiddenRun verified opened := by
  apply readBack_of_first Sign.Primitives.toy_correct (by decide) rfl _ rfl twoStanzas_bounds
    (by decide)
  refine fun _ => ⟨⟨rfl, ?_⟩, rfl⟩
  intro s hs
  refine ⟨?_, twoStanzas_bounds.stanzas_valid s hs⟩
  obtain ⟨x, -, rfl⟩ := List.mem_map.mp hs
  rfl

/-- The sample recipient accepts a container as signed, and its signer made `run` only. -/
def AcceptedFrom (run : SigningRun) (container : Bytes) (opened : Opened) : Prop :=
  (run.write .toy .toy sampleIdentity).result = .ok run.plaintext.length ∧
    Unforged .toy .toy sampleIdentity {run} container sampleSecret ∧
    openHeader .toy container sampleSecret = .ok opened ∧
    ∃ verified, (decryptToStaging .toy .toy container sampleSecret).result = .ok verified ∧
      verified.signer = some (sampleIdentity.verifyingKey Sign.Primitives.toy)

/-- A run that writes, and one read back that signs the same. -/
theorem acceptedFrom_of_readBack {signed run : SigningRun} {verified : VerifiedObject .toy}
    {opened : Opened}
    (hbounds : WithinBounds signed.metadata signed.header.recipients signed.shape)
    (hfits : signed.plaintext.length ≤ maxSignedInput)
    (hread : ReadBack .toy sampleIdentity sampleSecret run verified opened)
    (hsame : ∀ context message, run.Signs .toy sampleIdentity context message →
      signed.Signs .toy sampleIdentity context message) :
    AcceptedFrom signed (run.write .toy .toy sampleIdentity).output opened :=
  ⟨encryptInner_completes .toy signed.material (some (sampleIdentity, signed.placement))
      signed.plaintext toy_aeadCorrect toy_neverRefuses hbounds
      (Reader.delivers_ofBytes signed.plaintext) hfits,
    hread.unforged rfl hsame, hread.opens, verified, hread.accepted, hread.signer⟩

/-- A signer made one legacy run, with a header extension: a recipient drops the extension and
computes the MAC again. Another made one with a stanza of an unknown type: a recipient drops that
stanza, reads the front of the metadata as a stanza, and puts what is left in its place. Both
containers are accepted under the signature of the run. -/
theorem legacy_run_is_not_bound :
    (∃ opened,
      AcceptedFrom extendedRun (unextendedRun.write .toy .toy sampleIdentity).output opened ∧
      opened.header.extensions ≠ extendedRun.header.extensions) ∧
    ∃ opened,
      AcceptedFrom unknownRun (unhiddenRun.write .toy .toy sampleIdentity).output opened ∧
      opened.header.recipients.map wire ≠ unknownRun.header.recipients.map wire ∧
      opened.metadata.filename ≠ unknownRun.metadata.filename ∧
      opened.metadata.mediaType ≠ unknownRun.metadata.mediaType ∧
      opened.metadata.extensions ≠ unknownRun.metadata.extensions := by
  constructor
  · obtain ⟨verified, opened, hread⟩ := unextendedRun_read
    have hfits : extendedRun.plaintext.length ≤ maxSignedInput := by decide
    refine ⟨opened, acceptedFrom_of_readBack sampleShape_bounds hfits hread
      fun _ _ => extendedRun_signs, ?_⟩
    rw [hread.extensions]
    intro h
    cases h
  · obtain ⟨verified, opened, hread⟩ := unhiddenRun_read
    have hfits : unknownRun.plaintext.length ≤ maxSignedInput := by decide
    refine ⟨opened, acceptedFrom_of_readBack unknownShape_bounds hfits hread
      fun _ _ => unknownRun_signs, ?_, ?_, ?_, ?_⟩
    · rw [hread.recipients]
      intro h
      -- the tags of the first stanzas differ
      have htag : (UInt16.ofNat xwingTag).toNat = (9 : UInt16).toNat :=
        congrArg (fun stanzas => ((stanzas.head?.map Prod.fst).getD 0)) h
      exact absurd htag (by decide)
    · rw [hread.filename]
      intro h
      cases h
    · rw [hread.mediaType]
      intro h
      cases h
    · rw [hread.metadataExtensions]
      intro h
      cases h

/-- The theorem at a run of HIDE/1.0, and at the two legacy runs and what was made of them. -/
theorem signature_binds_samples :
    (∃ verified opened, ReadBack .toy sampleIdentity sampleSecret confidentialRun verified opened ∧
      SameObject .toy confidentialRun opened [1, 2, 3] verified.plaintextLen ∧
      SameEnvelope confidentialRun opened ∧
      opened.header.extensions = confidentialRun.header.extensions) ∧
    (∃ verified opened, ReadBack .toy sampleIdentity sampleSecret unextendedRun verified opened ∧
      SameObject .toy extendedRun opened [1, 2, 3] verified.plaintextLen ∧
      SameEnvelope extendedRun opened) ∧
    ∃ verified opened, ReadBack .toy sampleIdentity sampleSecret unhiddenRun verified opened ∧
      SameObject .toy unknownRun opened [1, 2, 3] verified.plaintextLen := by
  refine ⟨?_, ?_, ?_⟩
  · obtain ⟨verified, opened, hread⟩ := confidentialRun_read
    have hunforged := hread.unforged (Set.mem_singleton confidentialRun) fun _ _ h => h
    obtain ⟨opened', hopened, -, run, rfl, -, -, hobject, henvelope, hext⟩ :=
      (signature_binds toy_aeadShrinks).1 _ _ verified hread.accepted hread.signer hunforged
    obtain rfl := Except.ok.inj (hread.opens.symm.trans hopened)
    rw [hread.staging] at hobject
    have hplacement : confidentialRun.placement ≠ .legacyPublic := by decide
    exact ⟨verified, opened, hread, hobject, henvelope fun h => absurd h hplacement,
      hext fun h => absurd h hplacement⟩
  · obtain ⟨verified, opened, hread⟩ := unextendedRun_read
    have hunforged := hread.unforged (Set.mem_singleton extendedRun) fun _ _ => extendedRun_signs
    obtain ⟨opened', hopened, -, run, rfl, -, -, hobject, henvelope, -⟩ :=
      (signature_binds toy_aeadShrinks).1 _ _ verified hread.accepted hread.signer hunforged
    obtain rfl := Except.ok.inj (hread.opens.symm.trans hopened)
    rw [hread.staging] at hobject
    refine ⟨verified, opened, hread, hobject, henvelope fun _ => ?_⟩
    intro s hs
    have hs : s = .xWing (toyStanza sampleSecret sampleMaterial) := List.mem_singleton.mp hs
    rw [hs]
    exact ⟨rfl, sampleStanza_short.1⟩
  · obtain ⟨verified, opened, hread⟩ := unhiddenRun_read
    have hunforged := hread.unforged (Set.mem_singleton unknownRun) fun _ _ => unknownRun_signs
    obtain ⟨opened', hopened, -, run, rfl, -, -, hobject, -⟩ :=
      (signature_binds toy_aeadShrinks).1 _ _ verified hread.accepted hread.signer hunforged
    obtain rfl := Except.ok.inj (hread.opens.symm.trans hopened)
    rw [hread.staging] at hobject
    exact ⟨verified, opened, hread, hobject⟩

end Legacy

end HideProtocol.Object
