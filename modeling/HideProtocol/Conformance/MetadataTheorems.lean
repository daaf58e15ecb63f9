import HideProtocol.Conformance.CheckTheorems

/-!
# The same metadata rules

The rules of a metadata map, on both sides: which names are portable, which media types are
valid, and which entries may stand in which order. A checked map determines the metadata that the
codec would have decoded, and dropping its signature leaves the base that a signature covers.
-/

namespace HideProtocol.Conformance

open Lib Format
open Cbor (Item)

/-! ## Filenames and media types -/

theorem upperStem_eq (name : String) : upperStem name = (stem name).toList := by
  rw [stem, String.toList_ofList, upperStem]
  apply List.map_congr_left
  intro c _
  by_cases h : 'a' ≤ c ∧ c ≤ 'z'
  · exact if_pos h
  · have hval : ¬('a'.val ≤ c.val ∧ c.val ≤ 'z'.val) := h
    have hsame : c.toUpper = c := dif_neg hval
    rw [if_neg h, hsame]

theorem isDigit_iff (d : Char) :
    ('1' ≤ d && d ≤ '9') = true ↔ 0x31 ≤ d.toNat ∧ d.toNat ≤ 0x39 := by
  rw [Bool.and_eq_true, decide_eq_true_eq, decide_eq_true_eq]
  exact Iff.rfl

/-- Three ASCII letters and one byte more that is a digit. -/
theorem isPort_iff (name : Text) (hlen : (textBytes name).length = 4) :
    isPort name = true ↔
      ("COM".toList.isPrefixOf name = true ∨ "LPT".toList.isPrefixOf name = true) ∧
        (0x31 ≤ (textBytes name).getD 3 0 ∧ (textBytes name).getD 3 0 ≤ 0x39) := by
  have hcom : (textBytes "COM".toList).length = 3 := by decide
  have hlpt : (textBytes "LPT".toList).length = 3 := by decide
  constructor
  · intro h
    match name with
    | [a, b, c, d] =>
      have ⟨hletters, hdigit⟩ := Bool.and_eq_true_iff.mp h
      have ⟨hlow, hhigh⟩ := (isDigit_iff d).mp hdigit
      rcases Bool.or_eq_true_iff.mp hletters with habc | habc
      · have habc : [a, b, c] = "COM".toList := by simpa using habc
        have hname : [a, b, c, d] = "COM".toList ++ [d] := by rw [← habc]; rfl
        rw [hname]
        exact ⟨.inl (by simp), byte_of_digit hcom hlow hhigh⟩
      · have habc : [a, b, c] = "LPT".toList := by simpa using habc
        have hname : [a, b, c, d] = "LPT".toList ++ [d] := by rw [← habc]; rfl
        rw [hname]
        exact ⟨.inr (by simp), byte_of_digit hlpt hlow hhigh⟩
  · rintro ⟨hstart, hlow, hhigh⟩
    rcases hstart with hstart | hstart
    · have ⟨rest, hrest⟩ := List.isPrefixOf_iff_prefix.mp hstart
      subst hrest
      have ⟨d, hd, hdigit⟩ := digit_of_byte hcom hlen hlow hhigh
      rw [hd]
      exact (isDigit_iff d).mpr hdigit
    · have ⟨rest, hrest⟩ := List.isPrefixOf_iff_prefix.mp hstart
      subst hrest
      have ⟨d, hd, hdigit⟩ := digit_of_byte hlpt hlen hlow hhigh
      rw [hd]
      exact (isDigit_iff d).mpr hdigit

theorem if_false_iff {c : Prop} [Decidable c] {b : Bool} :
    (if c then false else b) = true ↔ ¬c ∧ b = true := by
  by_cases h : c
  · simp [h]
  · simp [h]

/-- Device names, on both sides. -/
theorem reserved_iff (name : String) :
    reservedStem (stem name) = true ↔
      (windowsReserved.any fun reserved => reserved.toList == upperStem name) = true ∨
        ((utf8 (String.ofList (upperStem name))).length = 4 ∧ isPort (upperStem name) = true) := by
  have hstem : String.ofList (upperStem name) = stem name := by
    rw [upperStem_eq, String.ofList_toList]
  have hdevice : (windowsReserved.any fun reserved => reserved.toList == upperStem name) = true ↔
      stem name ∈ ["CON", "PRN", "AUX", "NUL"] := by
    rw [List.any_eq_true]
    constructor
    · rintro ⟨reserved, hmem, heq⟩
      have hname : reserved = stem name := by
        rw [← hstem, ← eq_of_beq heq, String.ofList_toList]
      exact hname ▸ hmem
    · intro hmem
      exact ⟨stem name, hmem, by rw [upperStem_eq]; exact beq_self_eq_true _⟩
  have hport : ((utf8 (stem name)).length = 4 ∧ isPort (upperStem name) = true) ↔
      (utf8 (stem name)).length = 4 ∧
        ("COM".toList.isPrefixOf (stem name).toList = true ∨
          "LPT".toList.isPrefixOf (stem name).toList = true) ∧
        (0x31 ≤ (utf8 (stem name)).getD 3 0 ∧ (utf8 (stem name)).getD 3 0 ≤ 0x39) := by
    apply and_congr_right
    intro hlen
    have hiff := isPort_iff (upperStem name) (by rwa [textBytes, hstem])
    rw [textBytes, hstem] at hiff
    rw [← upperStem_eq name]
    exact hiff
  rw [hdevice, hstem, hport, reservedStem]
  simp only [Bool.or_eq_true, Bool.and_eq_true, decide_eq_true_eq, and_assoc]

theorem filenameIsPortable_iff (name : String) :
    filenameIsPortable name = true ↔ validateFilename name = .ok () := by
  have hempty : (utf8 name).length < 1 ↔ name = "" := by
    rw [← not_le, utf8_length_pos, not_not]
  have hforbidden : (name.toList.any fun c => isControl c || c ∈ "<>:\"/\\|?*".toList) =
      name.toList.any isForbidden := rfl
  rw [validateFilename, failIf_eq_ok, reserved_iff, hforbidden, ← hempty]
  simp only [filenameIsPortable, if_false_iff, not_or]
  -- the same tests, in another order
  constructor
  · rintro ⟨⟨hlow, hhigh⟩, ⟨hdot, hdots⟩, ⟨hlast, hspace⟩, hchars, hdevice, hport, -⟩
    exact ⟨hlow, hhigh, hdot, hdots, hlast, hspace, ⟨hdevice, hport⟩, hchars⟩
  · rintro ⟨hlow, hhigh, hdot, hdots, hlast, hspace, ⟨hdevice, hport⟩, hchars⟩
    exact ⟨⟨hlow, hhigh⟩, ⟨hdot, hdots⟩, ⟨hlast, hspace⟩, hchars, hdevice, hport, trivial⟩

theorem mediaTypeIsValid_iff (value : String) :
    mediaTypeIsValid value = true ↔ validateMediaType value = .ok () := by
  unfold mediaTypeIsValid validateMediaType
  rw [failIf_eq_ok, not_or, not_or, not_not, not_lt, ← ne_eq, ← utf8_length_pos]
  rw [Bool.and_eq_true, decide_eq_true_eq]
  exact and_assoc

theorem isStringWith_iff {test : String → Bool} {item : Item} :
    isStringWith test item = true ↔ ∃ content, item = .text content ∧ test content = true := by
  cases item <;> simp [isStringWith]

/-! ## Entries -/

/-- The core fields of a metadata map, with or without its signature. -/
def metadataFields (metadata : Metadata) (withSignature : Bool) : List Field :=
  (metadata.filename.map fun name => (⟨1, .text name, Cbor.str name⟩ : Field)).toList ++
    (metadata.mediaType.map fun type => (⟨2, .text type, Cbor.str type⟩ : Field)).toList ++
    ((metadata.slot withSignature).map fun stanza =>
      (⟨3, signatureItem stanza, stanza.bytes⟩ : Field)).toList

def metadataEntries (metadata : Metadata) (withSignature : Bool) : List (Item × Item) :=
  (metadataFields metadata withSignature).map Field.entry ++ metadata.extensions.map extensionEntry

/-- What the loop over the entries accepts after the key `previous`. -/
structure MetadataFrom (previous : ℕ) (metadata : Metadata) : Prop where
  extensions : ExtensionsFrom previous metadata.extensions
  filename : ∀ s, metadata.filename = some s → previous < 1 ∧ validateFilename s = .ok ()
  mediaType : ∀ s, metadata.mediaType = some s → previous < 2 ∧ validateMediaType s = .ok ()
  signature : ∀ s, metadata.signature = some s → previous < 3 ∧ s.Valid

theorem MetadataFrom.filename_none {previous : ℕ} {metadata : Metadata}
    (h : MetadataFrom previous metadata) (hprevious : 1 ≤ previous) : metadata.filename = none := by
  cases hname : metadata.filename with
  | none => rfl
  | some name =>
    have := (h.filename name hname).1
    omega

theorem MetadataFrom.mediaType_none {previous : ℕ} {metadata : Metadata}
    (h : MetadataFrom previous metadata) (hprevious : 2 ≤ previous) : metadata.mediaType = none := by
  cases htype : metadata.mediaType with
  | none => rfl
  | some type =>
    have := (h.mediaType type htype).1
    omega

theorem MetadataFrom.signature_none {previous : ℕ} {metadata : Metadata}
    (h : MetadataFrom previous metadata) (hprevious : 3 ≤ previous) : metadata.signature = none := by
  cases hstanza : metadata.signature with
  | none => rfl
  | some stanza =>
    have := (h.signature stanza hstanza).1
    omega

/-- What one turn of the loop accepts: a core field of the right kind, or an extension. -/
theorem checkEntries_cons {n previous : ℕ} {value : Item} {rest : List (Item × Item)}
    {pairs : List (ℕ × Bytes)} :
    checkEntries previous ((.uint n, value) :: rest) = .ok pairs ↔
      n ≤ 65535 ∧ previous < n ∧
        ((n = 1 ∧ (∃ name, value = .text name ∧ validateFilename name = .ok ()) ∧
            checkEntries 1 rest = .ok pairs) ∨
          (n = 2 ∧ (∃ type, value = .text type ∧ validateMediaType type = .ok ()) ∧
            checkEntries 2 rest = .ok pairs) ∨
          (n = 3 ∧ (∃ stanza : SignatureStanza, stanza.Valid ∧ value = signatureItem stanza) ∧
            checkEntries 3 rest = .ok pairs) ∨
          (64 ≤ n ∧ ∃ content more, value = .bytes content ∧ content.length ≤ maxFieldLen ∧
            checkEntries n rest = .ok more ∧ pairs = (n, content) :: more)) := by
  constructor
  · intro h
    rw [checkEntries] at h
    obtain ⟨_, _, h⟩ := bind_eq_ok.mp h
    obtain ⟨_, hmax, h⟩ := bind_eq_ok.mp h
    obtain ⟨_, hgt, h⟩ := bind_eq_ok.mp h
    refine ⟨not_lt.mp (need_eq_ok.mp hmax), need_eq_ok.mp hgt, ?_⟩
    -- the filename, the media type, the signature, and the extensions from 64 on
    split_ifs at h with h1 h2 h3 hcritical
    · obtain ⟨_, hname, h⟩ := bind_eq_ok.mp h
      have ⟨name, hvalue, hportable⟩ := isStringWith_iff.mp (need_eq_ok.mp hname)
      have h1 : n = 1 := h1
      subst h1
      exact .inl ⟨rfl, ⟨name, hvalue, (filenameIsPortable_iff name).mp hportable⟩, h⟩
    · obtain ⟨_, htype, h⟩ := bind_eq_ok.mp h
      have ⟨type, hvalue, hvalid⟩ := isStringWith_iff.mp (need_eq_ok.mp htype)
      have h2 : n = 2 := h2
      subst h2
      exact .inr (.inl ⟨rfl, ⟨type, hvalue, (mediaTypeIsValid_iff type).mp hvalid⟩, h⟩)
    · obtain ⟨_, hstanza, h⟩ := bind_eq_ok.mp h
      have h3 : n = 3 := h3
      subst h3
      exact .inr (.inr (.inl ⟨rfl, checkSignatureStanza_eq_ok.mp hstanza, h⟩))
    · cases h
    · cases h
    · obtain ⟨_, hvalue, h⟩ := bind_eq_ok.mp h
      obtain ⟨more, hmore, h⟩ := bind_eq_ok.mp h
      have ⟨hbytes, hlen⟩ := need_eq_ok.mp hvalue
      have ⟨content, hcontent⟩ := isBytes_iff.mp hbytes
      subst hcontent
      exact .inr (.inr (.inr ⟨not_lt.mp hcritical, content, more, rfl, hlen, hmore, pure_eq_ok.mp h⟩))
  · rintro ⟨hmax, hgt, hcases⟩
    rw [checkEntries]
    refine bind_eq_ok.mpr ⟨(), need_pos rfl, ?_⟩
    refine bind_eq_ok.mpr ⟨(), need_pos (not_lt.mpr hmax), ?_⟩
    refine bind_eq_ok.mpr ⟨(), need_pos hgt, ?_⟩
    rcases hcases with ⟨rfl, ⟨name, rfl, hname⟩, h⟩ | ⟨rfl, ⟨type, rfl, htype⟩, h⟩ |
      ⟨rfl, hstanza, h⟩ | ⟨h64, content, more, rfl, hlen, hmore, rfl⟩
    · exact bind_eq_ok.mpr ⟨(), need_pos ((filenameIsPortable_iff name).mpr hname), h⟩
    · exact bind_eq_ok.mpr ⟨(), need_pos ((mediaTypeIsValid_iff type).mpr htype), h⟩
    · exact bind_eq_ok.mpr ⟨(), checkSignatureStanza_eq_ok.mpr hstanza, h⟩
    · have h1 : n ≠ 1 := by omega
      have h2 : n ≠ 2 := by omega
      have h3 : n ≠ 3 := by omega
      refine (if_neg h1).trans ((if_neg h2).trans ((if_neg h3).trans ((if_neg ?_).trans ?_)))
      · exact not_lt.mpr h64
      · exact bind_eq_ok.mpr ⟨(), need_pos ⟨rfl, hlen⟩, bind_eq_ok.mpr ⟨more, hmore, rfl⟩⟩

theorem key_of_checkEntries {previous : ℕ} {key value : Item} {rest : List (Item × Item)}
    {pairs : List (ℕ × Bytes)} (h : checkEntries previous ((key, value) :: rest) = .ok pairs) :
    ∃ n, key = .uint n := by
  rw [checkEntries] at h
  have ⟨_, hinteger, _⟩ := bind_eq_ok.mp h
  exact isInteger_iff.mp (need_eq_ok.mp hinteger)

/-- The entries determine the metadata that they are the entries of. -/
theorem metadata_of_check {previous : ℕ} {map : List (Item × Item)} {pairs : List (ℕ × Bytes)}
    (h : checkEntries previous map = .ok pairs) :
    ∃ metadata : Metadata, MetadataFrom previous metadata ∧ map = metadataEntries metadata true ∧
      pairs = metadata.extensions.map extensionPair := by
  induction map generalizing previous pairs with
  | nil =>
    rw [checkEntries] at h
    exact ⟨{}, ⟨trivial, nofun, nofun, nofun⟩, rfl, pure_eq_ok.mp h⟩
  | cons entry rest ih =>
    obtain ⟨key, value⟩ := entry
    have ⟨n, hn⟩ := key_of_checkEntries h
    subst hn
    have ⟨hmax, hgt, hcases⟩ := checkEntries_cons.mp h
    rcases hcases with ⟨rfl, ⟨name, rfl, hname⟩, hloop⟩ | ⟨rfl, ⟨type, rfl, htype⟩, hloop⟩ |
      ⟨rfl, ⟨stanza, hstanza, rfl⟩, hloop⟩ | ⟨h64, content, more, rfl, hlen, hmore, rfl⟩
    -- a core key: what follows has none of the keys up to it
    · have ⟨⟨filename, mediaType, signature, extensions⟩, hfrom, hrest, hpairs⟩ := ih hloop
      have hnone : filename = none := hfrom.filename_none le_rfl
      subst hnone
      refine ⟨⟨some name, mediaType, signature, extensions⟩, ⟨?_, ?_, ?_, ?_⟩, ?_, hpairs⟩
      · exact (extensionsFrom_iff (by decide) (hgt.trans (by decide)) _).mp hfrom.extensions
      · intro s hs
        cases hs
        exact ⟨hgt, hname⟩
      · intro s hs
        exact ⟨by omega, (hfrom.mediaType s hs).2⟩
      · intro s hs
        exact ⟨by omega, (hfrom.signature s hs).2⟩
      · rw [hrest]
        rfl
    · have ⟨⟨filename, mediaType, signature, extensions⟩, hfrom, hrest, hpairs⟩ := ih hloop
      have hnone : filename = none := hfrom.filename_none (by omega)
      have hnone' : mediaType = none := hfrom.mediaType_none le_rfl
      subst hnone hnone'
      refine ⟨⟨none, some type, signature, extensions⟩, ⟨?_, nofun, ?_, ?_⟩, ?_, hpairs⟩
      · exact (extensionsFrom_iff (by decide) (hgt.trans (by decide)) _).mp hfrom.extensions
      · intro s hs
        cases hs
        exact ⟨hgt, htype⟩
      · intro s hs
        exact ⟨by omega, (hfrom.signature s hs).2⟩
      · rw [hrest]
        rfl
    · have ⟨⟨filename, mediaType, signature, extensions⟩, hfrom, hrest, hpairs⟩ := ih hloop
      have hnone : filename = none := hfrom.filename_none (by omega)
      have hnone' : mediaType = none := hfrom.mediaType_none (by omega)
      have hnone'' : signature = none := hfrom.signature_none le_rfl
      subst hnone hnone' hnone''
      refine ⟨⟨none, none, some stanza, extensions⟩, ⟨?_, nofun, nofun, ?_⟩, ?_, hpairs⟩
      · exact (extensionsFrom_iff (by decide) (hgt.trans (by decide)) _).mp hfrom.extensions
      · intro s hs
        cases hs
        exact ⟨hgt, hstanza⟩
      · rw [hrest]
        rfl
    · have ⟨⟨filename, mediaType, signature, extensions⟩, hfrom, hrest, hpairs⟩ := ih hmore
      have hnone : filename = none := hfrom.filename_none (by omega)
      have hnone' : mediaType = none := hfrom.mediaType_none (by omega)
      have hnone'' : signature = none := hfrom.signature_none (by omega)
      subst hnone hnone' hnone''
      have ⟨extension, hentry, hkey, hextension⟩ :=
        @extension_of_entry (.uint n) (.bytes content) previous rfl (not_lt.mpr hmax) hgt h64
          ⟨rfl, hlen⟩
      have hkey : n = extension.key.toNat := hkey
      have hvalue : content = extension.value := Item.bytes.inj (Prod.mk.inj hentry).2
      refine ⟨⟨none, none, none, extension :: extensions⟩, ⟨⟨hextension, ?_⟩, nofun, nofun, nofun⟩,
        ?_, ?_⟩
      · exact hkey ▸ hfrom.extensions
      · rw [hentry, hrest]
        rfl
      · rw [hpairs, hkey, hvalue]
        rfl

theorem check_extensions {previous : ℕ} {extensions : List Extension}
    (h : ExtensionsFrom previous extensions) :
    checkEntries previous (extensions.map extensionEntry) = .ok (extensions.map extensionPair) := by
  induction extensions generalizing previous with
  | nil =>
    rw [List.map_nil, checkEntries]
    rfl
  | cons extension rest ih =>
    have ⟨⟨hignorable, hgt, hlen⟩, hrest⟩ := h
    have hlt := extension.key.toNat_lt
    refine checkEntries_cons.mpr ⟨by omega, hgt, .inr (.inr (.inr ?_))⟩
    exact ⟨hignorable, extension.value, _, rfl, hlen, ih hrest, rfl⟩

/-- The loop accepts the entries of every metadata the codec writes, each core field in turn. -/
theorem check_metadataEntries {metadata : Metadata} (h : MetadataFrom 0 metadata) :
    checkEntries 0 (metadataEntries metadata true) =
      .ok (metadata.extensions.map extensionPair) := by
  obtain ⟨filename, mediaType, signature, extensions⟩ := metadata
  have hextensions : ∀ previous, previous ≤ 3 → checkEntries previous
      (extensions.map extensionEntry) = .ok (extensions.map extensionPair) := by
    intro previous hle
    have hfrom : ExtensionsFrom 0 extensions := h.extensions
    exact check_extensions ((extensionsFrom_iff (by decide) (hle.trans_lt (by decide)) _).mp hfrom)
  have hsignature : ∀ previous, previous ≤ 2 → checkEntries previous
      (metadataEntries ⟨none, none, signature, extensions⟩ true) =
        .ok (extensions.map extensionPair) := by
    intro previous hle
    cases signature with
    | none => exact hextensions previous (by omega)
    | some stanza =>
      have hvalid := (h.signature stanza rfl).2
      have hgt : previous < 3 := by omega
      exact checkEntries_cons.mpr ⟨Nat.le_of_ble_eq_true rfl, hgt,
        .inr (.inr (.inl ⟨rfl, ⟨stanza, hvalid, rfl⟩, hextensions 3 le_rfl⟩))⟩
  have hmediaType : ∀ previous, previous ≤ 1 → checkEntries previous
      (metadataEntries ⟨none, mediaType, signature, extensions⟩ true) =
        .ok (extensions.map extensionPair) := by
    intro previous hle
    cases mediaType with
    | none => exact hsignature previous (by omega)
    | some type =>
      have hvalid := (h.mediaType type rfl).2
      have hgt : previous < 2 := by omega
      exact checkEntries_cons.mpr ⟨Nat.le_of_ble_eq_true rfl, hgt,
        .inr (.inl ⟨rfl, ⟨type, rfl, hvalid⟩, hsignature 2 le_rfl⟩)⟩
  cases filename with
  | none => exact hmediaType 0 (by omega)
  | some name =>
    have hvalid := (h.filename name rfl).2
    exact checkEntries_cons.mpr ⟨Nat.le_of_ble_eq_true rfl, Nat.one_pos,
      .inl ⟨rfl, ⟨name, rfl, hvalid⟩, hmediaType 1 le_rfl⟩⟩

theorem checkMetadata_eq_ok {item : Item} {pairs : List (ℕ × Bytes)} :
    checkMetadata item = .ok pairs ↔
      ∃ metadata : Metadata, metadata.Valid true ∧ item = .map (metadataEntries metadata true) ∧
        pairs = metadata.extensions.map extensionPair := by
  constructor
  · intro h
    unfold checkMetadata at h
    obtain ⟨_, hmap, h⟩ := bind_eq_ok.mp h
    have ⟨map, hitem⟩ := isMap_iff.mp (need_eq_ok.mp hmap)
    subst hitem
    obtain ⟨extensions, hchecked, h⟩ := bind_eq_ok.mp h
    obtain ⟨_, hcount, h⟩ := bind_eq_ok.mp h
    have ⟨metadata, hfrom, hentries, hpairs⟩ := metadata_of_check hchecked
    have hcount := need_eq_ok.mp hcount
    rw [hpairs, List.length_map] at hcount
    refine ⟨metadata, ⟨⟨hcount, hfrom.extensions⟩, ?_, ?_, ?_⟩, ?_, ?_⟩
    · exact fun s hs => (hfrom.filename s hs).2
    · exact fun s hs => (hfrom.mediaType s hs).2
    · exact fun s hs => (hfrom.signature s hs).2
    · exact congrArg Item.map hentries
    · rw [pure_eq_ok.mp h, hpairs]
  · rintro ⟨metadata, hvalid, rfl, rfl⟩
    have hfrom : MetadataFrom 0 metadata :=
      { extensions := hvalid.extensions.2
        filename := fun s hs => ⟨by omega, hvalid.filename s hs⟩
        mediaType := fun s hs => ⟨by omega, hvalid.mediaType s hs⟩
        signature := fun s hs => ⟨by omega, hvalid.signature s hs⟩ }
    have hcount : (metadata.extensions.map extensionPair).length ≤ maxExtensions := by
      rw [List.length_map]
      exact hvalid.extensions.1
    refine bind_eq_ok.mpr ⟨(), need_pos rfl, ?_⟩
    refine bind_eq_ok.mpr ⟨_, check_metadataEntries hfrom, ?_⟩
    exact bind_eq_ok.mpr ⟨(), need_pos hcount, rfl⟩

/-! ### The bytes of a metadata map -/

theorem metadataFields_ascend (metadata : Metadata) (withSignature : Bool) :
    (metadataFields metadata withSignature).Pairwise (fun a b => a.key < b.key) ∧
      (∀ field ∈ metadataFields metadata withSignature, field.key ≤ 3) ∧
      (metadataFields metadata withSignature).length ≤ 5 := by
  unfold metadataFields
  cases metadata.filename <;> cases metadata.mediaType <;>
    cases metadata.slot withSignature <;> simp

theorem metadataFields_canonical {metadata : Metadata} {withSignature : Bool}
    (h : metadata.Valid withSignature) (depth : ℕ) :
    ∀ field ∈ metadataFields metadata withSignature, field.Canonical (depth + 1) := by
  intro field hfield
  simp only [metadataFields, List.mem_append, Option.mem_toList, Option.map_eq_some_iff] at hfield
  rcases hfield with (⟨name, hname, rfl⟩ | ⟨type, htype, rfl⟩) | ⟨stanza, hstanza, rfl⟩
  · have hlen := Metadata.validateFilename_len (h.filename name hname)
    exact ⟨by simp, canonical_text (by omega) _⟩
  · have hlen := Metadata.validateMediaType_len (h.mediaType type htype)
    exact ⟨by simp, canonical_text (by omega) _⟩
  · exact ⟨by simp, canonical_signature (h.signature stanza hstanza) depth⟩

theorem canonical_metadata {metadata : Metadata} {withSignature : Bool}
    (h : metadata.Valid withSignature) (depth : ℕ) :
    Canonical (depth + 2) (.map (metadataEntries metadata withSignature))
      (metadata.bytes withSignature) := by
  have ⟨hascend, hle, hlen⟩ := metadataFields_ascend metadata withSignature
  have hcanonical := canonical_fields (by decide : 3 < firstIgnorableKey) hascend hle
    (metadataFields_canonical h depth) hlen h.extensions
  have hbytes : metadata.bytes withSignature =
      Cbor.map ((metadataFields metadata withSignature).length + metadata.extensions.length) ++
        ((metadataFields metadata withSignature).flatMap Field.wire ++
          metadata.extensions.flatMap encodeExtension) := by
    unfold Metadata.bytes Metadata.entries metadataFields
    cases metadata.filename <;> cases metadata.mediaType <;>
      cases metadata.slot withSignature <;> simp [Metadata.fieldBytes, Field.wire]
  rw [hbytes]
  exact hcanonical

/-! ### Looking up a field -/

theorem isNumber_extension {previous : ℕ} {extensions : List Extension}
    (h : ExtensionsFrom previous extensions) {n : ℕ} (hn : n < firstIgnorableKey) :
    ∀ entry ∈ extensions.map extensionEntry, isNumber entry.1 n = false := by
  induction extensions generalizing previous with
  | nil => simp
  | cons extension rest ih =>
    have ⟨⟨hignorable, _, _⟩, hrest⟩ := h
    intro entry hentry
    rcases List.mem_cons.mp hentry with rfl | hentry
    · have hne : extension.key.toNat ≠ n := by omega
      simp [extensionEntry, isNumber, integer, hne]
    · exact ih hrest entry hentry

/-- A core key is found among the core fields. -/
theorem get_metadataEntries {metadata : Metadata} (h : metadata.Valid true) :
    get (metadataEntries metadata true) 1 = metadata.filename.map Item.text ∧
      get (metadataEntries metadata true) 2 = metadata.mediaType.map Item.text ∧
      get (metadataEntries metadata true) 3 = metadata.signature.map signatureItem := by
  have hcore : ∀ n < firstIgnorableKey, get (metadataEntries metadata true) n =
      get ((metadataFields metadata true).map Field.entry) n := by
    intro n hn
    have hnone : (metadata.extensions.map extensionEntry).find?
        (fun entry => isNumber entry.1 n) = none := by
      rw [List.find?_eq_none]
      intro entry hentry
      rw [isNumber_extension h.extensions.2 hn entry hentry]
      exact Bool.false_ne_true
    rw [get, metadataEntries, List.find?_append, hnone, Option.or_none, ← get]
  rw [hcore 1 (by decide), hcore 2 (by decide), hcore 3 (by decide)]
  unfold metadataFields Metadata.slot
  cases metadata.filename <;> cases metadata.mediaType <;> cases metadata.signature <;>
    exact ⟨rfl, rfl, rfl⟩

/-- What a signature covers: the map without its key 3. -/
theorem filter_metadataEntries {metadata : Metadata} (h : metadata.Valid true) :
    (metadataEntries metadata true).filter (fun entry => !isNumber entry.1 3) =
      metadataEntries metadata false := by
  have hextensions : (metadata.extensions.map extensionEntry).filter
      (fun entry => !isNumber entry.1 3) = metadata.extensions.map extensionEntry := by
    rw [List.filter_eq_self]
    intro entry hentry
    rw [isNumber_extension h.extensions.2 (by decide) entry hentry]
    rfl
  rw [metadataEntries, List.filter_append, hextensions, metadataEntries]
  congr 1
  unfold metadataFields Metadata.slot
  cases metadata.filename <;> cases metadata.mediaType <;> cases metadata.signature <;> rfl

end HideProtocol.Conformance
