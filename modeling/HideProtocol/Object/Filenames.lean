import HideProtocol.Object.RoundTrip

/-!
# Portable filenames

A filename is untrusted when it reaches an application, so it must at least be one portable path
component. `PortableFilename` states the rules by themselves. They are what the writer checks
(`validateFilename_iff`), with its byte comparisons on the stem, and what the reader enforces by
encoding again what it decoded.
-/

namespace HideProtocol.Format

open Lib

/-! ## The rules -/

/-- The same letters, apart from the case of the ASCII ones. -/
def EqIgnoringAsciiCase (a b : Text) : Prop := a.map Char.toUpper = b.map Char.toUpper

/-- The reserved device names. -/
def deviceNames : List String :=
  ["CON", "PRN", "AUX", "NUL",
   "COM1", "COM2", "COM3", "COM4", "COM5", "COM6", "COM7", "COM8", "COM9",
   "LPT1", "LPT2", "LPT3", "LPT4", "LPT5", "LPT6", "LPT7", "LPT8", "LPT9"]

/-- A single portable path component. -/
structure PortableFilename (name : String) : Prop where
  size : 1 ≤ (utf8 name).length ∧ (utf8 name).length ≤ 255
  notDirectory : name ≠ "." ∧ name ≠ ".."
  ending : ∀ last, name.toList.getLast? = some last → last ≠ '.' ∧ last ≠ ' '
  noControl : ∀ c ∈ name.toList, ¬(c.toNat ≤ 0x1f ∨ (0x7f ≤ c.toNat ∧ c.toNat ≤ 0x9f))
  noForbidden : ∀ c ∈ name.toList, c ∉ ['<', '>', ':', '"', '/', '\\', '|', '?', '*']
  noDevice : ∀ device ∈ deviceNames,
    ¬EqIgnoringAsciiCase (name.toList.takeWhile (· ≠ '.')) device.toList

/-! ## The writer's check -/

/-- A device name is in upper case, and the check of stems finds it. -/
theorem reservedStem_of_mem {device : String} (h : device ∈ deviceNames) :
    device.toList.map Char.toUpper = device.toList ∧ reservedStem device = true := by
  have hall : deviceNames.all (fun device =>
      device.toList.map Char.toUpper == device.toList && reservedStem device) = true := by
    decide +kernel
  have hdevice := List.all_eq_true.mp hall device h
  rw [Bool.and_eq_true, beq_iff_eq] at hdevice
  exact hdevice

/-- Three letters and a digit. -/
theorem mem_of_digit {letters : Text} {d : Char}
    (hletters : letters = "COM".toList ∨ letters = "LPT".toList) (hlow : 0x31 ≤ d.toNat)
    (hhigh : d.toNat ≤ 0x39) : String.ofList (letters ++ [d]) ∈ deviceNames := by
  have hd : d = Char.ofNat d.toNat := (Char.ofNat_toNat d).symm
  generalize d.toNat = n at hd hlow hhigh
  rw [hd]
  rcases hletters with rfl | rfl
  · interval_cases n <;> decide
  · interval_cases n <;> decide

theorem reservedStem_iff (name : String) : reservedStem name = true ↔ name ∈ deviceNames := by
  refine ⟨?_, fun h => (reservedStem_of_mem h).2⟩
  intro h
  unfold reservedStem at h
  rcases Bool.or_eq_true_iff.mp h with hfour | hport
  · have hfour : name ∈ ["CON", "PRN", "AUX", "NUL"] := by simpa using hfour
    exact List.mem_append_left _ hfour
  · simp only [Bool.and_eq_true, Bool.or_eq_true, decide_eq_true_eq] at hport
    obtain ⟨⟨hlen, hstart⟩, hlow, hhigh⟩ := hport
    -- the fourth byte is the rest of the stem, since the letters are one byte each
    have hletters : ∃ letters rest, (letters = "COM".toList ∨ letters = "LPT".toList) ∧
        letters ++ rest = name.toList := by
      rcases hstart with hcom | hlpt
      · obtain ⟨rest, hrest⟩ := List.isPrefixOf_iff_prefix.mp hcom
        exact ⟨_, rest, Or.inl rfl, hrest⟩
      · obtain ⟨rest, hrest⟩ := List.isPrefixOf_iff_prefix.mp hlpt
        exact ⟨_, rest, Or.inr rfl, hrest⟩
    obtain ⟨letters, rest, hletters, hname⟩ := hletters
    have hthree : (textBytes letters).length = 3 := by
      rcases hletters with rfl | rfl <;> decide
    rw [← textBytes_toList, ← hname] at hlen hlow hhigh
    obtain ⟨d, hd, hdigit⟩ := digit_of_byte hthree hlen hlow hhigh
    rw [hd] at hname
    rw [← String.ofList_toList (s := name), ← hname]
    exact mem_of_digit hletters hdigit.1 hdigit.2

/-- The stem in upper case is a device name exactly when the stem is one in any case. -/
theorem reservedStem_stem_iff (name : String) :
    reservedStem (stem name) = true ↔
      ∃ device ∈ deviceNames,
        EqIgnoringAsciiCase (name.toList.takeWhile (· ≠ '.')) device.toList := by
  rw [reservedStem_iff]
  constructor
  · intro h
    refine ⟨stem name, h, ?_⟩
    rw [EqIgnoringAsciiCase, (reservedStem_of_mem h).1, stem, String.toList_ofList]
  · rintro ⟨device, hdevice, hsame⟩
    rw [EqIgnoringAsciiCase, (reservedStem_of_mem hdevice).1] at hsame
    rw [stem, hsame, String.ofList_toList]
    exact hdevice

/-- The writer checks the rules, and nothing else. -/
theorem validateFilename_iff (name : String) :
    validateFilename name = .ok () ↔ PortableFilename name := by
  have hchars : "<>:\"/\\|?*".toList = ['<', '>', ':', '"', '/', '\\', '|', '?', '*'] := by decide
  rw [validateFilename, failIf_eq_ok, reservedStem_stem_iff, hchars]
  simp only [not_or, not_lt, List.any_eq_true, not_exists, not_and, Bool.or_eq_true,
    decide_eq_true_eq, isControl, Bool.and_eq_true]
  constructor
  · rintro ⟨hne, hlen, hdot, hdots, hlast, hspace, hdevice, hall⟩
    refine ⟨⟨(utf8_length_pos name).mpr hne, hlen⟩, ⟨hdot, hdots⟩, ?_, ?_, ?_, hdevice⟩
    · rintro last hlast'
      rw [hlast'] at hlast hspace
      exact ⟨fun h => hlast (congrArg some h), fun h => hspace (congrArg some h)⟩
    · rintro c hc (hlow | ⟨hfrom, hto⟩)
      · exact (hall c hc).1.1 hlow
      · exact (hall c hc).1.2 hfrom hto
    · intro c hc
      exact (hall c hc).2
  · intro h
    refine ⟨(utf8_length_pos name).mp h.size.1, h.size.2, h.notDirectory.1, h.notDirectory.2,
      fun hlast => (h.ending _ hlast).1 rfl, fun hlast => (h.ending _ hlast).2 rfl, h.noDevice, ?_⟩
    intro c hc
    have hcontrol := h.noControl c hc
    exact ⟨⟨fun hlow => hcontrol (Or.inl hlow), fun hfrom hto => hcontrol (Or.inr ⟨hfrom, hto⟩)⟩,
      h.noForbidden c hc⟩

/-! ## What is written and read -/

/-- Metadata with a filename encodes exactly if the name is portable and the rest encodes. -/
theorem encode_filename_iff (metadata : Metadata) (name : String) :
    (∃ b, { metadata with filename := some name }.encode = .ok b) ↔
      PortableFilename name ∧ ∃ b, { metadata with filename := none }.encode = .ok b := by
  simp only [Metadata.encode, Metadata.encodeWithSignature_eq_ok, exists_and_left, exists_eq,
    and_true]
  rw [← validateFilename_iff]
  constructor
  · intro h
    refine ⟨h.filename name rfl, ⟨h.extensions, ?_, h.mediaType, h.signature⟩⟩
    intro s hs
    cases hs
  · rintro ⟨hname, h⟩
    refine ⟨h.extensions, ?_, h.mediaType, h.signature⟩
    intro s hs
    rw [← Option.some.inj hs]
    exact hname

/-- The canonical check encodes again, and the writer checks the name. -/
theorem portable_of_decode {bytes : Bytes} {metadata : Metadata} {name : String}
    (h : Metadata.decode bytes = .ok metadata) (hname : metadata.filename = some name) :
    PortableFilename name := by
  have hencode := Metadata.encode_of_decode h
  have hvalid := ((Metadata.encodeWithSignature_eq_ok metadata true bytes).mp hencode).1
  exact (validateFilename_iff name).mp (hvalid.filename name hname)

end HideProtocol.Format

namespace HideProtocol.Object

open Lib Crypto Format

section
variable {P : Crypto.Primitives} {S : Sign.Primitives}

/-- The metadata of an opened header was decoded. -/
theorem decode_of_openHeader {input : Bytes} {secret : RecipientSecret} {opened : Opened}
    (h : openHeader P input secret = .ok opened) :
    ∃ bytes, Metadata.decode bytes = .ok opened.metadata := by
  unfold openHeader at h
  simp only [bind_eq_ok, mapErr_eq_ok, pure_eq_ok, Prod.exists] at h
  obtain ⟨_, _, -, _, -, _, _, -, _, _, -, _, -, _, -, _, -, plaintext, -, metadata, hmetadata, _, -,
    _, _, -, _, -, rfl⟩ := h
  exact ⟨plaintext, hmetadata⟩

theorem portable_of_decryptToStaging {input : Bytes} {secret : RecipientSecret}
    {verified : VerifiedObject S} {name : String}
    (h : (decryptToStaging P S input secret).result = .ok verified)
    (hname : verified.metadata.filename = some name) : PortableFilename name := by
  unfold decryptToStaging at h
  cases hopened : openHeader P input secret with
  | error error =>
    rw [hopened] at h
    cases h
  | ok opened =>
    rw [hopened] at h
    simp only [bind_eq_ok, pure_eq_ok] at h
    obtain ⟨_, -, _, -, rfl⟩ := h
    obtain ⟨bytes, hdecode⟩ := decode_of_openHeader hopened
    exact portable_of_decode hdecode hname

end

/-- **Filenames are portable components.** The writer accepts exactly the portable names, and
neither the decoder of metadata nor the reader of containers returns another. -/
theorem filenames_portable (P : Crypto.Primitives) (S : Sign.Primitives) :
    (∀ name, (∃ b, ({ filename := some name } : Metadata).encode = .ok b) ↔
      PortableFilename name) ∧
    (∀ (metadata : Metadata) name, (∃ b, { metadata with filename := some name }.encode = .ok b) ↔
      PortableFilename name ∧ ∃ b, { metadata with filename := none }.encode = .ok b) ∧
    (∀ bytes metadata name, Metadata.decode bytes = .ok metadata →
      metadata.filename = some name → PortableFilename name) ∧
    ∀ container secret (verified : VerifiedObject S) name,
      (decryptToStaging P S container secret).result = .ok verified →
        verified.metadata.filename = some name → PortableFilename name := by
  refine ⟨?_, encode_filename_iff, fun _ _ _ => portable_of_decode,
    fun _ _ _ _ => portable_of_decryptToStaging⟩
  intro name
  have hempty : ∃ b, ({} : Metadata).encode = .ok b := ⟨[0xa0], by decide⟩
  have hiff := encode_filename_iff {} name
  exact hiff.trans (and_iff_left hempty)

theorem filenames_portable_named :
    (Metadata.decode [0xa1, 1, 0x61, 0x78] = .ok { filename := some "x" } ∧ PortableFilename "x") ∧
    ∃ verified, (sampleRead (sampleReseal namedMetadata).output).result = .ok verified ∧
      verified.metadata.filename = some "a.txt" ∧ PortableFilename "a.txt" := by
  refine ⟨?_, ?_⟩
  · have hdecode : Metadata.decode [0xa1, 1, 0x61, 0x78] = .ok { filename := some "x" } := by
      decide +kernel
    exact ⟨hdecode, (filenames_portable .toy .toy).2.2.1 _ _ "x" hdecode rfl⟩
  · obtain ⟨-, verified, hresult, hname, -⟩ := ((encrypt_readsBack_iff toy_aeadCorrect
      Sign.Primitives.toy_correct (Reader.delivers_ofBytes [1, 2, 3])
      (toy_listed sampleSecret sampleSeed)).1 3
      (sampleReseal_result namedMetadata_valid namedMetadata_room none)
      (toy_separates sampleSecret sampleMaterial sampleSeed _ _ _ _)).mpr rfl
    exact ⟨verified, hresult, hname,
      (filenames_portable .toy .toy).2.2.2 _ _ verified "a.txt" hresult hname⟩

end HideProtocol.Object
