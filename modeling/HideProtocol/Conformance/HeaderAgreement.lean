import HideProtocol.Conformance.MetadataTheorems
import HideProtocol.Object.Container

/-!
# Two readers of one header

Up to the payload, the Rust reader and the independent one accept the same bytes and know the same
about them: the preamble, the envelope, the protected header, the content key and the metadata.

The CBOR package is assumed to decode every item in its shortest form that is nested at most as
deep as the limit it is called with. What it does with other bytes does not matter: the reader
compares what it returns with its own encoding.
-/

namespace HideProtocol.Conformance

open Lib Crypto
open Cbor (Item)
open Format (ProtectedHeader Metadata Stanza Extension SignatureStanza)

/-- The package decodes what is well formed. -/
def Decodes (decodeAllSync : Bytes → Except String (List Item)) : Prop :=
  ∀ item bytes, Cbor.Encodes 16 item bytes → decodeAllSync bytes = .ok [item]

section
variable {P : Crypto.Primitives} {S : Sign.Primitives}
  {decodeAllSync : Bytes → Except String (List Item)}

theorem encodeCbor_of_decodeCanonical {bytes : Bytes} {code : Code} {item : Item}
    (h : decodeCanonical decodeAllSync bytes code = .ok item) : encodeCbor item = .ok bytes := by
  unfold decodeCanonical at h
  obtain ⟨values, _, h⟩ := bind_eq_ok.mp h
  obtain ⟨_, _, h⟩ := bind_eq_ok.mp h
  obtain ⟨reencoded, hencode, h⟩ := bind_eq_ok.mp h
  obtain ⟨_, hsame, h⟩ := bind_eq_ok.mp h
  rw [pure_eq_ok.mp h, ← need_eq_ok.mp hsame]
  exact mapErr_eq_ok.mp hencode

theorem decodeCanonical_of_canonical (hdecodes : Decodes decodeAllSync) {item : Item}
    {bytes : Bytes} (h : Canonical 16 item bytes) (code : Code) :
    decodeCanonical decodeAllSync bytes code = .ok item := by
  refine bind_eq_ok.mpr ⟨[item], mapErr_eq_ok.mpr (hdecodes item bytes h.2), ?_⟩
  refine bind_eq_ok.mpr ⟨(), need_pos rfl, ?_⟩
  refine bind_eq_ok.mpr ⟨bytes, mapErr_eq_ok.mpr h.1, ?_⟩
  exact bind_eq_ok.mpr ⟨(), need_pos rfl, rfl⟩

/-! ## The preamble -/

/-- What the independent reader keeps of a preamble. -/
def preambleView (preamble : Format.Preamble) : Preamble where
  bytes := preamble.encode
  minor := preamble.minor
  flags := preamble.flags
  legacy := preamble.isLegacy
  signed := preamble.isSigned
  headerEnd := 16 + preamble.headerLen

/-- Sixteen bytes that pass every check are the encoding of a preamble. -/
theorem exists_preamble {bytes : Bytes} (hlen : bytes.length = 16) (hmagic : bytes.take 8 = magic)
    (hmajor : bytes.getD 8 0 = 0) (hminor : bytes.getD 9 0 ≠ 0) (hkind : bytes.getD 10 0 = 1)
    (hflags : ¬(bytes.getD 11 0 &&& ~~~Format.flagSigned ≠ 0 ∨
      (bytes.getD 9 0 = Format.legacySignedMinor ∧ bytes.getD 11 0 ≠ 0)))
    (hheader : ¬(ofBe (bytes.drop 12) = 0 ∨ ofBe (bytes.drop 12) > Format.maxHeaderLen)) :
    ∃ preamble : Format.Preamble, preamble.headerLen = ofBe (bytes.drop 12) ∧
      preamble.minor = bytes.getD 9 0 ∧ preamble.flags = bytes.getD 11 0 ∧
      bytes = preamble.encode := by
  refine ⟨⟨_, _, _, hminor, hflags, hheader⟩, rfl, rfl, rfl, ?_⟩
  have hsplit := List.take_append_drop 8 bytes
  rw [hmagic] at hsplit
  have hrest : (bytes.drop 8).length = 8 := by rw [List.length_drop, hlen]
  generalize bytes.drop 8 = rest at hsplit hrest
  subst hsplit
  match rest, hrest with
  | [b8, b9, b10, b11, b12, b13, b14, b15], _ =>
    have hmajor : b8 = 0 := hmajor
    have hkind : b10 = 1 := hkind
    have hbe : beBytes 4 (ofBe [b12, b13, b14, b15]) = [b12, b13, b14, b15] := beBytes_ofBe rfl
    show magic ++ [b8, b9, b10, b11, b12, b13, b14, b15] =
      magic ++ [0, b9, 1, b11] ++ beBytes 4 (ofBe [b12, b13, b14, b15])
    rw [hbe, hmajor, hkind]
    rfl

theorem readPreamble_eq_ok {container : Bytes} {view : Preamble} :
    readPreamble container = .ok view ↔
      ∃ (preamble : Format.Preamble) (rest : Bytes), container = preamble.encode ++ rest ∧
        preamble.headerLen + 16 ≤ rest.length ∧ view = preambleView preamble := by
  constructor
  · intro h
    unfold readPreamble at h
    obtain ⟨_, hlen, h⟩ := bind_eq_ok.mp h
    obtain ⟨_, hmagic, h⟩ := bind_eq_ok.mp h
    obtain ⟨_, hmajor, h⟩ := bind_eq_ok.mp h
    obtain ⟨_, hminor, h⟩ := bind_eq_ok.mp h
    obtain ⟨_, hkind, h⟩ := bind_eq_ok.mp h
    obtain ⟨_, hflags, h⟩ := bind_eq_ok.mp h
    obtain ⟨_, hlegacy, h⟩ := bind_eq_ok.mp h
    obtain ⟨_, hheader, h⟩ := bind_eq_ok.mp h
    obtain ⟨_, hend, h⟩ := bind_eq_ok.mp h
    have hlen := need_eq_ok.mp hlen
    have hheader := need_eq_ok.mp hheader
    have hend := need_eq_ok.mp hend
    -- the codec makes one check of the flags where this reader makes two
    have hflags' : ¬((container.take 16).getD 11 0 &&& ~~~Format.flagSigned ≠ 0 ∨
        ((container.take 16).getD 9 0 = Format.legacySignedMinor ∧
          (container.take 16).getD 11 0 ≠ 0)) := by
      rintro (hunknown | ⟨hminor2, hflag⟩)
      · exact hunknown (need_eq_ok.mp hflags)
      · rcases need_eq_ok.mp hlegacy with hlegacy | hlegacy
        · have hlegacy : (!decide ((container.take 16).getD 9 0 = Format.legacySignedMinor)) = true :=
            hlegacy
          rw [decide_eq_true hminor2] at hlegacy
          cases hlegacy
        · exact hflag hlegacy
    have ⟨preamble, hlength, hminor, hflags, hencode⟩ :=
      exists_preamble (List.length_take_of_le hlen) (need_eq_ok.mp hmagic)
      (need_eq_ok.mp hmajor) (need_eq_ok.mp hminor) (need_eq_ok.mp hkind) hflags'
      (by rw [not_or, not_lt]; exact ⟨Nat.ne_of_gt hheader.1, hheader.2⟩)
    refine ⟨preamble, container.drop 16, ?_, ?_, ?_⟩
    · rw [← hencode, List.take_append_drop]
    · rw [List.length_drop, hlength]
      omega
    · rw [pure_eq_ok.mp h, preambleView, Format.Preamble.isSigned, Format.Preamble.isLegacy,
        ← hencode, hlength, hminor, hflags]
      rfl
  · rintro ⟨preamble, rest, rfl, hrest, rfl⟩
    have hlen : preamble.encode.length = 16 := preamble.length_encode
    have htake : (preamble.encode ++ rest).take 16 = preamble.encode := List.take_left' hlen
    have hheader : ofBe (preamble.encode.drop 12) = preamble.headerLen := ofBe_beBytes (by
      have := preamble.headerLen_ok
      unfold Format.maxHeaderLen at this
      omega)
    have hbounds := preamble.headerLen_ok
    have hflags := preamble.flags_known
    rw [not_or] at hbounds hflags
    have hlegacy : (!decide (preamble.minor = legacyMinor)) = true ∨ preamble.flags = 0 := by
      by_cases hminor : preamble.minor = legacyMinor
      · exact .inr (not_not.mp fun hflag => hflags.2 ⟨hminor, hflag⟩)
      · exact .inl (by rw [decide_eq_false hminor]; rfl)
    -- each check of the reader holds of a preamble by its own fields
    unfold readPreamble
    rw [htake]
    refine bind_eq_ok.mpr ⟨(), need_pos (by rw [List.length_append]; omega), ?_⟩
    refine bind_eq_ok.mpr ⟨(), need_pos rfl, ?_⟩
    refine bind_eq_ok.mpr ⟨(), need_pos rfl, ?_⟩
    refine bind_eq_ok.mpr ⟨(), need_pos preamble.minor_ne_zero, ?_⟩
    refine bind_eq_ok.mpr ⟨(), need_pos rfl, ?_⟩
    refine bind_eq_ok.mpr ⟨(), need_pos (not_not.mp hflags.1), ?_⟩
    refine bind_eq_ok.mpr ⟨(), need_pos hlegacy, ?_⟩
    rw [hheader]
    refine bind_eq_ok.mpr ⟨(), need_pos ⟨Nat.pos_of_ne_zero hbounds.1, not_lt.mp hbounds.2⟩, ?_⟩
    refine bind_eq_ok.mpr ⟨(), need_pos (by rw [List.length_append]; omega), ?_⟩
    rfl

/-! ## The header -/

def envelopeItem (protectedBytes : Bytes) (mac : Key) : Item :=
  .array [.bytes protectedBytes, .bytes mac.toList]

theorem canonical_envelope {protectedBytes : Bytes} (h : protectedBytes.length < 2 ^ 64) (mac : Key)
    (depth : ℕ) : Canonical (depth + 1) (envelopeItem protectedBytes mac)
      (Cbor.array 2 ++ Cbor.bytes protectedBytes ++ Cbor.bytes mac.toList) := by
  have hmac : mac.toList.length < 2 ^ 64 := by
    rw [Vector.length_toList]
    decide
  have hfields : ∀ field ∈ [protectedBytes, mac.toList],
      Canonical depth (.bytes field) (Cbor.bytes field) := by
    intro field hfield
    simp only [List.mem_cons, List.not_mem_nil, or_false] at hfield
    rcases hfield with rfl | rfl
    · exact canonical_bytes h depth
    · exact canonical_bytes hmac depth
  have hcanonical := canonical_array (by simp) hfields
  simpa [envelopeItem, List.append_assoc] using hcanonical

/-- An item that was encoded has a length that fits its head. -/
theorem length_lt_of_envelope {protectedBytes bytes : Bytes} {mac : Key}
    (h : encodeCbor (envelopeItem protectedBytes mac) = .ok bytes) :
    protectedBytes.length < 2 ^ 64 := by
  unfold envelopeItem at h
  rw [encodeCbor] at h
  obtain ⟨_, _, h⟩ := bind_eq_ok.mp h
  obtain ⟨_, hparts, _⟩ := bind_eq_ok.mp h
  rw [encodeItems] at hparts
  obtain ⟨_, hpart, _⟩ := bind_eq_ok.mp hparts
  rw [encodeCbor] at hpart
  obtain ⟨_, hhead, _⟩ := bind_eq_ok.mp hpart
  by_contra hge
  rw [cborHead, if_neg hge] at hhead
  cases hhead

/-- What a decoded envelope must be. -/
theorem envelope_of_checks {envelope : Item}
    (harray : isArray envelope = true ∧ (elements envelope).length = 2)
    (hitems : isBytes (index envelope 0) = true ∧ isBytes (index envelope 1) = true ∧
      (buffer (index envelope 1)).length = 32) :
    ∃ (protectedBytes : Bytes) (mac : Key), envelope = envelopeItem protectedBytes mac := by
  have ⟨items, hitems'⟩ := isArray_iff.mp harray.1
  subst hitems'
  have ⟨a, b, hab⟩ := List.length_eq_two.mp harray.2
  have hab : items = [a, b] := hab
  subst hab
  have ⟨protectedBytes, ha⟩ := isBytes_iff.mp hitems.1
  have ⟨mac, hb⟩ := isBytes_iff.mp hitems.2.1
  have ha : a = .bytes protectedBytes := ha
  have hb : b = .bytes mac := hb
  subst ha hb
  exact ⟨protectedBytes, ⟨mac.toArray, hitems.2.2⟩, rfl⟩

theorem decodeHeader_eq_ok {headerBytes protectedBytes : Bytes} {mac : Key} :
    Format.decodeHeader headerBytes = .ok (protectedBytes, mac) ↔
      headerBytes = Cbor.array 2 ++ Cbor.bytes protectedBytes ++ Cbor.bytes mac.toList ∧
        ¬(protectedBytes.length = 0 ∨ protectedBytes.length > Format.maxHeaderLen) ∧
        ¬(headerBytes.length = 0 ∨ headerBytes.length > Format.maxHeaderLen) := by
  constructor
  · intro h
    have hencode := Format.encodeHeader_of_decodeHeader h
    unfold Format.encodeHeader Format.checkHeaderLen at hencode
    obtain ⟨_, hprotected, hencode⟩ := bind_eq_ok.mp hencode
    obtain ⟨_, hheader, hencode⟩ := bind_eq_ok.mp hencode
    have hbytes := pure_eq_ok.mp hencode
    rw [← hbytes] at hheader
    exact ⟨hbytes, failIf_eq_ok.mp hprotected, failIf_eq_ok.mp hheader⟩
  · rintro ⟨hbytes, hprotected, hheader⟩
    apply Format.decodeHeader_of_encodeHeader
    rw [hbytes] at hheader ⊢
    refine bind_eq_ok.mpr ⟨(), failIf_neg _ hprotected, ?_⟩
    exact bind_eq_ok.mpr ⟨(), failIf_neg _ hheader, rfl⟩

theorem protectedHeader_decode_eq_ok {bytes : Bytes} {header : ProtectedHeader} :
    ProtectedHeader.decode bytes = .ok header ↔
      header.Valid true ∧ bytes = header.bytes true ∧
        ¬(bytes.length = 0 ∨ bytes.length > Format.maxHeaderLen) := by
  rw [← ProtectedHeader.encodeWithSignatures_eq_ok]
  exact ⟨ProtectedHeader.encode_of_decode, ProtectedHeader.decode_of_encode⟩

/-- What a legacy container may not have, in both readings. -/
theorem legacy_checks (header : ProtectedHeader) :
    ((headerView header).extensions.length = 0 ∧ (headerView header).xwing.all id = true) ↔
      ¬(header.extensions ≠ [] ∨ header.recipients.any (fun stanza => stanza.asXwing.isNone)) := by
  have hxwing : (headerView header).xwing.all id = true ↔
      ¬(header.recipients.any fun stanza => stanza.asXwing.isNone) = true := by
    simp only [headerView, List.all_map, List.all_eq_true, List.any_eq_true, not_exists, not_and,
      Function.comp, id, Option.isNone_iff_eq_none, Option.isSome_iff_ne_none]
  rw [hxwing, not_or, not_not, headerView, List.length_map, List.length_eq_zero_iff]

theorem readHeader_eq_ok (hdecodes : Decodes decodeAllSync) {preamble : Format.Preamble}
    {headerBytes tail : Bytes} (hlen : headerBytes.length = preamble.headerLen)
    {protectedBytes headerMac : Bytes} {view : Header} :
    readHeader decodeAllSync (preamble.encode ++ (headerBytes ++ tail)) (preambleView preamble) =
        .ok (protectedBytes, headerMac, view) ↔
      ∃ (header : ProtectedHeader) (mac : Key),
        Format.decodeHeader headerBytes = .ok (protectedBytes, mac) ∧
        ProtectedHeader.decode protectedBytes = .ok header ∧
        ¬(preamble.isLegacy ∧ (header.extensions ≠ [] ∨
          header.recipients.any fun stanza => stanza.asXwing.isNone)) ∧
        headerMac = mac.toList ∧ view = headerView header := by
  have hslice : ((preamble.encode ++ (headerBytes ++ tail)).take
      (preambleView preamble).headerEnd).drop 16 = headerBytes := by
    have hencode : preamble.encode.length = 16 := preamble.length_encode
    have hend : (preamble.encode ++ headerBytes).length = (preambleView preamble).headerEnd := by
      rw [List.length_append, hencode, hlen]
      rfl
    rw [← List.append_assoc, List.take_left' hend, List.drop_left' hencode]
  have hbounds := preamble.headerLen_ok
  rw [← hlen] at hbounds
  unfold readHeader
  rw [hslice]
  constructor
  · intro h
    obtain ⟨envelope, henvelope, h⟩ := bind_eq_ok.mp h
    obtain ⟨_, harray, h⟩ := bind_eq_ok.mp h
    obtain ⟨_, hitems, h⟩ := bind_eq_ok.mp h
    -- decoding is canonical: what was accepted is what the codec writes
    obtain ⟨bytes, mac, hitem⟩ := envelope_of_checks (need_eq_ok.mp harray) (need_eq_ok.mp hitems)
    subst hitem
    obtain ⟨item, hitem, h⟩ := bind_eq_ok.mp h
    obtain ⟨checked, hchecked, h⟩ := bind_eq_ok.mp h
    obtain ⟨header, hvalid, hentries, hview⟩ := checkHeader_eq_ok.mp hchecked
    subst hentries hview
    have hbytes : bytes = header.bytes true := by
      have hencode := encodeCbor_of_decodeCanonical hitem
      rw [(canonical_header hvalid 0).1] at hencode
      exact (Except.ok.inj hencode).symm
    have hheader : headerBytes = Cbor.array 2 ++ Cbor.bytes bytes ++ Cbor.bytes mac.toList := by
      have hencode := encodeCbor_of_decodeCanonical henvelope
      rw [(canonical_envelope (length_lt_of_envelope hencode) mac 0).1] at hencode
      exact (Except.ok.inj hencode).symm
    -- the protected bytes are a part of the header, and begin with the head of a map
    have hprotected : ¬(bytes.length = 0 ∨ bytes.length > Format.maxHeaderLen) := by
      have hle := congrArg List.length hheader
      have hpos := congrArg List.length hbytes
      have hhead : 1 ≤ Cbor.headLen (5 + header.extensions.length) := by
        unfold Cbor.headLen
        split_ifs <;> omega
      simp only [List.length_append, ProtectedHeader.bytes, Cbor.bytes, Cbor.map,
        Cbor.length_head] at hle hpos
      omega
    obtain ⟨hpure, hlegacy⟩ : (protectedBytes, headerMac, view) =
        (bytes, mac.toList, headerView header) ∧ ¬(preamble.isLegacy ∧ (header.extensions ≠ [] ∨
          header.recipients.any fun stanza => stanza.asXwing.isNone)) := by
      by_cases hlegacy : preamble.isLegacy = true
      · obtain ⟨_, hextensions, h⟩ := bind_eq_ok.mp ((if_pos hlegacy).symm.trans h)
        obtain ⟨_, hxwing, h⟩ := bind_eq_ok.mp h
        have hchecks := (legacy_checks header).mp ⟨need_eq_ok.mp hextensions, need_eq_ok.mp hxwing⟩
        exact ⟨pure_eq_ok.mp h, fun hbad => hchecks hbad.2⟩
      · exact ⟨pure_eq_ok.mp ((if_neg hlegacy).symm.trans h), fun hbad => hlegacy hbad.1⟩
    simp only [Prod.mk.injEq] at hpure
    obtain ⟨rfl, rfl, rfl⟩ := hpure
    exact ⟨header, mac, decodeHeader_eq_ok.mpr ⟨hheader, hprotected, hbounds⟩,
      protectedHeader_decode_eq_ok.mpr ⟨hvalid, hbytes, hprotected⟩, hlegacy, rfl, rfl⟩
  · rintro ⟨header, mac, hheader, hdecode, hlegacy, rfl, rfl⟩
    obtain ⟨hbytes, hprotected, _⟩ := decodeHeader_eq_ok.mp hheader
    obtain ⟨hvalid, hcanonical, _⟩ := protectedHeader_decode_eq_ok.mp hdecode
    have hlt : protectedBytes.length < 2 ^ 64 := by
      unfold Format.maxHeaderLen at hprotected
      omega
    -- the checks of the reader, in its order
    have henvelope := decodeCanonical_of_canonical hdecodes
      (hbytes ▸ canonical_envelope hlt mac 15) .malformedHeader
    have hitem := decodeCanonical_of_canonical hdecodes
      (hcanonical ▸ canonical_header hvalid 13) .malformedHeader
    refine bind_eq_ok.mpr ⟨_, henvelope, ?_⟩
    refine bind_eq_ok.mpr ⟨(), need_pos ⟨rfl, rfl⟩, ?_⟩
    refine bind_eq_ok.mpr ⟨(), need_pos ⟨rfl, rfl, Vector.length_toList⟩, ?_⟩
    refine bind_eq_ok.mpr ⟨_, hitem, ?_⟩
    refine bind_eq_ok.mpr ⟨_, check_headerEntries hvalid, ?_⟩
    by_cases hpreamble : preamble.isLegacy = true
    · obtain ⟨hextensions, hxwing⟩ := (legacy_checks header).mpr fun hbad => hlegacy ⟨hpreamble, hbad⟩
      refine (if_pos hpreamble).trans ?_
      refine bind_eq_ok.mpr ⟨(), need_pos hextensions, ?_⟩
      exact bind_eq_ok.mpr ⟨(), need_pos hxwing, rfl⟩
    · exact if_neg hpreamble

/-! ## The content key -/

theorem label_objectKey : label "object-key" = infoPrefix := by decide

theorem label_metadata : label "metadata" = utf8 "HIDE/0.1 metadata" := by decide

theorem label_headerMac : label "header-mac" = utf8 "HIDE/0.1 header-mac" := by decide

theorem label_payload : label "payload" = utf8 "HIDE/0.1 payload" := by decide

theorem label_chunk : label "chunk" = utf8 "HIDE/0.1 chunk" := by decide

theorem openCandidate_eq_some {seed objectId cek : Key} {stanza : Format.RecipientStanza} :
    openCandidate P seed objectId.toList (stanzaItem (.xWing stanza)) = some cek ↔
      unwrapCek P ⟨seed⟩ objectId stanza.encapsulation stanza.wrappedCek = .ok cek := by
  have hinfo : label "object-key" ++ objectId.toList ++ suiteBytes = (objectContext objectId).1 := by
    rw [label_objectKey, List.append_assoc]
    rfl
  constructor
  · intro h
    unfold openCandidate at h
    have ⟨enc, henc, h⟩ := Option.bind_eq_some_iff.mp h
    have ⟨wrapped, hwrapped, h⟩ := Option.bind_eq_some_iff.mp h
    rw [hinfo] at h
    have henc : tryInto encapsulationLength stanza.encapsulation = some enc := henc
    have hwrapped : tryInto wrappedKeyLength stanza.wrappedCek = some wrapped := hwrapped
    have hencLen : stanza.encapsulation.length = encapsulationLength := by
      rw [tryInto_eq_some henc, Vector.length_toList]
    have hwrappedLen : stanza.wrappedCek.length = wrappedKeyLength := by
      rw [tryInto_eq_some hwrapped, Vector.length_toList]
    refine bind_eq_ok.mpr ⟨(), failIf_neg _ (not_not.mpr hencLen), ?_⟩
    refine bind_eq_ok.mpr ⟨(), failIf_neg _ (not_not.mpr hwrappedLen), ?_⟩
    refine bind_eq_ok.mpr ⟨enc, okOr_eq_ok.mpr henc, ?_⟩
    refine bind_eq_ok.mpr ⟨wrapped, okOr_eq_ok.mpr hwrapped, ?_⟩
    exact okOr_eq_ok.mpr h
  · intro h
    unfold unwrapCek at h
    obtain ⟨_, _, h⟩ := bind_eq_ok.mp h
    obtain ⟨_, _, h⟩ := bind_eq_ok.mp h
    obtain ⟨enc, henc, h⟩ := bind_eq_ok.mp h
    obtain ⟨wrapped, hwrapped, h⟩ := bind_eq_ok.mp h
    refine Option.bind_eq_some_iff.mpr ⟨enc, okOr_eq_ok.mp henc, ?_⟩
    refine Option.bind_eq_some_iff.mpr ⟨wrapped, okOr_eq_ok.mp hwrapped, ?_⟩
    rw [hinfo]
    exact okOr_eq_ok.mp h

theorem headerMac_iff {objectId mac candidate : Key} {preamble protectedBytes : Bytes} :
    (P.hmac (derive P candidate objectId.toList (label "header-mac"))
        (preamble ++ protectedBytes)).toList = mac.toList ↔
      verifyMac P (Object.headerMacKey P candidate objectId) [preamble, protectedBytes] mac =
        .ok () := by
  have hparts : [preamble, protectedBytes].flatten = preamble ++ protectedBytes := by simp
  rw [verifyMac, failIf_eq_ok, not_not, Vector.toList_inj, label_headerMac, Crypto.mac, hparts]
  exact Iff.rfl

/-- Both loops try the same stanzas in the same order. -/
theorem recoverCek_eq_some {seed objectId mac cek : Key} {preamble protectedBytes : Bytes}
    (recipients : List Stanza) :
    recoverCek P seed objectId.toList preamble protectedBytes mac.toList
        ((recipients.map stanzaItem).zip (recipients.map fun stanza => stanza.asXwing.isSome)) =
        some cek ↔
      Object.recoverCek P ⟨seed⟩ objectId preamble protectedBytes mac recipients = .ok cek := by
  induction recipients with
  | nil =>
    constructor
    · intro h
      cases h
    · intro h
      cases h
  | cons stanza recipients ih =>
    cases stanza with
    | unknown stanza => exact ih
    | xWing stanza =>
      have hxwing : (Stanza.xWing stanza).asXwing.isSome = true := rfl
      rw [List.map_cons, List.map_cons, List.zip_cons_cons, hxwing, recoverCek, if_pos rfl,
        Object.recoverCek]
      simp only [Stanza.asXwing]
      cases hopen : openCandidate P seed objectId.toList (stanzaItem (.xWing stanza)) with
      | none =>
        cases hunwrap : unwrapCek P ⟨seed⟩ objectId stanza.encapsulation stanza.wrappedCek with
        | error _ => exact ih
        | ok candidate =>
          rw [openCandidate_eq_some.mpr hunwrap] at hopen
          cases hopen
      | some candidate =>
        rw [openCandidate_eq_some.mp hopen]
        simp only []
        by_cases hmac : (P.hmac (derive P candidate objectId.toList (label "header-mac"))
            (preamble ++ protectedBytes)).toList = mac.toList
        · rw [if_pos hmac, headerMac_iff.mp hmac]
          simp
        · rw [if_neg hmac]
          cases hverify : verifyMac P (Object.headerMacKey P candidate objectId)
              [preamble, protectedBytes] mac with
          | error _ => exact ih
          | ok _ => exact absurd (headerMac_iff.mpr hverify) hmac

/-! ## The metadata -/

theorem aeadOpen_eq_ok {key : Key} {nonce : Nonce} {aad ciphertext plaintext : Bytes} :
    aeadOpen P key nonce aad ciphertext = .ok plaintext ↔
      tagLen ≤ ciphertext.length ∧ P.aeadOpen key nonce aad ciphertext = some plaintext := by
  simp only [aeadOpen, bind_eq_ok, need_eq_ok, okOr_eq_ok, exists_const, ge_iff_le]

theorem metadata_decode_eq_ok {bytes : Bytes} {metadata : Metadata} :
    Metadata.decode bytes = .ok metadata ↔
      metadata.Valid true ∧ bytes = metadata.bytes true ∧
        bytes.length ≤ Format.maxMetadataLen := by
  rw [← and_assoc, ← Metadata.encodeWithSignature_eq_ok]
  constructor
  · intro h
    exact ⟨Metadata.encode_of_decode h, Metadata.length_le_of_decode h⟩
  · rintro ⟨h, hlen⟩
    exact Metadata.decode_of_encode h hlen

theorem readMetadata_eq_ok (hdecodes : Decodes decodeAllSync) {preamble : Format.Preamble}
    {header : ProtectedHeader} (hvalid : header.Valid true) {cek : Key}
    {map : List (Item × Item)} {pairs : List (ℕ × Bytes)} :
    readMetadata P decodeAllSync (preambleView preamble) (headerView header) cek =
        .ok (map, pairs) ↔
      ∃ (metadata : Metadata) (plaintext : Bytes),
        «open» P (Object.metadataKey P cek header.objectId) Object.metadataNonce
          (Object.metadataAad header.objectId) header.encryptedMetadata = .ok plaintext ∧
        Metadata.decode plaintext = .ok metadata ∧
        ¬(preamble.isLegacy ∧ metadata.extensions ≠ []) ∧
        map = metadataEntries metadata true ∧ pairs = metadata.extensions.map extensionPair := by
  have hkey : derive P cek (headerView header).objectId (label "metadata") =
      Object.metadataKey P cek header.objectId := by
    rw [label_metadata]
    rfl
  have haad : metadataAad (headerView header).objectId = Object.metadataAad header.objectId := by
    rw [metadataAad, label_metadata]
    rfl
  unfold readMetadata
  rw [hkey, haad]
  constructor
  · intro h
    obtain ⟨plaintext, hopen, h⟩ := bind_eq_ok.mp h
    obtain ⟨_, hlen, h⟩ := bind_eq_ok.mp h
    obtain ⟨item, hitem, h⟩ := bind_eq_ok.mp h
    obtain ⟨extensions, hextensions, h⟩ := bind_eq_ok.mp h
    have ⟨metadata, hmetadata, hentries, hpairs⟩ := checkMetadata_eq_ok.mp hextensions
    subst hentries hpairs
    -- decoding is canonical, so the plaintext is the only encoding of its metadata
    have hbytes : plaintext = metadata.bytes true := by
      have hencode := encodeCbor_of_decodeCanonical hitem
      rw [(canonical_metadata hmetadata 0).1] at hencode
      exact (Except.ok.inj hencode).symm
    have ⟨hpure, hlegacy⟩ : (map, pairs) = (metadataEntries metadata true,
        metadata.extensions.map extensionPair) ∧
          ¬(preamble.isLegacy ∧ metadata.extensions ≠ []) := by
      by_cases hlegacy : preamble.isLegacy = true
      · obtain ⟨_, hnone, h⟩ := bind_eq_ok.mp ((if_pos hlegacy).symm.trans h)
        have hnone := need_eq_ok.mp hnone
        rw [List.length_map, List.length_eq_zero_iff] at hnone
        exact ⟨pure_eq_ok.mp h, fun hbad => hbad.2 hnone⟩
      · exact ⟨pure_eq_ok.mp ((if_neg hlegacy).symm.trans h), fun hbad => hlegacy hbad.1⟩
    have ⟨hmap, hpairs⟩ := Prod.mk.inj hpure
    exact ⟨metadata, plaintext, okOr_eq_ok.mpr (aeadOpen_eq_ok.mp hopen).2,
      metadata_decode_eq_ok.mpr ⟨hmetadata, hbytes, need_eq_ok.mp hlen⟩, hlegacy, hmap, hpairs⟩
  · rintro ⟨metadata, plaintext, hopen, hdecode, hlegacy, rfl, rfl⟩
    have ⟨hmetadata, hbytes, hlen⟩ := metadata_decode_eq_ok.mp hdecode
    have hitem := decodeCanonical_of_canonical hdecodes
      (hbytes ▸ canonical_metadata hmetadata 14) .invalidMetadata
    refine bind_eq_ok.mpr ⟨plaintext, aeadOpen_eq_ok.mpr ⟨hvalid.le_metadata, okOr_eq_ok.mp hopen⟩, ?_⟩
    refine bind_eq_ok.mpr ⟨(), need_pos hlen, ?_⟩
    refine bind_eq_ok.mpr ⟨_, hitem, ?_⟩
    refine bind_eq_ok.mpr ⟨_, checkMetadata_eq_ok.mpr ⟨metadata, hmetadata, rfl, rfl⟩, ?_⟩
    by_cases hpreamble : preamble.isLegacy = true
    · have hnone : (metadata.extensions.map extensionPair).length = 0 := by
        rw [List.length_map, List.length_eq_zero_iff]
        exact not_not.mp fun hbad => hlegacy ⟨hpreamble, hbad⟩
      refine (if_pos hpreamble).trans ?_
      exact bind_eq_ok.mpr ⟨(), need_pos hnone, rfl⟩
    · exact if_neg hpreamble

end

end HideProtocol.Conformance
