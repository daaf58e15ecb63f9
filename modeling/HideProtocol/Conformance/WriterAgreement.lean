import Mathlib.Data.List.Nodup
import HideProtocol.Conformance.Agreement
import HideProtocol.Conformance.Write

/-!
# Two writers, one format

The Rust writer keeps the header and the metadata as structures with an order of their own and
streams the payload with one chunk of look-ahead; the independent writer fills `Map`s, sorts them
when it encodes, and counts the blocks before it seals them. Asked for the same, they write the
same bytes.
-/

namespace HideProtocol.Conformance

open Lib Crypto
open Cbor (Item)
open Format (ProtectedHeader Metadata Stanza Extension SignatureStanza RecipientStanza)

/-! ## Maps -/

theorem isKey_uint (m n : ℕ) : isKey (.uint m) n = decide (m = n) := by
  rfl

/-- A key that is not there is put at the end. -/
theorem setKey_of_not_mem {map : List (Item × Item)} {n : ℕ} {value : Item}
    (h : ∀ entry ∈ map, isKey entry.1 n = false) : setKey map n value = map ++ [(.uint n, value)] := by
  have hany : ¬(map.any fun entry => isKey entry.1 n) = true := by
    rw [Bool.not_eq_true, List.any_eq_false]
    intro entry hentry
    rw [h entry hentry]
    exact Bool.false_ne_true
  exact if_neg hany

/-- Extensions whose keys ascend, past every key that is there, keep their order. -/
theorem setAll_of_ascending {map : List (Item × Item)} {previous : ℕ} {extensions : List Extension}
    (hmap : ∀ entry ∈ map, ∃ n, entry.1 = .uint n ∧ n ≤ previous)
    (hasc : extensions.Pairwise fun a b => a.key.toNat < b.key.toNat)
    (hlower : ∀ extension ∈ extensions, previous < extension.key.toNat) :
    setAll map (extensions.map extensionPair) = map ++ extensions.map extensionEntry := by
  induction extensions generalizing map previous with
  | nil => exact (List.append_nil map).symm
  | cons extension rest ih =>
    have ⟨hfirst, hrest⟩ := List.pairwise_cons.mp hasc
    have hprevious := hlower extension List.mem_cons_self
    have hfresh : ∀ entry ∈ map, isKey entry.1 extension.key.toNat = false := by
      intro entry hentry
      have ⟨n, hkey, hle⟩ := hmap entry hentry
      rw [hkey, isKey_uint, decide_eq_false_iff_not]
      omega
    have hset : setAll map ((extension :: rest).map extensionPair) =
        setAll (map ++ [extensionEntry extension]) (rest.map extensionPair) :=
      congrArg (setAll · (rest.map extensionPair)) (setKey_of_not_mem hfresh)
    have hnext : ∀ entry ∈ map ++ [extensionEntry extension],
        ∃ n, entry.1 = .uint n ∧ n ≤ extension.key.toNat := by
      intro entry hentry
      rcases List.mem_append.mp hentry with hentry | hentry
      · have ⟨n, hkey, hle⟩ := hmap entry hentry
        exact ⟨n, hkey, by omega⟩
      · rw [List.mem_singleton.mp hentry]
        exact ⟨extension.key.toNat, rfl, le_refl _⟩
    rw [hset, ih hnext hrest hfirst, List.append_assoc]
    rfl

theorem keyLe_trans (a b c : Bytes × Bytes) (hab : keyLe a b = true) (hbc : keyLe b c = true) :
    keyLe a c = true := by
  simp only [keyLe, decide_eq_true_eq] at hab hbc ⊢
  exact List.le_trans hab hbc

theorem keyLe_total (a b : Bytes × Bytes) : (keyLe a b || keyLe b a) = true := by
  simp only [keyLe, Bool.or_eq_true, decide_eq_true_eq]
  exact List.le_total a.1 b.1

theorem uint_inj {m n : ℕ} (hm : m < 65536) (hn : n < 65536) (h : Cbor.uint m = Cbor.uint n) :
    m = n := by
  have hread := Cbor.readUintBelow_uint hm (by omega) []
  rw [h, Cbor.readUintBelow_uint hn (by omega) []] at hread
  exact (Prod.mk.inj (Option.some.inj hread)).1.symm

/-- Sorting undoes any order in which the entries were set. -/
theorem encodeCbor_perm {depth : ℕ} {fields fields' : List Field} (hperm : fields'.Perm fields)
    (hasc : fields.Pairwise fun a b => a.key < b.key)
    (h : ∀ field ∈ fields, field.Canonical depth) :
    encodeCbor (.map (fields'.map Field.entry)) = encodeCbor (.map (fields.map Field.entry)) := by
  have h' : ∀ field ∈ fields', field.Canonical depth := fun field hfield =>
    h field (hperm.mem_iff.mp hfield)
  have hinj : ∀ f ∈ fields, ∀ g ∈ fields, f.key = g.key → f = g := by
    have hnodup : (fields.map Field.key).Nodup := by
      rw [List.Nodup, List.pairwise_map]
      exact hasc.imp fun hlt heq => by omega
    exact List.inj_on_of_nodup_map hnodup
  have hsame : (fields'.map fun field => (Cbor.uint field.key, field.bytes)).mergeSort keyLe =
      (fields.map fun field => (Cbor.uint field.key, field.bytes)).mergeSort keyLe := by
    apply List.Perm.eq_of_pairwise ?_ (List.pairwise_mergeSort keyLe_trans keyLe_total _)
      (List.pairwise_mergeSort keyLe_trans keyLe_total _)
    · exact (List.mergeSort_perm _ _).trans
        ((hperm.map _).trans (List.mergeSort_perm _ _).symm)
    · -- no two entries have one key
      intro a b ha hb hab hba
      have ⟨f, hf, hfa⟩ := List.mem_map.mp ((List.mergeSort_perm _ _).mem_iff.mp ha)
      have ⟨g, hg, hgb⟩ := List.mem_map.mp ((List.mergeSort_perm _ _).mem_iff.mp hb)
      subst hfa hgb
      have hkey : Cbor.uint f.key = Cbor.uint g.key :=
        List.le_antisymm (of_decide_eq_true hab) (of_decide_eq_true hba)
      rw [hinj f (hperm.mem_iff.mp hf) g hg (uint_inj (h' f hf).1 (h g hg).1 hkey)]
  rw [encodeCbor, encodeCbor, encodeEntries_fields h, encodeEntries_fields h', ok_bind, ok_bind,
    hsame]

/-! ## The metadata and the header -/

/-- No extension has a core key. -/
theorem isKey_extension {extensions : List Extension} (h : Format.ValidExtensions extensions)
    {n : ℕ} (hn : n < Format.firstIgnorableKey) :
    ∀ entry ∈ extensions.map extensionEntry, isKey entry.1 n = false := by
  have hfrom := (extensionsFrom_iff (by decide) hn extensions).mp h.2
  have ⟨_, hlower⟩ := extensions_ascend hfrom
  intro entry hentry
  have ⟨extension, hextension, heq⟩ := List.mem_map.mp hentry
  have := hlower extension hextension
  rw [← heq, extensionEntry, isKey_uint, decide_eq_false_iff_not]
  omega

theorem setAll_extensions {map : List (Item × Item)} {last : ℕ} {extensions : List Extension}
    (hlast : last < Format.firstIgnorableKey)
    (hmap : ∀ entry ∈ map, ∃ n, entry.1 = .uint n ∧ n ≤ last)
    (h : Format.ValidExtensions extensions) :
    setAll map (extensions.map extensionPair) = map ++ extensions.map extensionEntry := by
  have hfrom := (extensionsFrom_iff (by decide) hlast extensions).mp h.2
  have ⟨hasc, hlower⟩ := extensions_ascend hfrom
  exact setAll_of_ascending hmap hasc hlower

/-- The metadata map, with a signature set last. -/
def writtenEntries (metadata : Metadata) : List (Item × Item) :=
  metadataEntries metadata false ++
    (metadata.signature.map fun stanza => (Item.uint 3, signatureItem stanza)).toList

theorem metadataEntries_eq (metadata : Metadata) (withSignature : Bool) :
    metadataEntries metadata withSignature =
      (metadataFields metadata withSignature ++ metadata.extensions.map extensionField).map
        Field.entry := by
  rw [metadataEntries, List.map_append, List.map_map]
  rfl

/-- The place where the signature was set makes no difference to what is encoded. -/
theorem encode_writtenEntries {metadata : Metadata} (h : metadata.Valid true) :
    encodeCbor (.map (writtenEntries metadata)) = .ok (metadata.bytes true) := by
  have ⟨hascend, hle, _⟩ := metadataFields_ascend metadata true
  have ⟨hasc, hcanonical⟩ := extended_fields (by decide : 3 < Format.firstIgnorableKey) hascend hle
    (metadataFields_canonical h 0) h.extensions
  obtain ⟨signature, hfields, hsignature⟩ : ∃ signature : List Field,
      metadataFields metadata true = metadataFields metadata false ++ signature ∧
      (metadata.signature.map fun stanza => (Item.uint 3, signatureItem stanza)).toList =
        signature.map Field.entry := by
    refine ⟨(metadata.signature.map fun stanza =>
      (⟨3, signatureItem stanza, stanza.bytes⟩ : Field)).toList, ?_, ?_⟩
    · simp [metadataFields, Metadata.slot]
    · cases metadata.signature <;> rfl
  have hwritten : writtenEntries metadata =
      (metadataFields metadata false ++ metadata.extensions.map extensionField ++ signature).map
        Field.entry := by
    simp only [writtenEntries, metadataEntries_eq, hsignature, List.map_append]
  have hperm : (metadataFields metadata false ++ metadata.extensions.map extensionField ++
      signature).Perm (metadataFields metadata true ++ metadata.extensions.map extensionField) := by
    rw [hfields, List.append_assoc, List.append_assoc]
    exact List.perm_append_comm.append_left _
  rw [hwritten, encodeCbor_perm hperm hasc hcanonical, ← metadataEntries_eq]
  exact (canonical_metadata h 0).1

/-- The metadata map as the options fill it. -/
theorem setAll_metadata {metadata : Metadata} {filename mediaType : String}
    (hfilename : metadata.filename = some filename) (hmediaType : metadata.mediaType = some mediaType)
    (h : Format.ValidExtensions metadata.extensions) :
    setAll (setKey (setKey [] 1 (.text filename)) 2 (.text mediaType))
        (metadata.extensions.map extensionPair) = metadataEntries metadata false := by
  have hcore : setKey (setKey [] 1 (.text filename)) 2 (.text mediaType) =
      [(Item.uint 1, .text filename), (.uint 2, .text mediaType)] := rfl
  rw [hcore, setAll_extensions (by decide : 2 < Format.firstIgnorableKey) (by simp) h]
  simp [metadataEntries, metadataFields, hfilename, hmediaType, Metadata.slot, Field.entry]

/-- A signature joins the map. -/
theorem setKey_signature {metadata : Metadata} (h : Format.ValidExtensions metadata.extensions)
    (stanza : SignatureStanza) :
    setKey (metadataEntries metadata false) 3 (signatureItem stanza) =
      metadataEntries metadata false ++ [(.uint 3, signatureItem stanza)] := by
  apply setKey_of_not_mem
  intro entry hentry
  rcases List.mem_append.mp hentry with hentry | hentry
  · have ⟨field, hfield, heq⟩ := List.mem_map.mp hentry
    have hkey : field.key = 1 ∨ field.key = 2 := by
      simp only [metadataFields, Metadata.slot, List.mem_append, Option.mem_toList,
        Option.map_eq_some_iff] at hfield
      rcases hfield with (⟨_, _, hfield⟩ | ⟨_, _, hfield⟩) | ⟨_, hfield, _⟩
      · exact Or.inl (congrArg Field.key hfield).symm
      · exact Or.inr (congrArg Field.key hfield).symm
      · cases hfield
    rw [← heq, Field.entry, isKey_uint, decide_eq_false_iff_not]
    omega
  · exact isKey_extension h (by decide) entry hentry

/-- The protected map, with the sealed metadata in its place. -/
theorem setKey_header (header : ProtectedHeader)
    (h : Format.ValidExtensions header.extensions) :
    setKey (setAll [(.uint 1, .uint suite), (.uint 2, .bytes header.objectId.toList),
        (.uint 3, .array (header.recipients.map stanzaItem)), (.uint 4, .bytes []),
        (.uint 5, .array (header.signatures.map signatureItem))]
        (header.extensions.map extensionPair)) 4 (.bytes header.encryptedMetadata) =
      headerEntries header := by
  rw [setAll_extensions (by decide : 5 < Format.firstIgnorableKey) (by simp) h]
  have hextensions : (header.extensions.map extensionEntry).map
      (fun entry => if isKey entry.1 4 then (entry.1, .bytes header.encryptedMetadata) else entry) =
      header.extensions.map extensionEntry := by
    conv_rhs => rw [← List.map_id (header.extensions.map extensionEntry)]
    apply List.map_congr_left
    intro entry hentry
    rw [isKey_extension h (by decide) entry hentry]
    rfl
  refine (if_pos rfl).trans ?_
  rw [List.map_append, hextensions]
  rfl

/-! ## The records -/

theorem writeUint_eq_ok {width value : ℕ} (h : value < 256 ^ width) :
    writeUint width value = .ok (beBytes width value) := by
  rw [writeUint, failIf_neg _ (not_not.mpr h)]
  rfl

section
variable {P : Crypto.Primitives} {S : Sign.Primitives}

/-- One turn of the independent writer's loop, on a block the AEAD seals. -/
theorem sealRecords_step (hP : Object.AeadCorrect P) {key objectId : Key}
    {protectedBytes plaintext block ciphertext records : Bytes} {count counter : ℕ} {kind : UInt8}
    (hcounter : counter < count)
    (hblock : (plaintext.drop (counter * 65536)).take 65536 = block)
    (hkind : (if counter = count - 1 then 2 else 1) = kind)
    (hseal : P.aeadSeal key (Object.nonce counter kind)
      (Object.chunkAad objectId (hash P [protectedBytes]) counter kind block.length) block =
        some ciphertext)
    (hmore : sealRecords P key objectId.toList protectedBytes plaintext count (counter + 1) =
      .ok records) :
    sealRecords P key objectId.toList protectedBytes plaintext count counter =
      .ok (Object.encodeRecord kind ciphertext ++ records) := by
  have hfits : block.length + tagLen < 256 ^ 4 := by
    have hle : block.length ≤ 65536 := by
      rw [← hblock]
      exact List.length_take_le _ _
    unfold tagLen
    omega
  have hlength : ciphertext.length = block.length + tagLen := hP.length _ _ _ _ _ hseal
  have hsealed : aeadSeal P key (chunkNonce counter kind)
      (chunkAad P objectId.toList protectedBytes counter kind block.length) block =
        .ok ciphertext := by
    rw [chunkAad_eq]
    exact okOr_eq_ok.mpr hseal
  rw [sealRecords, dif_pos hcounter]
  simp only [hblock, hkind, writeUint_eq_ok hfits, ok_bind, hsealed, hmore]
  show Except.ok _ = _
  simp only [Object.encodeRecord, hlength, List.cons_append, List.nil_append]

/-- From `counter` on, the two loops write the same records: where one has nothing more to read,
the other has reached its last block. -/
theorem sealRecords_of_encryptLoop (hP : Object.AeadCorrect P) {key objectId : Key}
    {protectedBytes plaintext current rest : Bytes} {input : Reader} {counter total n : ℕ}
    (hinput : input.Delivers rest) (hlen : current.length ≤ Format.chunkLen)
    (hfull : rest ≠ [] → current.length = Format.chunkLen) (hne : current ≠ [] ∨ counter = 0)
    (hat : plaintext.drop (counter * 65536) = current ++ rest)
    (hok : (Object.encryptLoop P key objectId (hash P [protectedBytes]) current input counter
      total).result = .ok n) :
    sealRecords P key objectId.toList protectedBytes plaintext
        (max 1 ((plaintext.length + 65535) / 65536)) counter =
      .ok (Object.encryptLoop P key objectId (hash P [protectedBytes]) current input counter
        total).output := by
  induction hn : rest.length using Nat.strongRecOn
    generalizing current rest input counter total with
  | ind m ih =>
    subst hn
    have hleft := congrArg List.length hat
    rw [List.length_drop, List.length_append] at hleft
    have hpos : current ≠ [] → 0 < current.length := List.length_pos_iff.mpr
    unfold Format.chunkLen at hlen hfull
    rcases Object.encryptLoop_cases P key objectId (hash P [protectedBytes]) counter total hinput
        hlen with
      ⟨error, -, heq⟩ | ⟨hrest, -, ciphertext, hseal, heq⟩ |
      ⟨hrest, -, ciphertext, after, hseal, hafter, heq⟩
    · rw [heq] at hok
      cases hok
    · -- the last block
      subst hrest
      rw [List.length_nil] at hleft
      have hlast : counter + 1 = max 1 ((plaintext.length + 65535) / 65536) := by
        rcases hne with hne | hzero
        · have := hpos hne
          omega
        · subst hzero
          omega
      have hblock : (plaintext.drop (counter * 65536)).take 65536 = current := by
        rw [hat, List.append_nil, List.take_of_length_le hlen]
      have hend : sealRecords P key objectId.toList protectedBytes plaintext
          (max 1 ((plaintext.length + 65535) / 65536)) (counter + 1) = .ok [] := by
        rw [sealRecords, dif_neg (by omega)]
        rfl
      rw [sealRecords_step hP (by omega) hblock (if_pos (by omega)) hseal hend, heq,
        List.append_nil]
      rfl
    · have hcurrent := hfull hrest
      have hrestpos := List.length_pos_iff.mpr hrest
      have hblock : (plaintext.drop (counter * 65536)).take 65536 = current := by
        rw [hat, List.take_left' hcurrent]
      have hnext : plaintext.drop ((counter + 1) * 65536) =
          rest.take Format.chunkLen ++ rest.drop Format.chunkLen := by
        rw [List.take_append_drop, Nat.add_mul, Nat.one_mul, ← List.drop_drop, hat,
          List.drop_left' hcurrent]
      rw [heq] at hok ⊢
      have hmore := ih (rest.drop Format.chunkLen).length ?_ hafter (List.length_take_le _ _)
        Object.length_take_of_drop (Or.inl ?_) hnext hok rfl
      · exact sealRecords_step hP (by omega) hblock (if_neg (by omega)) hseal hmore
      · rw [List.length_drop, Format.chunkLen]
        omega
      · rw [ne_eq, List.take_eq_nil_iff, Format.chunkLen]
        exact fun h => h.elim (by omega) hrest

/-- The same for a whole payload. -/
theorem sealRecords_of_encryptRecords (hP : Object.AeadCorrect P) {key objectId : Key}
    {protectedBytes plaintext : Bytes} {input : Reader} {n : ℕ}
    (hinput : input.Delivers plaintext)
    (hok : (Object.encryptRecords P key objectId (hash P [protectedBytes]) input).result = .ok n) :
    sealRecords P key objectId.toList protectedBytes plaintext
        (max 1 ((plaintext.length + 65535) / 65536)) 0 =
      .ok (Object.encryptRecords P key objectId (hash P [protectedBytes]) input).output := by
  obtain ⟨after, hafter, heq⟩ := Object.encryptRecords_eq P key objectId (hash P [protectedBytes])
    hinput
  rw [heq] at hok ⊢
  have hat : plaintext.drop (0 * 65536) =
      plaintext.take Format.chunkLen ++ plaintext.drop Format.chunkLen := by
    rw [List.take_append_drop, Nat.zero_mul, List.drop_zero]
  exact sealRecords_of_encryptLoop hP hafter (List.length_take_le _ _) Object.length_take_of_drop
    (Or.inr rfl) hat hok

/-! ## The container -/

theorem encode_envelope {protectedBytes bytes : Bytes} {mac : Key}
    (h : Format.encodeHeader protectedBytes mac = .ok bytes) (mac' : Key) :
    encodeCbor (.array [.bytes protectedBytes, .bytes mac'.toList]) =
      .ok (Cbor.array 2 ++ Cbor.bytes protectedBytes ++ Cbor.bytes mac'.toList) := by
  have hlt : protectedBytes.length < 2 ^ 64 := by
    obtain ⟨_, hlen, _⟩ := bind_eq_ok.mp h
    have hlen := failIf_eq_ok.mp hlen
    unfold Format.maxHeaderLen at hlen
    omega
  exact (canonical_envelope hlt mac' 0).1

/-- The parts of a prepared container. -/
def partsOf (material : Object.ObjectMaterial) (prepared : Object.Prepared) (plaintext : Bytes) :
    Parts where
  preamble12 := prepared.preamble.signedPrefix
  protectedMap := setAll [(.uint 1, .uint suite), (.uint 2, .bytes material.objectId.toList),
    (.uint 3, .array (prepared.header.recipients.map stanzaItem)), (.uint 4, .bytes []),
    (.uint 5, .array (prepared.header.signatures.map signatureItem))]
    (prepared.header.extensions.map extensionPair)
  cek := material.cek
  salt := material.payloadSalt.toList
  plaintext
  metadataMap := some (writtenEntries prepared.metadata)
  objectId := material.objectId.toList

/-- What is assembled from the parts of a prepared container. -/
theorem rebuild_prepared (hP : Object.AeadCorrect P) {material : Object.ObjectMaterial}
    {prepared : Object.Prepared} {input : Reader} {plaintext : Bytes} {n : ℕ}
    (h : prepared.WellFormed P material) (hinput : input.Delivers plaintext)
    (hok : (Object.writeContainer P material prepared input).result = .ok n) :
    rebuild P (partsOf material prepared plaintext) =
      .ok (Object.writeContainer P material prepared input).output := by
  obtain ⟨encoded, hencode, hseal⟩ := h.metadata
  obtain ⟨hmetadata, rfl⟩ := (Metadata.encodeWithSignature_eq_ok _ true _).mp hencode
  obtain ⟨hheader, hprotected, _⟩ := (ProtectedHeader.encodeWithSignatures_eq_ok _ true _).mp
    h.encodes
  have hsealed : aeadSeal P (derive P material.cek material.objectId.toList (label "metadata"))
      (Vector.replicate 12 0) (metadataAad material.objectId.toList)
      (prepared.metadata.bytes true) = .ok prepared.header.encryptedMetadata := by
    rw [metadataAad, label_metadata]
    exact okOr_eq_ok.mpr hseal
  -- the header as it is protected
  have hentries := setKey_header prepared.header hheader.extensions
  rw [h.objectId] at hentries
  have hencoded : encodeCbor (.map (headerEntries prepared.header)) =
      .ok prepared.protectedBytes := by
    rw [(canonical_header hheader 0).1, hprotected]
  -- its length, which the placeholder MAC settles
  have hsized := encode_envelope h.headerBytes (Vector.replicate 32 0)
  rw [Vector.toList_replicate] at hsized
  have hheaderBytes : prepared.headerBytes =
      Cbor.array 2 ++ Cbor.bytes prepared.protectedBytes ++ Cbor.bytes prepared.mac.toList := by
    obtain ⟨_, _, hbytes⟩ := bind_eq_ok.mp h.headerBytes
    obtain ⟨_, _, hbytes⟩ := bind_eq_ok.mp hbytes
    exact pure_eq_ok.mp hbytes
  have hlength : (Cbor.array 2 ++ Cbor.bytes prepared.protectedBytes ++
      Cbor.bytes (List.replicate 32 0)).length = prepared.preamble.headerLen := by
    rw [h.headerLen, hheaderBytes]
    simp [Cbor.bytes]
  have hfits : prepared.preamble.headerLen < 256 ^ 4 := by
    have hbound := prepared.preamble.headerLen_ok
    unfold Format.maxHeaderLen at hbound
    omega
  have hmac : P.hmac (derive P material.cek material.objectId.toList (label "header-mac"))
      (prepared.preamble.encode ++ prepared.protectedBytes) = prepared.mac := by
    rw [h.mac, label_headerMac, Crypto.mac, List.flatten_cons, List.flatten_singleton]
    rfl
  have hkey : derive P material.cek material.payloadSalt.toList
      (label "payload" ++ material.objectId.toList) =
        Object.payloadKey P material.cek material.objectId material.payloadSalt := by
    rw [label_payload]
    rfl
  have hrecords : sealRecords P
      (Object.payloadKey P material.cek material.objectId material.payloadSalt)
      material.objectId.toList prepared.protectedBytes plaintext
      (max 1 ((plaintext.length + 65535) / 65536)) 0 = .ok _ :=
    sealRecords_of_encryptRecords hP hinput hok
  have henvelope := encode_envelope h.headerBytes prepared.mac
  have hmetadataOf : metadataOf (partsOf material prepared plaintext) =
      .ok (some (prepared.metadata.bytes true)) := by
    simp only [metadataOf, partsOf, encode_writtenEntries hmetadata, mapErr_ok, ok_bind]
    rfl
  have hprotectedOf : protectedOf P (partsOf material prepared plaintext) =
      .ok prepared.protectedBytes := by
    refine bind_eq_ok.mpr ⟨_, hmetadataOf, ?_⟩
    refine bind_eq_ok.mpr ⟨_, hsealed, ?_⟩
    exact (congrArg (fun map => mapErr Thrown.error (encodeCbor (.map map))) hentries).trans
      (mapErr_eq_ok.mpr hencoded)
  have hpreamble : prepared.preamble.signedPrefix ++ beBytes 4 prepared.preamble.headerLen =
      prepared.preamble.encode := rfl
  refine bind_eq_ok.mpr ⟨(), failIf_neg _ (not_not.mpr prepared.preamble.length_signedPrefix), ?_⟩
  refine bind_eq_ok.mpr ⟨_, hprotectedOf, ?_⟩
  refine bind_eq_ok.mpr ⟨_, mapErr_eq_ok.mpr hsized, ?_⟩
  rw [hlength]
  refine bind_eq_ok.mpr ⟨_, writeUint_eq_ok hfits, ?_⟩
  simp only [partsOf]
  rw [hpreamble, hmac, hkey]
  refine bind_eq_ok.mpr ⟨_, hrecords, ?_⟩
  refine bind_eq_ok.mpr ⟨_, mapErr_eq_ok.mpr henvelope, ?_⟩
  rw [← hheaderBytes]
  rfl

/-! ## The signature -/

/-- The identity object of a Rust identity. -/
def identityFor (S : Sign.Primitives) (identity : Sign.SigningIdentity) : Signer where
  verifyingKey := (identity.verifyingKey S).toBytes.toList
  sign payload := (S.edSign (identity.ed25519 S) payload).toList ++
    (S.mlSign (identity.mlDsa S) payload).toList

/-- Sorting changes nothing, and every key fits its two bytes. -/
theorem extensions_sorted {extensions : List Extension} (h : Format.ValidExtensions extensions) :
    sortExtensions (extensions.map extensionPair) = extensions.map extensionPair := by
  have ⟨hasc, _⟩ := extensions_ascend h.2
  apply List.mergeSort_of_pairwise
  rw [List.pairwise_map]
  exact hasc.imp fun hlt => decide_eq_true hlt.le

theorem extensions_fit (extensions : List Extension) :
    ((extensions.map extensionPair).forM fun extension => do
      let _ ← writeUint 2 extension.1
      pure ()) = (.ok () : Except Thrown Unit) := by
  have hwrites : ∀ extension : ℕ × Bytes, (do
      let _ ← writeUint 2 extension.1
      pure () : Except Thrown Unit) = .ok () ↔ extension.1 < 256 ^ 2 := by
    intro extension
    constructor
    · intro h
      obtain ⟨_, hwritten, _⟩ := bind_eq_ok.mp h
      obtain ⟨_, hfits, _⟩ := bind_eq_ok.mp hwritten
      exact not_not.mp (failIf_eq_ok.mp hfits)
    · intro hfits
      exact bind_eq_ok.mpr ⟨_, writeUint_eq_ok hfits, rfl⟩
  refine (forM_eq_ok hwrites _).mpr ?_
  intro pair hpair
  have ⟨extension, _, heq⟩ := List.mem_map.mp hpair
  rw [← heq]
  exact extension.key.toNat_lt

/-- Both sign one transcript under one context. -/
theorem signStanza_eq (identity : Sign.SigningIdentity) (placement : Placement)
    {revision : Revision} {preamble : Format.Preamble} {header : ProtectedHeader}
    {metadata : List (Item × Item)} {base : Bytes} (plaintext : Bytes)
    (hbase : encodeCbor (.map metadata) = .ok base)
    (hrevision : revision.preamble12 = preamble.signedPrefix)
    (hext : Format.ValidExtensions header.extensions)
    (hxwing : preamble.isLegacy = true →
      ¬(header.recipients.any fun stanza => stanza.asXwing.isNone) = true) :
    signStanza P
        { identity := identityFor S identity, placement
          transcript := if preamble.isLegacy then .legacy else .current }
        revision header.objectId.toList (header.recipients.map stanzaItem)
        (header.extensions.map extensionPair) metadata plaintext =
      .ok (signatureItem (Object.runStanza P S identity preamble header base plaintext)) := by
  have hsign : ∀ context message, (identityFor S identity).sign (bindContext context message) =
      (identity.sign S context message).toList := by
    intro context message
    exact (Vector.toList_append ..).symm
  have htake : preamble.encode.take 12 = preamble.signedPrefix :=
    List.take_left' preamble.length_signedPrefix
  refine bind_eq_ok.mpr ⟨base, mapErr_eq_ok.mpr hbase, ?_⟩
  rw [extensions_sorted hext, hrevision, ← htake]
  by_cases hlegacy : preamble.isLegacy = true
  · have hcontext : Object.signingContext preamble = contextLegacy := if_pos hlegacy
    rw [if_pos hlegacy]
    rw [transcriptLegacy_eq base plaintext hlegacy (hxwing hlegacy)]
    show Except.ok (Item.array [.uint 1, _, .bytes ((identityFor S identity).sign _)]) = _
    rw [hsign, Object.runStanza, hcontext]
    rfl
  · have hcontext : Object.signingContext preamble = context10 := if_neg hlegacy
    rw [if_neg hlegacy]
    refine bind_eq_ok.mpr ⟨(), extensions_fit _, ?_⟩
    rw [transcript10_eq header base plaintext hlegacy]
    show Except.ok (Item.array [.uint 1, _, .bytes ((identityFor S identity).sign _)]) = _
    rw [hsign, Object.runStanza, hcontext]
    rfl

/-! ## Whole containers -/

/-- How the independent writer is asked to sign. It strips no signature; it writes none. -/
def signingFor (S : Sign.Primitives) : Option Object.Signer → Option Signing
  | some (identity, .public) => some { identity := identityFor S identity }
  | some (identity, .confidential) =>
    some { identity := identityFor S identity, placement := .confidential }
  | some (identity, .legacyPublic) =>
    some { identity := identityFor S identity, transcript := .legacy }
  | some (_, .stripped) => none
  | none => none

def revisionFor (signer : Option Object.Signer) (shape : Object.VectorShape) : Revision where
  minor := if signer.map Prod.snd = some .legacyPublic then legacyMinor else shape.minor
  flags := if signer.map Prod.snd = some .legacyPublic then 0
    else if signer.isSome then flagSigned else 0

/-- The options that ask for what a run of `encrypt_inner` was asked for. Other recipients' stanzas
are given as they are. -/
def optionsFor (S : Sign.Primitives) (metadata : Metadata) (filename mediaType : String)
    (before after : List RecipientStanza) (signer : Option Object.Signer)
    (shape : Object.VectorShape) : Options where
  preamble := revisionFor signer shape
  filename
  mediaType
  headerExtensions := shape.headerExtensions.map extensionPair
  metadataExtensions := metadata.extensions.map extensionPair
  stanzasBefore := (shape.leadingStanzas ++ before.map Stanza.xWing).map stanzaItem
  stanzasAfter := (after.map Stanza.xWing).map stanzaItem
  sign := signingFor S signer
  confidentialSignature :=
    if signer.map Prod.snd = some .confidential then none
    else metadata.signature.map signatureItem

/-- The signature the writer makes, if it makes one. -/
def madeFor (signer : Option Object.Signer) (stanza : Sign.SigningIdentity → SignatureStanza) :
    Option Item :=
  match signer with
  | some (_, .stripped) => none
  | some (identity, _) => some (signatureItem (stanza identity))
  | none => none

/-- Both put the same signatures in the same places. -/
theorem placeSignatures_eq {metadata metadata' : Metadata} (filename mediaType : String)
    (before after : List RecipientStanza) {signer : Option Object.Signer}
    (shape : Object.VectorShape) {stanza : Sign.SigningIdentity → SignatureStanza}
    {header : ProtectedHeader} (hslots : Object.Slots signer metadata.signature stanza header metadata')
    (hentries : metadataEntries metadata' false = metadataEntries metadata false)
    (hext : Format.ValidExtensions metadata.extensions) :
    placeSignatures (optionsFor S metadata filename mediaType before after signer shape)
        (madeFor signer stanza) (metadataEntries metadata false) =
      (writtenEntries metadata', header.signatures.map signatureItem) := by
  have hset := setKey_signature hext
  rw [writtenEntries, hentries]
  rcases signer with _ | ⟨identity, placement⟩
  · obtain ⟨hheader, hmetadata⟩ := hslots
    rw [hheader, hmetadata]
    cases hsignature : metadata.signature <;>
      simp [placeSignatures, optionsFor, signingFor, madeFor, hsignature, hset]
  · cases placement with
    | «public» | stripped | legacyPublic =>
      obtain ⟨hheader, hmetadata⟩ := hslots
      rw [hheader, hmetadata]
      cases hsignature : metadata.signature <;>
        simp [placeSignatures, optionsFor, signingFor, madeFor, hsignature, hset]
    | confidential =>
      obtain ⟨hheader, hmetadata⟩ := hslots
      rw [hheader, hmetadata]
      simp [placeSignatures, optionsFor, signingFor, madeFor, hset]

/-- The one stanza the independent writer makes itself. -/
theorem xwingStanza_eq {recipient : RecipientPublic} {material : Object.ObjectMaterial} {seed : Key}
    {wrapped : WrappedKey}
    (h : wrapCek P recipient material.cek material.objectId seed = .ok wrapped) :
    xwingStanza P recipient.key
        { objectId := material.objectId.toList, cek := material.cek
          salt := material.payloadSalt.toList, seed } xwingTag =
      .ok (stanzaItem (.xWing ⟨wrapped.encapsulation, wrapped.wrappedCek⟩)) := by
  have hinfo : label "object-key" ++ material.objectId.toList ++ suiteBytes =
      (objectContext material.objectId).1 := by
    rw [label_objectKey, List.append_assoc]
    rfl
  obtain ⟨sealed, hsealed, h⟩ := bind_eq_ok.mp h
  rw [pure_eq_ok.mp h]
  unfold xwingStanza
  rw [hinfo]
  exact bind_eq_ok.mpr ⟨sealed, okOr_eq_ok.mpr (okOr_eq_ok.mp hsealed), rfl⟩

/-- The signature that is made, under the options that ask for it. -/
theorem sign_eq {signer : Option Object.Signer} {shape : Object.VectorShape}
    {preamble : Format.Preamble} {header : ProtectedHeader} {base : Bytes}
    {entries : List (Item × Item)} {n : ℕ} (plaintext : Bytes)
    (hpreamble : Object.preambleFor signer shape n = .ok preamble)
    (hbase : encodeCbor (.map entries) = .ok base)
    (hrevision : (revisionFor signer shape).preamble12 = preamble.signedPrefix)
    (hext : Format.ValidExtensions header.extensions)
    (hxwing : signer.map Prod.snd = some .legacyPublic →
      ¬(header.recipients.any fun stanza => stanza.asXwing.isNone) = true) :
    (signingFor S signer).mapM (fun signing =>
        signStanza P signing (revisionFor signer shape) header.objectId.toList
          (header.recipients.map stanzaItem) (header.extensions.map extensionPair) entries
          plaintext) =
      .ok (madeFor signer fun identity =>
        Object.runStanza P S identity preamble header base plaintext) := by
  have ⟨hminor, hflags⟩ := Object.preambleFor_eq_ok hpreamble
  -- a signer whose flag is set does not write the legacy minor
  have hcurrent : ∀ identity placement, signer = some (identity, placement) →
      placement ≠ .legacyPublic → preamble.isLegacy = false := by
    intro identity placement hsigner hplacement
    have hnot : ¬signer.map Prod.snd = some .legacyPublic := by
      rw [hsigner]
      exact fun h => hplacement (Option.some.inj h)
    rw [if_neg hnot, hsigner] at hflags
    have hflag : preamble.flags ≠ 0 := by
      rw [hflags]
      show Format.flagSigned ≠ 0
      decide
    refine decide_eq_false fun hlegacy => ?_
    exact preamble.flags_known (Or.inr ⟨hlegacy, hflag⟩)
  rcases signer with _ | ⟨identity, placement⟩
  · rfl
  · cases placement with
    | stripped => rfl
    | «public» | confidential =>
      have hlegacy := hcurrent identity _ rfl (by decide)
      have hsigned := fun placement => signStanza_eq (P := P) (S := S) identity placement
        plaintext hbase hrevision hext fun h => absurd (hlegacy.symm.trans h) Bool.false_ne_true
      rw [hlegacy] at hsigned
      exact bind_eq_ok.mpr ⟨_, hsigned _, rfl⟩
    | legacyPublic =>
      have hlegacy : preamble.isLegacy = true := decide_eq_true (hminor.trans (if_pos rfl))
      have hsigned := signStanza_eq (P := P) (S := S) identity .public plaintext hbase hrevision
        hext fun _ => hxwing rfl
      rw [hlegacy] at hsigned
      exact bind_eq_ok.mpr ⟨_, hsigned, rfl⟩

/-- What a prepared container was asked for is what the options ask for. -/
theorem encrypt_prepared (hP : Object.AeadCorrect P) {plaintext : Bytes} {metadata : Metadata}
    {filename mediaType : String} {material : Object.ObjectMaterial} {recipient : RecipientPublic}
    {seed : Key} {wrapped : WrappedKey} (before after : List RecipientStanza)
    {signer : Option Object.Signer} {shape : Object.VectorShape} {prepared : Object.Prepared}
    {payload : Reader} {n : ℕ}
    (h : Object.Prepares P S metadata material
      (before ++ ⟨wrapped.encapsulation, wrapped.wrappedCek⟩ :: after) signer shape
      (Object.signedPlaintext signer plaintext) prepared)
    (hpayload : payload.Delivers plaintext)
    (hok : (Object.writeContainer P material prepared payload).result = .ok n)
    (hwrap : wrapCek P recipient material.cek material.objectId seed = .ok wrapped)
    (hfilename : metadata.filename = some filename)
    (hmediaType : metadata.mediaType = some mediaType)
    (hlegacy : signer.map Prod.snd = some .legacyPublic →
      ∀ stanza ∈ shape.leadingStanzas, stanza.asXwing.isSome) :
    encrypt P recipient.key plaintext
        { objectId := material.objectId.toList, cek := material.cek
          salt := material.payloadSalt.toList, seed }
        (optionsFor S metadata filename mediaType before after signer shape) =
      .ok (Object.writeContainer P material prepared payload).output := by
  obtain ⟨length, hpreamble⟩ := h.preamble
  obtain ⟨base, hbase, hslots⟩ := h.signature
  obtain ⟨hvalid, rfl⟩ := (Metadata.encodeWithSignature_eq_ok _ false _).mp hbase
  have ⟨hminor, hflags⟩ := Object.preambleFor_eq_ok hpreamble
  have hheader := ((ProtectedHeader.encodeWithSignatures_eq_ok _ true _).mp h.wellFormed.encodes).1
  have hrevision : (revisionFor signer shape).preamble12 = prepared.preamble.signedPrefix := by
    unfold revisionFor Revision.preamble12 Format.Preamble.signedPrefix
    rw [hminor, hflags]
    rfl
  have hstanzas : (shape.leadingStanzas ++ before.map Stanza.xWing).map stanzaItem ++
      [stanzaItem (.xWing ⟨wrapped.encapsulation, wrapped.wrappedCek⟩)] ++
      (after.map Stanza.xWing).map stanzaItem = prepared.header.recipients.map stanzaItem := by
    rw [h.recipients]
    simp
  have hentries : metadataEntries prepared.metadata false = metadataEntries metadata false := by
    simp [metadataEntries, metadataFields, h.filename, h.mediaType, h.metadataExtensions,
      Metadata.slot]
  have hxwing : signer.map Prod.snd = some .legacyPublic →
      ¬(prepared.header.recipients.any fun stanza => stanza.asXwing.isNone) = true := by
    intro hplacement hany
    obtain ⟨stanza, hstanza, hnone⟩ := List.any_eq_true.mp hany
    rw [h.recipients] at hstanza
    rcases List.mem_append.mp hstanza with hstanza | hstanza
    · have := hlegacy hplacement stanza hstanza
      rw [Option.isNone_iff_eq_none.mp hnone] at this
      cases this
    · obtain ⟨_, _, rfl⟩ := List.mem_map.mp hstanza
      cases hnone
  -- without a signer there is no signature to make, and nothing was read ahead for one
  have hahead : madeFor signer (fun identity => Object.runStanza P S identity prepared.preamble
        prepared.header (metadata.bytes false) (Object.signedPlaintext signer plaintext)) =
      madeFor signer fun identity => Object.runStanza P S identity prepared.preamble
        prepared.header (metadata.bytes false) plaintext := by
    rcases signer with _ | signer <;> rfl
  have hsigned := sign_eq (P := P) (S := S) plaintext hpreamble
    (canonical_metadata hvalid 0).1 hrevision hheader.extensions hxwing
  have hplaced := placeSignatures_eq (S := S) filename mediaType before after shape hslots
    hentries hvalid.extensions
  rw [h.extensions, h.wellFormed.objectId, ← hahead] at hsigned
  have hassembled := rebuild_prepared hP h.wellFormed hpayload hok
  rw [partsOf, ← hrevision, h.extensions] at hassembled
  refine bind_eq_ok.mpr ⟨[stanzaItem (.xWing ⟨wrapped.encapsulation, wrapped.wrappedCek⟩)],
    bind_eq_ok.mpr ⟨_, xwingStanza_eq hwrap, rfl⟩, ?_⟩
  simp only [optionsFor] at hplaced ⊢
  rw [hstanzas, setAll_metadata hfilename hmediaType hvalid.extensions]
  refine bind_eq_ok.mpr ⟨_, hsigned, ?_⟩
  rw [hplaced]
  exact hassembled

/-- **One format, two writers.** Whatever `encrypt_inner` writes, in whatever schedule its input
arrives and whoever signs it where, the independent writer writes byte for byte when it is asked
for the same: the one recipient whose stanza it wraps itself may stand anywhere among the others.
Its metadata always has both names, and a legacy container holds X-Wing stanzas only. -/
theorem writers_agree (hP : Object.AeadCorrect P) {input : Reader} {plaintext : Bytes}
    {metadata : Metadata} {filename mediaType : String} {material : Object.ObjectMaterial}
    {recipient : RecipientPublic} {seed : Key} {wrapped : WrappedKey}
    {before after : List RecipientStanza} {signer : Option Object.Signer}
    {shape : Object.VectorShape} {n : ℕ} (hinput : input.Delivers plaintext)
    (hwrap : wrapCek P recipient material.cek material.objectId seed = .ok wrapped)
    (hfilename : metadata.filename = some filename)
    (hmediaType : metadata.mediaType = some mediaType)
    (hlegacy : signer.map Prod.snd = some .legacyPublic →
      ∀ stanza ∈ shape.leadingStanzas, stanza.asXwing.isSome)
    (hok : (Object.encryptInner P S input metadata material
      (before ++ ⟨wrapped.encapsulation, wrapped.wrappedCek⟩ :: after) signer shape).result =
        .ok n) :
    encrypt P recipient.key plaintext
        { objectId := material.objectId.toList, cek := material.cek
          salt := material.payloadSalt.toList, seed }
        (optionsFor S metadata filename mediaType before after signer shape) =
      .ok (Object.encryptInner P S input metadata material
        (before ++ ⟨wrapped.encapsulation, wrapped.wrappedCek⟩ :: after) signer shape).output := by
  obtain ⟨prepared, payload, hprepare, hpayload, hrun⟩ := Object.encryptInner_eq_ok hinput hok
  rw [hrun] at hok ⊢
  exact encrypt_prepared hP _ _ (Object.prepare_eq_ok hprepare) hpayload hok hwrap hfilename hmediaType
    hlegacy

/-- Metadata under the names the independent writer has for a call without options. -/
def sampleNames : Metadata where
  filename := some "node.txt"
  mediaType := some "text/plain"

theorem sampleNames_valid : sampleNames.Valid true where
  extensions := ⟨Nat.zero_le _, trivial⟩
  filename := by
    intro s hs
    rw [← Option.some.inj hs]
    decide
  mediaType := by
    intro s hs
    rw [← Option.some.inj hs]
    decide
  signature := by simp [Metadata.slot, sampleNames]

theorem sampleNames_limits : Object.WithinLimits sampleNames
    [Object.toyStanza Object.sampleSecret Object.sampleMaterial] Object.sampleShape where
  metadata_valid := sampleNames_valid
  metadata_len := by
    have hlen : sampleNames.encodedLen = 23 := by decide +kernel
    rw [hlen]
    decide
  recipients_ne := by simp
  recipients_le := by simp [Format.maxRecipients]
  recipients_valid := by
    intro s hs
    rw [List.mem_singleton.mp hs]
    exact Object.toyStanza_valid _ _
  leading := rfl
  minor := by decide
  extensions := Object.sampleShape_valid
  extensions_len := by decide

/-- A stanza as it comes from the wrap. -/
def wrappedOf (stanza : RecipientStanza) : WrappedKey := ⟨stanza.encapsulation, stanza.wrappedCek⟩

theorem singleton_wrappedOf (stanza : RecipientStanza) :
    [stanza] = [] ++ (⟨(wrappedOf stanza).encapsulation, (wrappedOf stanza).wrappedCek⟩ :
      RecipientStanza) :: [] := rfl

theorem toy_wraps (secret : RecipientSecret) (material : Object.ObjectMaterial) (seed : Key) :
    wrapCek Crypto.Primitives.toy (secret.publicKey Crypto.Primitives.toy) material.cek
        material.objectId seed = .ok (wrappedOf (Object.toyStanza secret material)) := by
  simp only [Object.toy_wrapCek, wrappedOf, Object.toyStanza, RecipientSecret.publicKey,
    Object.toy_xwingPublic]

theorem toy_unwraps (secret : RecipientSecret) (material : Object.ObjectMaterial) (seed : Key)
    (wrapped : WrappedKey)
    (h : wrapCek Crypto.Primitives.toy (secret.publicKey Crypto.Primitives.toy) material.cek
      material.objectId seed = .ok wrapped) :
    unwrapCek Crypto.Primitives.toy secret material.objectId wrapped.encapsulation
      wrapped.wrappedCek = .ok material.cek := by
  rw [Object.toy_wrapCek] at h
  rw [← Except.ok.inj h]
  simp only [Object.toy_unwrapCek]

/-- A confidentially signed run under a later minor, with a header extension. -/
theorem writers_agree_later_minor :
    encrypt Crypto.Primitives.toy (Object.sampleSecret.publicKey Crypto.Primitives.toy).key [1, 2, 3]
        { objectId := Object.sampleMaterial.objectId.toList, cek := Object.sampleMaterial.cek
          salt := Object.sampleMaterial.payloadSalt.toList, seed := Object.sampleSeed }
        (optionsFor Sign.Primitives.toy sampleNames "node.txt" "text/plain" [] []
          (some (Object.sampleIdentity, .confidential)) Object.sampleShape) =
      .ok (Object.encryptInner Crypto.Primitives.toy Sign.Primitives.toy (Reader.ofBytes [1, 2, 3])
        sampleNames Object.sampleMaterial
        [Object.toyStanza Object.sampleSecret Object.sampleMaterial]
        (some (Object.sampleIdentity, .confidential)) Object.sampleShape).output := by
  have hok := Object.encryptInner_succeeds Sign.Primitives.toy Object.sampleMaterial
    (some (Object.sampleIdentity, .confidential)) [1, 2, 3] Object.toy_aeadCorrect
    Object.toy_neverRefuses sampleNames_limits (Reader.delivers_ofBytes [1, 2, 3]) (by decide)
  rw [singleton_wrappedOf (Object.toyStanza _ _)] at hok ⊢
  exact writers_agree Object.toy_aeadCorrect (Reader.delivers_ofBytes [1, 2, 3])
    (toy_wraps Object.sampleSecret Object.sampleMaterial Object.sampleSeed) rfl rfl
    (fun h => by cases h) hok

/-- **The independent implementation opens what it writes.** For every plaintext up to the limit of
a signed run and every metadata within limits, signed or not, whatever its header extensions and
its minor: the container it writes for a recipient is opened by its own reader and by the Rust one,
with the plaintext, the metadata and the signer that went in. -/
theorem independent_round_trip {decodeAllSync : Bytes → Except String (List Item)}
    (hP : Object.AeadCorrect P) (hseal : Object.NeverRefuses P) (hS : S.Correct)
    (hdecodes : Decodes decodeAllSync) (plaintext : Bytes) {metadata : Metadata}
    {filename mediaType : String} {material : Object.ObjectMaterial} {secret : RecipientSecret}
    {seed : Key} {wrapped : WrappedKey} (signer : Option Object.Signer)
    {shape : Object.VectorShape}
    (hwrap : wrapCek P (secret.publicKey P) material.cek material.objectId seed = .ok wrapped)
    (hopens : ∀ seed wrapped,
      wrapCek P (secret.publicKey P) material.cek material.objectId seed = .ok wrapped →
        unwrapCek P secret material.objectId wrapped.encapsulation wrapped.wrappedCek =
          .ok material.cek)
    (hfilename : metadata.filename = some filename)
    (hmediaType : metadata.mediaType = some mediaType) (hclean : metadata.signature = none)
    (hlimits : Object.WithinLimits metadata [⟨wrapped.encapsulation, wrapped.wrappedCek⟩] shape)
    (hfits : plaintext.length ≤ Object.maxSignedInput)
    (hplacement : Object.Signer.Production signer) :
    ∃ container read object,
      encrypt P (secret.publicKey P).key plaintext
          { objectId := material.objectId.toList, cek := material.cek
            salt := material.payloadSalt.toList, seed }
          (optionsFor S metadata filename mediaType [] [] signer shape) = .ok container ∧
      decrypt P S decodeAllSync container secret.seed = .ok read ∧
      read.plaintext = plaintext ∧
      get read.metadata 1 = some (.text filename) ∧ get read.metadata 2 = some (.text mediaType) ∧
      read.metadataExtensions = metadata.extensions.map extensionPair ∧
      read.signer = (signer.map fun s => (s.1.verifyingKey S).toBytes.toList) ∧
      (Object.decryptToStaging P S container secret).result = .ok object ∧
      Agrees read (Object.decryptToStaging P S container secret).staging object := by
  have hinput := Reader.delivers_ofBytes plaintext
  have hok := Object.encryptInner_succeeds S material signer plaintext hP hseal hlimits hinput hfits
  have hwraps : Object.wrapRecipients P material [(secret.publicKey P, seed)] =
      .ok [⟨wrapped.encapsulation, wrapped.wrappedCek⟩] := by
    simp only [Object.wrapRecipients, List.mapM_cons, List.mapM_nil, hwrap, mapErr_ok, ok_bind]
    rfl
  have hpke : ∀ prepared, Object.prepare P S metadata material
      [⟨wrapped.encapsulation, wrapped.wrappedCek⟩] signer shape
      (Object.signedPlaintext signer plaintext) = .ok prepared →
        Object.HpkeSeparates P secret material [(secret.publicKey P, seed)] prepared := by
    intro prepared _
    refine ⟨hopens, ?_⟩
    intro recipient seed' hmem hne
    exact absurd (congrArg Prod.fst (List.mem_singleton.mp hmem)) hne
  obtain ⟨hstaging, haccepted, -⟩ := Object.decryptToStaging_encryptInner hP hS hinput hwraps
    hplacement hlimits.minor.2 (by rw [hlimits.leading]; simp) hok (by simp) hpke
  obtain ⟨object, hobject, hname, htype, hext, hlen, hsigner, -⟩ := haccepted (Or.inl hclean)
  obtain ⟨prepared, payload, hprepare, hpayload, hrun⟩ := Object.encryptInner_eq_ok hinput hok
  rw [hrun] at hok hstaging hobject
  have hwritten :=
    encrypt_prepared hP [] [] (Object.prepare_eq_ok hprepare) hpayload hok hwrap hfilename hmediaType
    (by rw [hlimits.leading]; simp)
  obtain ⟨read, hread⟩ := decrypt_of_staged hdecodes hobject
  obtain ⟨object', hobject', hagrees⟩ := staged_of_decrypt hdecodes hread
  rw [hobject] at hobject'
  obtain rfl := Except.ok.inj hobject'
  refine ⟨_, read, object, hwritten, hread, ?_, ?_, ?_, ?_, ?_, hobject, hagrees⟩
  · rw [hagrees.plaintext, hstaging]
  · rw [hagrees.filename, hname, hfilename]
    rfl
  · rw [hagrees.mediaType, htype, hmediaType]
    rfl
  · rw [hagrees.extensions, hext]
  · rw [hagrees.signer, hsigner, Option.map_map]
    rfl

/-- The same run, read back by both. -/
theorem independent_round_trip_later_minor :
    ∃ container read object,
      encrypt Crypto.Primitives.toy (Object.sampleSecret.publicKey Crypto.Primitives.toy).key
          [1, 2, 3]
          { objectId := Object.sampleMaterial.objectId.toList, cek := Object.sampleMaterial.cek
            salt := Object.sampleMaterial.payloadSalt.toList, seed := Object.sampleSeed }
          (optionsFor Sign.Primitives.toy sampleNames "node.txt" "text/plain" [] []
            (some (Object.sampleIdentity, .confidential)) Object.sampleShape) = .ok container ∧
      decrypt Crypto.Primitives.toy Sign.Primitives.toy decodeShortest container
        Object.sampleSecret.seed = .ok read ∧
      read.plaintext = [1, 2, 3] ∧
      (Object.decryptToStaging Crypto.Primitives.toy Sign.Primitives.toy container
        Object.sampleSecret).result = .ok object := by
  have hlimits := sampleNames_limits
  rw [singleton_wrappedOf (Object.toyStanza _ _), List.nil_append] at hlimits
  obtain ⟨container, read, object, hwritten, hread, hplaintext, -, -, -, -, hobject, -⟩ :=
    independent_round_trip Object.toy_aeadCorrect Object.toy_neverRefuses
      Sign.Primitives.toy_correct decodeShortest_decodes [1, 2, 3]
      (some (Object.sampleIdentity, .confidential))
      (toy_wraps Object.sampleSecret Object.sampleMaterial Object.sampleSeed) (toy_unwraps _ _)
      rfl rfl rfl hlimits (by decide) (Object.production_some (Or.inr rfl))
  exact ⟨container, read, object, hwritten, hread, hplaintext, hobject⟩

end

end HideProtocol.Conformance
