import HideProtocol.Conformance.HeaderAgreement
import HideProtocol.Object.RoundTrip

/-!
# Two readers, one format

The Rust reader streams a container and stages its plaintext; the independent reader holds the
whole container and the whole plaintext in memory. They read the same records, check the same
signature, and so accept the same containers with the same contents.
-/

namespace HideProtocol.Conformance

open Lib Crypto
open Cbor (Item)
open Format (ProtectedHeader Metadata Stanza Extension SignatureStanza)

section
variable {P : Crypto.Primitives} {S : Sign.Primitives}
  {decodeAllSync : Bytes → Except String (List Item)}

/-! ## The records -/

/-- What the independent reader demands of the record at `offset`. -/
structure RecordAt (container : Bytes) (offset counter : ℕ) (kind : UInt8) (length : ℕ) : Prop where
  head : offset + 5 ≤ container.length
  kind_eq : kind = container.getD offset 0
  length_eq : length = ofBe ((container.drop (offset + 1)).take 4)
  bounds : length ≥ 16 ∧ length ≤ 65552
  admitted : if kind = 1 then length = 65552 else kind = 2 ∧ (length > 16 ∨ counter = 0)
  body : offset + 5 + length ≤ container.length

theorem readPayload_iff {n : ℕ} {input : Bytes} {read : Bytes × Bytes} :
    Object.readPayload n input = .ok read ↔
      n ≤ input.length ∧ read = (input.take n, input.drop n) := by
  unfold Object.readPayload
  by_cases h : input.length < n
  · rw [if_pos h]
    constructor
    · intro herror
      cases herror
    · rintro ⟨hle, _⟩
      omega
  · rw [if_neg h, Except.ok.injEq, eq_comm]
    exact ⟨fun hread => ⟨not_lt.mp h, hread⟩, fun hread => hread.2⟩

/-- The two ways to say which kinds and lengths go together. -/
theorem recordLength_iff {kind : UInt8} {length counter plaintextLen : ℕ} :
    Object.recordLength kind length counter = .ok plaintextLen ↔
      (length ≥ 16 ∧ length ≤ 65552) ∧
        (if kind = 1 then length = 65552 else kind = 2 ∧ (length > 16 ∨ counter = 0)) ∧
        plaintextLen = length - 16 := by
  rw [Object.recordLength_eq_ok]
  unfold Object.data Object.final Format.chunkLen Format.tagLen
  by_cases hdata : kind = 1
  · have hfinal : kind ≠ 2 := by
      rw [hdata]
      decide
    simp only [hdata, if_true, true_and]
    have hne : ¬(1 : UInt8) = 2 := by decide
    simp only [hne, false_and, or_false]
    omega
  · simp only [hdata, if_false, false_and, false_or]
    by_cases hfinal : kind = 2
    · simp only [hfinal, true_and]
      omega
    · simp [hfinal]

theorem readRecord_at {container : Bytes} {offset counter : ℕ} {record : Object.RecordRead} :
    Object.readRecord counter (container.drop offset) = .ok record ↔
      ∃ kind length, RecordAt container offset counter kind length ∧
        record = ⟨kind, length - 16, (container.drop (offset + 5)).take length,
          container.drop (offset + 5 + length)⟩ := by
  have hkind : ((container.drop offset).take 5).headD 0 = container.getD offset 0 := by
    rw [List.headD_eq_head?_getD, List.head?_take, List.head?_drop, if_neg (by omega),
      List.getD_eq_getElem?_getD]
  have hfield : ((container.drop offset).take 5).tail = (container.drop (offset + 1)).take 4 := by
    rw [← List.tail_drop]
    cases container.drop offset <;> rfl
  have hhead : 5 ≤ (container.drop offset).length ↔ offset + 5 ≤ container.length := by
    rw [List.length_drop]
    omega
  unfold Object.readRecord
  constructor
  · intro h
    obtain ⟨read, hread, h⟩ := bind_eq_ok.mp h
    have ⟨hlen, heq⟩ := readPayload_iff.mp hread
    subst heq
    obtain ⟨plaintextLen, hlength, h⟩ := bind_eq_ok.mp h
    rw [hkind, hfield] at hlength
    have ⟨hbounds, hadmitted, hplain⟩ := recordLength_iff.mp hlength
    obtain ⟨body, hbody, h⟩ := bind_eq_ok.mp h
    have ⟨hbodyLen, heq⟩ := readPayload_iff.mp hbody
    subst heq
    rw [List.drop_drop, hfield, List.length_drop] at hbodyLen
    refine ⟨_, _, ⟨hhead.mp hlen, rfl, rfl, hbounds, hadmitted, by omega⟩, ?_⟩
    have hrecord := pure_eq_ok.mp h
    simp only [hkind, hfield, List.drop_drop] at hrecord
    rw [hrecord, hplain]
  · rintro ⟨kind, length, hat, rfl⟩
    have hkind' := hkind.trans hat.kind_eq.symm
    have hlength' := congrArg ofBe hfield
    rw [← hat.length_eq] at hlength'
    refine bind_eq_ok.mpr ⟨_, readPayload_iff.mpr ⟨hhead.mpr hat.head, rfl⟩, ?_⟩
    refine bind_eq_ok.mpr ⟨length - 16, ?_, ?_⟩
    · simp only [hkind', hlength']
      exact recordLength_iff.mpr ⟨hat.bounds, hat.admitted, rfl⟩
    · refine bind_eq_ok.mpr ⟨((container.drop (offset + 5)).take length,
        container.drop (offset + 5 + length)), readPayload_iff.mpr ⟨?_, ?_⟩, ?_⟩
      · simp only [hlength', List.drop_drop, List.length_drop]
        have := hat.body
        omega
      · simp only [hlength', List.drop_drop]
      · simp only [hkind']
        rfl

section
variable {key objectId : Key} {protectedBytes container : Bytes}

/-- The record at `offset` opens to `chunk`. -/
def OpensAt (P : Crypto.Primitives) (key objectId : Key) (protectedBytes container : Bytes)
    (offset counter : ℕ) (kind : UInt8) (length : ℕ) (chunk : Bytes) : Prop :=
  P.aeadOpen key (Object.nonce counter kind)
    (Object.chunkAad objectId (hash P [protectedBytes]) counter kind (length - 16))
    ((container.drop (offset + 5)).take length) = some chunk

theorem chunkAad_eq (counter : ℕ) (kind : UInt8) (length : ℕ) :
    chunkAad P objectId.toList protectedBytes counter kind length =
      Object.chunkAad objectId (hash P [protectedBytes]) counter kind length := by
  rw [chunkAad, label_chunk, Crypto.hash, List.flatten_singleton]
  rfl

/-- One turn of the independent reader's loop. -/
theorem readRecords_step {offset counter : ℕ} {chunks : List Bytes} {plaintext : Bytes} :
    readRecords P key objectId.toList protectedBytes container offset counter chunks =
        .ok plaintext ↔
      counter < 2 ^ 32 ∧ ∃ kind length chunk, RecordAt container offset counter kind length ∧
        OpensAt P key objectId protectedBytes container offset counter kind length chunk ∧
        ((kind = 2 ∧ offset + 5 + length = container.length ∧
            plaintext = (chunks ++ [chunk]).flatten) ∨
          (kind ≠ 2 ∧ readRecords P key objectId.toList protectedBytes container
            (offset + 5 + length) (counter + 1) (chunks ++ [chunk]) = .ok plaintext)) := by
  rw [readRecords]
  by_cases hcounter : counter < 2 ^ 32
  · rw [dif_pos hcounter]
    constructor
    · intro h
      obtain ⟨_, hhead, h⟩ := bind_eq_ok.mp h
      obtain ⟨_, hbounds, h⟩ := bind_eq_ok.mp h
      obtain ⟨_, hadmitted, h⟩ := bind_eq_ok.mp h
      obtain ⟨_, hbody, h⟩ := bind_eq_ok.mp h
      obtain ⟨chunk, hopen, h⟩ := bind_eq_ok.mp h
      rw [chunkAad_eq] at hopen
      refine ⟨hcounter, _, _, chunk, ⟨need_eq_ok.mp hhead, rfl, rfl, need_eq_ok.mp hbounds,
        need_eq_ok.mp hadmitted, need_eq_ok.mp hbody⟩, (aeadOpen_eq_ok.mp hopen).2, ?_⟩
      split_ifs at h with hkind
      · exact .inr ⟨hkind, h⟩
      · obtain ⟨_, hend, h⟩ := bind_eq_ok.mp h
        exact .inl ⟨not_not.mp hkind, need_eq_ok.mp hend, pure_eq_ok.mp h⟩
    · rintro ⟨_, kind, length, chunk, hat, hopen, h⟩
      have hlength : tagLen ≤ ((container.drop (offset + 5)).take length).length := by
        have hbody := hat.body
        have hbounds := hat.bounds
        rw [List.length_take, List.length_drop]
        unfold tagLen
        omega
      have hopened := aeadOpen_eq_ok.mpr ⟨hlength, hopen⟩
      rw [← chunkAad_eq] at hopened
      refine bind_eq_ok.mpr ⟨(), need_pos hat.head, ?_⟩
      simp only [← hat.kind_eq, ← hat.length_eq]
      refine bind_eq_ok.mpr ⟨(), need_pos hat.bounds, ?_⟩
      refine bind_eq_ok.mpr ⟨(), need_pos hat.admitted, ?_⟩
      refine bind_eq_ok.mpr ⟨(), need_pos hat.body, ?_⟩
      refine bind_eq_ok.mpr ⟨chunk, hopened, ?_⟩
      rcases h with ⟨hkind, hend, rfl⟩ | ⟨hkind, h⟩
      · rw [if_neg (not_not.mpr hkind)]
        exact bind_eq_ok.mpr ⟨(), need_pos hend, rfl⟩
      · rw [if_pos hkind]
        exact h
  · -- the counter is used up
    rw [dif_neg hcounter]
    constructor
    · intro h
      cases h
    · rintro ⟨hlt, _⟩
      exact absurd hlt hcounter

/-- One turn of the Rust reader's loop, on a record that opens. -/
theorem decryptLoop_at {offset counter : ℕ} {kind : UInt8} {length : ℕ} {chunk : Bytes}
    (total : ℕ) (hcounter : counter < 2 ^ 32) (hat : RecordAt container offset counter kind length)
    (hopen : OpensAt P key objectId protectedBytes container offset counter kind length chunk) :
    Object.decryptLoop P key objectId (hash P [protectedBytes]) (container.drop offset) counter
        total =
      Object.afterRecord P key objectId (hash P [protectedBytes]) kind chunk
        (container.drop (offset + 5 + length)) counter total := by
  have hread := readRecord_at.mpr ⟨kind, length, hat, rfl⟩
  have hlength : ¬((container.drop (offset + 5)).take length).length < tagLength := by
    have hbody := hat.body
    have hbounds := hat.bounds
    rw [List.length_take, List.length_drop]
    unfold tagLength
    omega
  have hopened : openInPlace P key (Object.nonce counter kind)
      (Object.chunkAad objectId (hash P [protectedBytes]) counter kind (length - 16))
      ((container.drop (offset + 5)).take length) = .ok chunk :=
    bind_eq_ok.mpr ⟨(), failIf_neg _ hlength, okOr_eq_ok.mpr hopen⟩
  rw [Object.decryptLoop, dif_pos (by unfold Object.maxChunks; omega), hread]
  simp only [hopened]
  rfl

/-- The Rust reader only goes on past a record that opens. -/
theorem opensAt_of_decryptLoop {offset counter total n : ℕ}
    (hok : (Object.decryptLoop P key objectId (hash P [protectedBytes]) (container.drop offset)
      counter total).result = .ok n) :
    counter < 2 ^ 32 ∧ ∃ kind length chunk, RecordAt container offset counter kind length ∧
      OpensAt P key objectId protectedBytes container offset counter kind length chunk := by
  rw [Object.decryptLoop] at hok
  by_cases hcounter : counter < Object.maxChunks
  · rw [dif_pos hcounter] at hok
    cases hread : Object.readRecord counter (container.drop offset) with
    | error error =>
      rw [hread] at hok
      cases hok
    | ok record =>
      obtain ⟨kind, length, hat, hrecord⟩ := readRecord_at.mp hread
      rw [hread, hrecord] at hok
      simp only [] at hok
      cases hopened : openInPlace P key (Object.nonce counter kind)
          (Object.chunkAad objectId (hash P [protectedBytes]) counter kind (length - 16))
          ((container.drop (offset + 5)).take length) with
      | error error =>
        rw [hopened] at hok
        cases hok
      | ok chunk =>
        obtain ⟨_, _, hopen⟩ := bind_eq_ok.mp hopened
        exact ⟨hcounter, kind, length, chunk, hat, okOr_eq_ok.mp hopen⟩
  · rw [dif_neg hcounter] at hok
    cases hok

/-- The chunks so far and what the Rust reader stages from here on are the plaintext. -/
theorem readRecords_eq_ok {offset counter : ℕ} (total : ℕ) {chunks : List Bytes}
    {plaintext : Bytes} :
    readRecords P key objectId.toList protectedBytes container offset counter chunks =
        .ok plaintext ↔
      ∃ n, (Object.decryptLoop P key objectId (hash P [protectedBytes])
          (container.drop offset) counter total).result = .ok n ∧
        plaintext = chunks.flatten ++ (Object.decryptLoop P key objectId (hash P [protectedBytes])
          (container.drop offset) counter total).staging := by
  -- on the counter values that are left
  induction hleft : 2 ^ 32 - counter generalizing offset counter total chunks with
  | zero =>
    constructor
    · intro h
      have := (readRecords_step.mp h).1
      omega
    · rintro ⟨n, hok, _⟩
      have := (opensAt_of_decryptLoop hok).1
      omega
  | succ left ih =>
    constructor
    · intro h
      have ⟨hcounter, kind, length, chunk, hat, hopen, hcases⟩ := readRecords_step.mp h
      rw [decryptLoop_at total hcounter hat hopen]
      unfold Object.afterRecord
      rcases hcases with ⟨hkind, hend, hplaintext⟩ | ⟨hkind, hnext⟩
      · have hkind : kind = Object.final := hkind
        have hrest : ¬container.drop (offset + 5 + length) ≠ [] := by
          rw [not_not, hend, List.drop_length]
        rw [if_pos hkind, if_neg hrest, hplaintext, List.flatten_append, List.flatten_singleton]
        exact ⟨_, rfl, rfl⟩
      · have hkind : kind ≠ Object.final := hkind
        have ⟨n, hok, hplaintext⟩ := (ih (total + chunk.length) (by omega)).mp hnext
        rw [if_neg hkind, hplaintext, List.flatten_append, List.flatten_singleton,
          List.append_assoc]
        exact ⟨n, hok, rfl⟩
    · rintro ⟨n, hok, hplaintext⟩
      have ⟨hcounter, kind, length, chunk, hat, hopen⟩ := opensAt_of_decryptLoop hok
      rw [decryptLoop_at total hcounter hat hopen] at hok hplaintext
      unfold Object.afterRecord at hok hplaintext
      refine readRecords_step.mpr ⟨hcounter, kind, length, chunk, hat, hopen, ?_⟩
      by_cases hkind : kind = Object.final
      · rw [if_pos hkind] at hok hplaintext
        by_cases hrest : container.drop (offset + 5 + length) ≠ []
        · rw [if_pos hrest] at hok
          cases hok
        · rw [if_neg hrest] at hplaintext
          have hend := List.drop_eq_nil_iff.mp (not_not.mp hrest)
          refine .inl ⟨hkind, le_antisymm hat.body hend, ?_⟩
          rw [hplaintext, List.flatten_append, List.flatten_singleton]
      · rw [if_neg hkind] at hok hplaintext
        refine .inr ⟨hkind, (ih (total + chunk.length) (by omega)).mpr ⟨n, hok, ?_⟩⟩
        rw [hplaintext, List.flatten_append, List.flatten_singleton, List.append_assoc]

end

/-! ## The signature -/

theorem transcriptStanza_eq (stanza : Stanza) :
    transcriptStanza (stanzaItem stanza) = Object.transcriptStanza stanza := by
  show uint64 stanza.tag.toNat ++ uint64 (stanza.fields.map Item.bytes).length ++
      (stanza.fields.map Item.bytes).flatMap
        (fun field => uint64 (buffer field).length ++ buffer field) = _
  rw [List.length_map, List.flatMap_map, List.append_assoc]
  rfl

theorem transcript10_eq {preamble : Format.Preamble} (header : ProtectedHeader)
    (metadataBase plaintext : Bytes) (hlegacy : ¬preamble.isLegacy = true) :
    transcript10 P (preamble.encode.take 12) header.objectId.toList
        (header.recipients.map stanzaItem) (header.extensions.map extensionPair) metadataBase
        plaintext =
      Object.transcript preamble header metadataBase (hash P [plaintext]) plaintext.length := by
  have htake : preamble.encode.take 12 = preamble.signedPrefix :=
    List.take_left' preamble.length_signedPrefix
  have hstanzas : (header.recipients.map stanzaItem).flatMap transcriptStanza =
      header.recipients.flatMap Object.transcriptStanza := by
    rw [List.flatMap_map]
    exact congrArg (List.flatMap · header.recipients) (funext transcriptStanza_eq)
  have hextensions : ∀ write : ℕ × Bytes → Bytes,
      (∀ extension, write (extensionPair extension) = Object.transcriptExtension extension) →
      (header.extensions.map extensionPair).flatMap write =
        header.extensions.flatMap Object.transcriptExtension := by
    intro write hwrite
    rw [List.flatMap_map]
    exact congrArg (List.flatMap · header.extensions) (funext hwrite)
  rw [Object.transcript, if_neg hlegacy, transcript10, htake, hstanzas,
    hextensions _ fun extension => List.append_assoc _ _ _, List.length_map, List.length_map,
    Crypto.hash, List.flatten_singleton]
  simp only [List.append_assoc, lenPrefixed]
  rfl

/-- A legacy container has X-Wing stanzas only, so the reader that takes every stanza and the one
that takes the X-Wing ones take the same. -/
theorem transcriptLegacy_eq {preamble : Format.Preamble} {header : ProtectedHeader}
    (metadataBase plaintext : Bytes) (hlegacy : preamble.isLegacy = true)
    (hxwing : ¬(header.recipients.any fun stanza => stanza.asXwing.isNone) = true) :
    transcriptLegacy P header.objectId.toList (header.recipients.map stanzaItem) metadataBase
        plaintext =
      Object.transcript preamble header metadataBase (hash P [plaintext]) plaintext.length := by
  have hstanzas : ∀ recipients : List Stanza,
      ¬(recipients.any fun stanza => stanza.asXwing.isNone) = true →
      (recipients.map stanzaItem).flatMap
          (fun stanza => ((elements stanza).drop 1).flatMap buffer) =
        (recipients.filterMap Stanza.asXwing).flatMap
          (fun stanza => stanza.encapsulation ++ stanza.wrappedCek) := by
    intro recipients hall
    induction recipients with
    | nil => rfl
    | cons stanza recipients ih =>
      rw [List.any_cons, Bool.or_eq_true, not_or] at hall
      cases stanza with
      | unknown stanza => exact absurd rfl hall.1
      | xWing stanza =>
        rw [List.map_cons, List.flatMap_cons, ih hall.2,
          List.filterMap_cons_some (rfl : (Stanza.xWing stanza).asXwing = some stanza),
          List.flatMap_cons]
        congr 1
        show stanza.encapsulation ++ (stanza.wrappedCek ++ []) = _
        rw [List.append_nil]
  rw [Object.transcript, if_pos hlegacy, Object.legacyTranscript, transcriptLegacy,
    hstanzas _ hxwing, List.length_map, Crypto.hash, List.flatten_singleton]
  simp only [List.append_assoc, lenPrefixed]
  rfl

section
variable {preamble : Format.Preamble} {header : ProtectedHeader} {metadata : Metadata}
  {plaintext : Bytes}

theorem valid_without_signature (h : metadata.Valid true) : metadata.Valid false where
  extensions := h.extensions
  filename := h.filename
  mediaType := h.mediaType
  signature := nofun

/-- The signature of `stanza` covers the container, under the key that it names. -/
def Covers (P : Crypto.Primitives) (S : Sign.Primitives) (preamble : Format.Preamble)
    (header : ProtectedHeader) (metadata : Metadata) (plaintext : Bytes) (stanza : SignatureStanza)
    (identity : Sign.VerifyingIdentity S) : Prop :=
  Sign.VerifyingIdentity.fromBytes S stanza.verifyingKey = .ok identity ∧
    identity.verify (Object.signingContext preamble)
      (Object.transcript preamble header (metadata.bytes false) (hash P [plaintext])
        plaintext.length) stanza.signature = .ok ()

theorem verifySigner_eq_ok (hmetadata : metadata.Valid true)
    (hlegacy : ¬(preamble.isLegacy ∧ (header.extensions ≠ [] ∨
      header.recipients.any fun stanza => stanza.asXwing.isNone)))
    {stanza : SignatureStanza} {key : Bytes} :
    verifySigner P S (preambleView preamble) (headerView header) (metadataEntries metadata true)
        plaintext (signatureItem stanza) = .ok key ↔
      (∃ identity, Covers P S preamble header metadata plaintext stanza identity) ∧
        key = stanza.verifyingKey := by
  have hbase := (canonical_metadata (valid_without_signature hmetadata) 0).1
  have hmessage : (if (preambleView preamble).legacy then
        transcriptLegacy P (headerView header).objectId (headerView header).stanzas
          (metadata.bytes false) plaintext
      else transcript10 P ((preambleView preamble).bytes.take 12) (headerView header).objectId
        (headerView header).stanzas (headerView header).extensions (metadata.bytes false)
        plaintext) =
      Object.transcript preamble header (metadata.bytes false) (hash P [plaintext])
        plaintext.length := by
    by_cases hpreamble : preamble.isLegacy = true
    · refine (if_pos hpreamble).trans ?_
      exact transcriptLegacy_eq _ _ hpreamble fun hbad => hlegacy ⟨hpreamble, .inr hbad⟩
    · refine (if_neg hpreamble).trans ?_
      exact transcript10_eq header _ _ hpreamble
  have hcontext : (if (preambleView preamble).legacy then contextLegacy else context10) =
      Object.signingContext preamble := rfl
  unfold verifySigner
  rw [filter_metadataEntries hmetadata, hbase, mapErr_ok, ok_bind, hmessage, hcontext]
  constructor
  · intro h
    obtain ⟨_, hhybrid, h⟩ := bind_eq_ok.mp h
    exact ⟨verifyHybrid_iff.mp (need_eq_ok.mp hhybrid), pure_eq_ok.mp h⟩
  · rintro ⟨hcovers, rfl⟩
    exact bind_eq_ok.mpr ⟨(), need_pos (verifyHybrid_iff.mpr hcovers), rfl⟩

/-- The one signature of a container, in one of its two places. -/
def OnlyStanza (header : ProtectedHeader) (metadata : Metadata) (stanza : SignatureStanza) : Prop :=
  (header.signatures.head? = some stanza ∧ metadata.signature = none) ∨
    (header.signatures.head? = none ∧ metadata.signature = some stanza)

/-- No signature in either place. -/
def NoStanza (header : ProtectedHeader) (metadata : Metadata) : Prop :=
  header.signatures.head? = none ∧ metadata.signature = none

theorem chooseStanza_eq_ok {signed : Bool} {choice : Option Item} :
    chooseStanza signed (header.signatures.map signatureItem)
        (metadata.signature.map signatureItem) = .ok choice ↔
      (NoStanza header metadata ∧ signed = false ∧ choice = none) ∨
        ∃ stanza, OnlyStanza header metadata stanza ∧ signed = true ∧
          choice = some (signatureItem stanza) := by
  unfold NoStanza OnlyStanza
  cases header.signatures with
  | nil =>
    cases metadata.signature with
    | none => cases signed <;> simp [chooseStanza, need, failIf, eq_comm]
    | some stanza => cases signed <;> simp [chooseStanza, need, failIf, eq_comm]
  | cons stanza rest =>
    cases metadata.signature with
    | none => cases signed <;> simp [chooseStanza, need, failIf, eq_comm]
    | some stanza' => cases signed <;> simp [chooseStanza, need, failIf, eq_comm]

theorem verifySignature_eq_ok (hmetadata : metadata.Valid true)
    {found : Option (Sign.VerifyingIdentity S)} :
    Object.verifySignature S preamble header metadata (hash P [plaintext]) plaintext.length =
        .ok found ↔
      (NoStanza header metadata ∧ preamble.isSigned = false ∧ found = none) ∨
        ∃ stanza, OnlyStanza header metadata stanza ∧ preamble.isSigned = true ∧
          ∃ identity, Covers P S preamble header metadata plaintext stanza identity ∧
            found = some identity := by
  have hbase : metadata.signingBase = .ok (metadata.bytes false) :=
    (Metadata.encodeWithSignature_eq_ok _ _ _).mpr ⟨valid_without_signature hmetadata, rfl⟩
  have hcheck : ∀ stanza : SignatureStanza,
      (do
        failIf (!preamble.isSigned) Object.ObjectError.unexpectedSignature
        let identity ← mapErr (fun _ => Object.ObjectError.invalidSignature)
          (Sign.VerifyingIdentity.fromBytes S stanza.verifyingKey)
        let base ← mapErr Object.ObjectError.format metadata.signingBase
        let message := Object.transcript preamble header base (hash P [plaintext]) plaintext.length
        mapErr (fun _ => Object.ObjectError.invalidSignature)
          (identity.verify (Object.signingContext preamble) message stanza.signature)
        pure (some identity)) = .ok found ↔
      preamble.isSigned = true ∧ ∃ identity,
        Covers P S preamble header metadata plaintext stanza identity ∧ found = some identity := by
    intro stanza
    simp only [hbase, mapErr_ok, ok_bind, bind_eq_ok, failIf_eq_ok, mapErr_eq_ok, pure_eq_ok,
      Unique.exists_iff, PUnit.default_eq_unit, Bool.not_eq_true', Bool.not_eq_false,
      Covers, and_assoc]
  unfold Object.verifySignature NoStanza OnlyStanza
  cases header.signatures.head? with
  | none =>
    cases metadata.signature with
    | none => cases preamble.isSigned <;> simp [eq_comm]
    | some stanza =>
      refine (hcheck stanza).trans ?_
      simp
  | some stanza =>
    cases metadata.signature with
    | none =>
      refine (hcheck stanza).trans ?_
      simp
    | some stanza' => simp

theorem mapM_some_eq_ok {ε α β : Type} {f : α → Except ε β} {a : α} {found : Option β} :
    (some a).mapM f = .ok found ↔ ∃ b, f a = .ok b ∧ found = some b := by
  show some <$> f a = .ok found ↔ _
  cases f a with
  | error e =>
    constructor
    · intro h
      cases h
    · rintro ⟨b, hb, _⟩
      cases hb
  | ok b =>
    constructor
    · intro h
      exact ⟨b, rfl, (Except.ok.inj h).symm⟩
    · rintro ⟨b', hb, rfl⟩
      cases hb
      rfl

/-- Both readers name the same signer, or both name none, or both refuse. -/
theorem signer_agrees (hmetadata : metadata.Valid true)
    (hlegacy : ¬(preamble.isLegacy ∧ (header.extensions ≠ [] ∨
      header.recipients.any fun stanza => stanza.asXwing.isNone)))
    {signer : Option Bytes} :
    (∃ choice, chooseStanza preamble.isSigned (header.signatures.map signatureItem)
          (metadata.signature.map signatureItem) = .ok choice ∧
        choice.mapM (verifySigner P S (preambleView preamble) (headerView header)
          (metadataEntries metadata true) plaintext) = .ok signer) ↔
      ∃ found, Object.verifySignature S preamble header metadata (hash P [plaintext])
          plaintext.length = .ok found ∧
        signer = found.map fun identity => identity.toBytes.toList := by
  constructor
  · rintro ⟨choice, hchoice, hsigner⟩
    rcases chooseStanza_eq_ok.mp hchoice with ⟨hnone, hsigned, rfl⟩ | ⟨stanza, honly, hsigned, rfl⟩
    · refine ⟨none, (verifySignature_eq_ok hmetadata).mpr (.inl ⟨hnone, hsigned, rfl⟩), ?_⟩
      exact pure_eq_ok.mp hsigner
    · have ⟨key, hkey, hsome⟩ := mapM_some_eq_ok.mp hsigner
      have ⟨⟨identity, hcovers⟩, hstanza⟩ := (verifySigner_eq_ok hmetadata hlegacy).mp hkey
      refine ⟨some identity, (verifySignature_eq_ok hmetadata).mpr
        (.inr ⟨stanza, honly, hsigned, identity, hcovers, rfl⟩), ?_⟩
      rw [hsome, hstanza, ← Sign.VerifyingIdentity.toBytes_fromBytes hcovers.1]
      rfl
  · rintro ⟨found, hfound, rfl⟩
    rcases (verifySignature_eq_ok hmetadata).mp hfound with
      ⟨hnone, hsigned, rfl⟩ | ⟨stanza, honly, hsigned, identity, hcovers, rfl⟩
    · exact ⟨none, chooseStanza_eq_ok.mpr (.inl ⟨hnone, hsigned, rfl⟩), rfl⟩
    · refine ⟨some (signatureItem stanza),
        chooseStanza_eq_ok.mpr (.inr ⟨stanza, honly, hsigned, rfl⟩), ?_⟩
      refine mapM_some_eq_ok.mpr ⟨stanza.verifyingKey,
        (verifySigner_eq_ok hmetadata hlegacy).mpr ⟨⟨identity, hcovers⟩, rfl⟩, ?_⟩
      rw [← Sign.VerifyingIdentity.toBytes_fromBytes hcovers.1]
      rfl

end

/-! ## The container -/

/-- How a container's bytes carry what both readers know before the payload. -/
structure Opens (P : Crypto.Primitives) (container : Bytes) (seed : Key) (opened : Object.Opened)
    (headerBytes : Bytes) (mac : Key) : Prop where
  container_eq : container =
    opened.preamble.encode ++ (headerBytes ++ (opened.salt.toList ++ opened.payload))
  headerLen : headerBytes.length = opened.preamble.headerLen
  envelope : Format.decodeHeader headerBytes = .ok (opened.protectedBytes, mac)
  header : ProtectedHeader.decode opened.protectedBytes = .ok opened.header
  legacyHeader : ¬(opened.preamble.isLegacy ∧ (opened.header.extensions ≠ [] ∨
    opened.header.recipients.any fun stanza => stanza.asXwing.isNone))
  cek : Object.recoverCek P ⟨seed⟩ opened.header.objectId opened.preamble.encode
    opened.protectedBytes mac opened.header.recipients = .ok opened.cek
  metadata : ∃ plaintext,
    «open» P (Object.metadataKey P opened.cek opened.header.objectId) Object.metadataNonce
      (Object.metadataAad opened.header.objectId) opened.header.encryptedMetadata = .ok plaintext ∧
    Metadata.decode plaintext = .ok opened.metadata
  legacyMetadata : ¬(opened.preamble.isLegacy ∧ opened.metadata.extensions ≠ [])

theorem readExact_eq_ok {n : ℕ} {input bytes rest : Bytes}
    (h : Object.readExact n input = .ok (bytes, rest)) :
    bytes.length = n ∧ input = bytes ++ rest := by
  unfold Object.readExact at h
  split_ifs at h with hlt
  have ⟨hbytes, hrest⟩ := Prod.mk.inj (Except.ok.inj h)
  rw [← hbytes, ← hrest, List.take_append_drop]
  exact ⟨List.length_take_of_le (not_lt.mp hlt), rfl⟩

theorem encode_of_decode_preamble {bytes : Bytes} {preamble : Format.Preamble}
    (h : Format.Preamble.decode bytes = .ok preamble) : bytes = preamble.encode := by
  unfold Format.Preamble.decode at h
  obtain ⟨_, hshape, h⟩ := bind_eq_ok.mp h
  obtain ⟨_, hmajor, h⟩ := bind_eq_ok.mp h
  obtain ⟨_, hkind, h⟩ := bind_eq_ok.mp h
  have ⟨hlen, hmagic⟩ := not_or.mp (failIf_eq_ok.mp hshape)
  have ⟨hheader, hminor, hflags⟩ := Format.Preamble.fromParts_eq_ok h
  have ⟨other, hheader', hminor', hflags', hbytes⟩ := exists_preamble (not_not.mp hlen)
    (not_not.mp hmagic) (not_not.mp (failIf_eq_ok.mp hmajor)) (hminor ▸ preamble.minor_ne_zero)
    (not_not.mp (failIf_eq_ok.mp hkind)) (hminor ▸ hflags ▸ preamble.flags_known)
    (hheader ▸ preamble.headerLen_ok)
  rw [hbytes, Format.Preamble.encode, Format.Preamble.signedPrefix, hheader', hminor', hflags',
    ← hheader, ← hminor, ← hflags]
  rfl

theorem openHeader_iff {container : Bytes} {seed : Key} {opened : Object.Opened} :
    Object.openHeader P container ⟨seed⟩ = .ok opened ↔
      ∃ headerBytes mac, Opens P container seed opened headerBytes mac := by
  constructor
  · intro h
    unfold Object.openHeader at h
    obtain ⟨⟨preambleBytes, afterPreamble⟩, hpreamble, h⟩ := bind_eq_ok.mp h
    obtain ⟨preamble, hdecode, h⟩ := bind_eq_ok.mp h
    obtain ⟨⟨headerBytes, afterHeader⟩, hheaderBytes, h⟩ := bind_eq_ok.mp h
    obtain ⟨⟨protectedBytes, mac⟩, henvelope, h⟩ := bind_eq_ok.mp h
    obtain ⟨header, hheader, h⟩ := bind_eq_ok.mp h
    obtain ⟨_, hlegacyHeader, h⟩ := bind_eq_ok.mp h
    obtain ⟨cek, hcek, h⟩ := bind_eq_ok.mp h
    obtain ⟨plaintext, hopen, h⟩ := bind_eq_ok.mp h
    obtain ⟨metadata, hmetadata, h⟩ := bind_eq_ok.mp h
    obtain ⟨_, hlegacyMetadata, h⟩ := bind_eq_ok.mp h
    obtain ⟨⟨saltBytes, payload⟩, hpayload, h⟩ := bind_eq_ok.mp h
    obtain ⟨salt, hsalt, h⟩ := bind_eq_ok.mp h
    have ⟨_, hinput⟩ := readExact_eq_ok hpreamble
    have ⟨hheaderLen, hafter⟩ := readExact_eq_ok hheaderBytes
    have ⟨_, hrest⟩ := Object.readPayload_eq_ok.mp hpayload
    -- three fields were read off the input: they are written back
    have hencode := encode_of_decode_preamble (mapErr_eq_ok.mp hdecode)
    have hsalt := tryInto_eq_some (okOr_eq_ok.mp hsalt)
    have hopened := pure_eq_ok.mp h
    subst hencode hsalt hopened
    refine ⟨headerBytes, mac, ?_⟩
    exact
      { container_eq := by rw [hinput, hafter, hrest]
        headerLen := hheaderLen
        envelope := mapErr_eq_ok.mp henvelope
        header := mapErr_eq_ok.mp hheader
        legacyHeader := failIf_eq_ok.mp hlegacyHeader
        cek := hcek
        metadata := ⟨plaintext, mapErr_eq_ok.mp hopen, mapErr_eq_ok.mp hmetadata⟩
        legacyMetadata := failIf_eq_ok.mp hlegacyMetadata }
  · rintro ⟨headerBytes, mac, h⟩
    have ⟨plaintext, hopen, hmetadata⟩ := h.metadata
    have hsalt : opened.salt.toList.length = 16 := Vector.length_toList
    rw [h.container_eq]
    refine bind_eq_ok.mpr ⟨_, Object.readExact_append _ opened.preamble.length_encode, ?_⟩
    refine bind_eq_ok.mpr ⟨_, mapErr_eq_ok.mpr opened.preamble.decode_encode, ?_⟩
    refine bind_eq_ok.mpr ⟨_, Object.readExact_append _ h.headerLen, ?_⟩
    refine bind_eq_ok.mpr ⟨_, mapErr_eq_ok.mpr h.envelope, ?_⟩
    refine bind_eq_ok.mpr ⟨_, mapErr_eq_ok.mpr h.header, ?_⟩
    refine bind_eq_ok.mpr ⟨(), failIf_neg _ h.legacyHeader, ?_⟩
    refine bind_eq_ok.mpr ⟨_, h.cek, ?_⟩
    refine bind_eq_ok.mpr ⟨_, mapErr_eq_ok.mpr hopen, ?_⟩
    refine bind_eq_ok.mpr ⟨_, mapErr_eq_ok.mpr hmetadata, ?_⟩
    refine bind_eq_ok.mpr ⟨(), failIf_neg _ h.legacyMetadata, ?_⟩
    refine bind_eq_ok.mpr ⟨_, Object.readPayload_eq_ok.mpr ⟨hsalt, rfl⟩, ?_⟩
    exact bind_eq_ok.mpr ⟨_, okOr_eq_ok.mpr (tryInto_toList _), rfl⟩

/-- What the independent reader returns for a container that opened. -/
structure ReadsAs (P : Crypto.Primitives) (S : Sign.Primitives) (opened : Object.Opened)
    (read : Decrypted) : Prop where
  payload : ∃ n, (Object.decryptRecords P
      (Object.payloadKey P opened.cek opened.header.objectId opened.salt) opened.header.objectId
      (hash P [opened.protectedBytes]) opened.payload).result = .ok n
  plaintext : read.plaintext = (Object.decryptRecords P
      (Object.payloadKey P opened.cek opened.header.objectId opened.salt) opened.header.objectId
      (hash P [opened.protectedBytes]) opened.payload).staging
  metadata : read.metadata = metadataEntries opened.metadata true
  signer : ∃ found, Object.verifySignature S opened.preamble opened.header opened.metadata
      (hash P [read.plaintext]) read.plaintext.length = .ok found ∧
    read.signer = found.map fun identity => identity.toBytes.toList
  minor : read.minor = opened.preamble.minor
  flags : read.flags = opened.preamble.flags
  headerExtensions : read.headerExtensions = opened.header.extensions.map extensionPair
  metadataExtensions : read.metadataExtensions = opened.metadata.extensions.map extensionPair
  stanzas : read.stanzas = opened.header.recipients.map stanzaItem

/-- A header, a salt and a payload are what is left behind a preamble. -/
theorem exists_layout {n : ℕ} {rest : Bytes} (h : n + 16 ≤ rest.length) :
    ∃ (headerBytes : Bytes) (salt : Vector UInt8 16) (payload : Bytes),
      rest = headerBytes ++ (salt.toList ++ payload) ∧ headerBytes.length = n := by
  have hsalt : ((rest.drop n).take 16).length = 16 := by
    rw [List.length_take, List.length_drop]
    omega
  refine ⟨rest.take n, ⟨((rest.drop n).take 16).toArray, hsalt⟩, (rest.drop n).drop 16, ?_, ?_⟩
  · show rest = rest.take n ++ ((rest.drop n).take 16 ++ (rest.drop n).drop 16)
    rw [List.take_append_drop, List.take_append_drop]
  · exact List.length_take_of_le (by omega)

theorem drop_headerEnd {preamble : Format.Preamble} {headerBytes tail : Bytes}
    (h : headerBytes.length = preamble.headerLen) :
    (preamble.encode ++ (headerBytes ++ tail)).drop (preambleView preamble).headerEnd = tail := by
  have hend : (preamble.encode ++ headerBytes).length = (preambleView preamble).headerEnd := by
    rw [List.length_append, preamble.length_encode, h]
    rfl
  rw [← List.append_assoc, List.drop_left' hend]

/-- The payload, read from the offset at which it starts. -/
theorem readRecords_payload {preamble : Format.Preamble} {headerBytes payload protectedBytes : Bytes}
    (salt : Vector UInt8 16) (h : headerBytes.length = preamble.headerLen) {key objectId : Key}
    {plaintext : Bytes} :
    readRecords P key objectId.toList protectedBytes
        (preamble.encode ++ (headerBytes ++ (salt.toList ++ payload)))
        ((preambleView preamble).headerEnd + 16) 0 [] = .ok plaintext ↔
      (∃ n, (Object.decryptRecords P key objectId (hash P [protectedBytes]) payload).result =
          .ok n) ∧
        plaintext =
          (Object.decryptRecords P key objectId (hash P [protectedBytes]) payload).staging := by
  have hsalt : salt.toList.length = 16 := Vector.length_toList
  rw [readRecords_eq_ok 0, ← List.drop_drop, drop_headerEnd h, List.drop_left' hsalt]
  exact exists_and_right

theorem payloadKey_eq {cek objectId : Key} {salt : Vector UInt8 16} {payload : Bytes} :
    derive P cek ((salt.toList ++ payload).take 16) (label "payload" ++ objectId.toList) =
      Object.payloadKey P cek objectId salt := by
  have hsalt : salt.toList.length = 16 := Vector.length_toList
  rw [label_payload, List.take_left' hsalt]
  rfl

theorem decrypt_iff (hdecodes : Decodes decodeAllSync) {container : Bytes} {seed : Key}
    {read : Decrypted} :
    decrypt P S decodeAllSync container seed = .ok read ↔
      ∃ opened headerBytes mac, Opens P container seed opened headerBytes mac ∧
        ReadsAs P S opened read := by
  constructor
  · intro h
    unfold decrypt at h
    obtain ⟨view, hview, h⟩ := bind_eq_ok.mp h
    have ⟨preamble, rest, hcontainer, hrest, hview⟩ := readPreamble_eq_ok.mp hview
    have ⟨headerBytes, salt, payload, hlayout, hlen⟩ := exists_layout hrest
    subst hview hlayout hcontainer
    obtain ⟨⟨protectedBytes, headerMac, headerView⟩, hheader, h⟩ := bind_eq_ok.mp h
    -- what the independent reader sees is a view of what the Rust reader has
    have ⟨header, mac, henvelope, hdecode, hlegacy, hmac, hview⟩ :=
      (readHeader_eq_ok hdecodes hlen).mp hheader
    have hvalid := (protectedHeader_decode_eq_ok.mp hdecode).1
    subst hmac hview
    obtain ⟨cek, hcek, h⟩ := bind_eq_ok.mp h
    have hcek := (recoverCek_eq_some header.recipients).mp (okOr_eq_ok.mp hcek)
    obtain ⟨⟨map, pairs⟩, hmap, h⟩ := bind_eq_ok.mp h
    have ⟨metadata, sealed, hopen, hmetadata, hlegacy', hmap, hpairs⟩ :=
      (readMetadata_eq_ok hdecodes hvalid).mp hmap
    have hmetadataValid := (metadata_decode_eq_ok.mp hmetadata).1
    subst hmap hpairs
    obtain ⟨choice, hchoice, h⟩ := bind_eq_ok.mp h
    obtain ⟨plaintext, hrecords, h⟩ := bind_eq_ok.mp h
    obtain ⟨signer, hsigner, h⟩ := bind_eq_ok.mp h
    have hread := pure_eq_ok.mp h
    -- after the header: the salt, and the records under the key made with it
    rw [drop_headerEnd hlen] at hrecords
    have hrecords := (readRecords_payload salt hlen).mp (payloadKey_eq ▸ hrecords)
    rw [(get_metadataEntries hmetadataValid).2.2] at hchoice
    have hfound := (signer_agrees hmetadataValid hlegacy).mp ⟨choice, hchoice, hsigner⟩
    subst hread
    let opened : Object.Opened :=
      { preamble, header, protectedBytes, cek, metadata, salt, payload }
    refine ⟨opened, headerBytes, mac, ?_, ?_⟩
    · exact
        { container_eq := rfl
          headerLen := hlen
          envelope := henvelope
          header := hdecode
          legacyHeader := hlegacy
          cek := hcek
          metadata := ⟨sealed, hopen, hmetadata⟩
          legacyMetadata := hlegacy' }
    · exact
        { payload := hrecords.1
          plaintext := hrecords.2
          metadata := rfl
          signer := hfound
          minor := rfl
          flags := rfl
          headerExtensions := rfl
          metadataExtensions := rfl
          stanzas := rfl }
  · rintro ⟨opened, headerBytes, mac, hopens, hreads⟩
    have hvalid := (protectedHeader_decode_eq_ok.mp hopens.header).1
    have ⟨sealed, hopen, hmetadata⟩ := hopens.metadata
    have hmetadataValid := (metadata_decode_eq_ok.mp hmetadata).1
    have ⟨choice, hchoice, hsigner⟩ :=
      (signer_agrees hmetadataValid hopens.legacyHeader).mpr hreads.signer
    have hrest : opened.preamble.headerLen + 16 ≤
        (headerBytes ++ (opened.salt.toList ++ opened.payload)).length := by
      rw [List.length_append, List.length_append, hopens.headerLen, Vector.length_toList]
      omega
    have hrecords := (readRecords_payload opened.salt hopens.headerLen).mpr
      ⟨hreads.payload, hreads.plaintext⟩
    rw [← (get_metadataEntries hmetadataValid).2.2] at hchoice
    -- each step of the independent reader, in its order
    rw [hopens.container_eq]
    refine bind_eq_ok.mpr ⟨_, readPreamble_eq_ok.mpr ⟨opened.preamble, _, rfl, hrest, rfl⟩, ?_⟩
    refine bind_eq_ok.mpr ⟨(opened.protectedBytes, mac.toList, headerView opened.header),
      (readHeader_eq_ok hdecodes hopens.headerLen).mpr
        ⟨opened.header, mac, hopens.envelope, hopens.header, hopens.legacyHeader, rfl, rfl⟩, ?_⟩
    refine bind_eq_ok.mpr ⟨opened.cek,
      okOr_eq_ok.mpr ((recoverCek_eq_some opened.header.recipients).mpr hopens.cek), ?_⟩
    refine bind_eq_ok.mpr ⟨(metadataEntries opened.metadata true,
      opened.metadata.extensions.map extensionPair), (readMetadata_eq_ok hdecodes hvalid).mpr
        ⟨opened.metadata, sealed, hopen, hmetadata, hopens.legacyMetadata, rfl, rfl⟩, ?_⟩
    refine bind_eq_ok.mpr ⟨choice, hchoice, ?_⟩
    simp only [drop_headerEnd hopens.headerLen]
    refine bind_eq_ok.mpr ⟨read.plaintext, ?_, ?_⟩
    · exact payloadKey_eq ▸ hrecords
    refine bind_eq_ok.mpr ⟨read.signer, hsigner, ?_⟩
    obtain ⟨plaintext, map, signer, minor, flags, headerExtensions, metadataExtensions, stanzas⟩ :=
      read
    have hmap : map = _ := hreads.metadata
    have hminor : minor = _ := hreads.minor
    have hflags : flags = _ := hreads.flags
    have hheader : headerExtensions = _ := hreads.headerExtensions
    have hextensions : metadataExtensions = _ := hreads.metadataExtensions
    have hstanzas : stanzas = _ := hreads.stanzas
    rw [hmap, hminor, hflags, hheader, hextensions, hstanzas]
    rfl

/-- The same plaintext, and the same about it. -/
structure Agrees (read : Decrypted) (staging : Bytes) (object : Object.VerifiedObject S) : Prop where
  plaintext : read.plaintext = staging
  plaintextLen : read.plaintext.length = object.plaintextLen
  filename : get read.metadata 1 = object.metadata.filename.map Item.text
  mediaType : get read.metadata 2 = object.metadata.mediaType.map Item.text
  extensions : read.metadataExtensions = object.metadata.extensions.map extensionPair
  signer : read.signer = object.signer.map fun identity => identity.toBytes.toList

section
variable {container : Bytes} {seed : Key}

/-- The Rust reader accepts what the independent reader accepts. -/
theorem staged_of_decrypt (hdecodes : Decodes decodeAllSync) {read : Decrypted}
    (h : decrypt P S decodeAllSync container seed = .ok read) :
    ∃ object, (Object.decryptToStaging P S container ⟨seed⟩).result = .ok object ∧
      Agrees read (Object.decryptToStaging P S container ⟨seed⟩).staging object := by
  have ⟨opened, headerBytes, mac, hopens, hreads⟩ := (decrypt_iff hdecodes).mp h
  have ⟨n, hn⟩ := hreads.payload
  have ⟨found, hfound, hsigner⟩ := hreads.signer
  have ⟨sealed, _, hmetadata⟩ := hopens.metadata
  have hfields := get_metadataEntries (metadata_decode_eq_ok.mp hmetadata).1
  have hcount := (Object.decryptLoop_total _ _ _ _ hn).1
  have hlen : read.plaintext.length = n := by
    rw [hcount, Nat.zero_add, hreads.plaintext]
    rfl
  have hopened : Object.openHeader P container ⟨seed⟩ = .ok opened :=
    openHeader_iff.mpr ⟨headerBytes, mac, hopens⟩
  rw [hlen, hreads.plaintext] at hfound
  unfold Object.decryptToStaging
  simp only [hopened]
  refine ⟨⟨opened.metadata, n, found⟩, ?_, ?_⟩
  · exact bind_eq_ok.mpr ⟨n, hn, bind_eq_ok.mpr ⟨found, hfound, rfl⟩⟩
  · exact
      { plaintext := hreads.plaintext
        plaintextLen := hlen
        filename := by rw [hreads.metadata, hfields.1]
        mediaType := by rw [hreads.metadata, hfields.2.1]
        extensions := hreads.metadataExtensions
        signer := hsigner }

/-- The independent reader accepts what the Rust reader accepts. -/
theorem decrypt_of_staged (hdecodes : Decodes decodeAllSync) {object : Object.VerifiedObject S}
    (h : (Object.decryptToStaging P S container ⟨seed⟩).result = .ok object) :
    ∃ read, decrypt P S decodeAllSync container seed = .ok read := by
  unfold Object.decryptToStaging at h
  cases hopened : Object.openHeader P container ⟨seed⟩ with
  | error error =>
    rw [hopened] at h
    cases h
  | ok opened =>
    rw [hopened] at h
    obtain ⟨n, hn, h⟩ := bind_eq_ok.mp h
    obtain ⟨found, hfound, _⟩ := bind_eq_ok.mp h
    have ⟨headerBytes, mac, hopens⟩ := openHeader_iff.mp hopened
    have hcount := (Object.decryptLoop_total _ _ _ _ hn).1
    rw [hcount, Nat.zero_add] at hfound
    let read : Decrypted :=
      { plaintext := (Object.decryptRecords P
          (Object.payloadKey P opened.cek opened.header.objectId opened.salt)
          opened.header.objectId (hash P [opened.protectedBytes]) opened.payload).staging
        metadata := metadataEntries opened.metadata true
        signer := found.map fun identity => identity.toBytes.toList
        minor := opened.preamble.minor
        flags := opened.preamble.flags
        headerExtensions := opened.header.extensions.map extensionPair
        metadataExtensions := opened.metadata.extensions.map extensionPair
        stanzas := opened.header.recipients.map stanzaItem }
    refine ⟨read, (decrypt_iff hdecodes).mpr ⟨opened, headerBytes, mac, hopens, ?_⟩⟩
    exact
      { payload := ⟨n, hn⟩
        plaintext := rfl
        metadata := rfl
        signer := ⟨found, hfound, rfl⟩
        minor := rfl
        flags := rfl
        headerExtensions := rfl
        metadataExtensions := rfl
        stanzas := rfl }

end

/-- **The two readers agree.** They accept the same containers for the same seeds, and where they
accept, the plaintext, the filename, the media type, the metadata extensions and the signer are
the same. -/
theorem readers_agree (hdecodes : Decodes decodeAllSync) (container : Bytes) (seed : Key) :
    ((∃ read, decrypt P S decodeAllSync container seed = .ok read) ↔
      ∃ object, (Object.decryptToStaging P S container ⟨seed⟩).result = .ok object) ∧
    ∀ read object, decrypt P S decodeAllSync container seed = .ok read →
      (Object.decryptToStaging P S container ⟨seed⟩).result = .ok object →
      Agrees read (Object.decryptToStaging P S container ⟨seed⟩).staging object := by
  refine ⟨⟨?_, ?_⟩, ?_⟩
  · intro ⟨read, hread⟩
    have ⟨object, hobject, _⟩ := staged_of_decrypt hdecodes hread
    exact ⟨object, hobject⟩
  · intro ⟨object, hobject⟩
    exact decrypt_of_staged hdecodes hobject
  · intro read object hread hobject
    have ⟨object', hobject', hagrees⟩ := staged_of_decrypt hdecodes hread
    rw [hobject] at hobject'
    rw [Except.ok.inj hobject']
    exact hagrees

/-- The shortest-form decoder, in the place of the package. -/
def decodeShortest (bytes : Bytes) : Except String (List Item) :=
  mapErr (fun _ => "Insufficient data") (Cbor.decodeAll 16 bytes)

theorem decodeShortest_decodes : Decodes decodeShortest := by
  intro item bytes h
  rw [decodeShortest, Cbor.decodeAll_eq_ok h]
  rfl

/-- The independent reader, on what the Rust writer sealed and signed. -/
theorem readers_agree_confidential :
    ∃ read, decrypt Crypto.Primitives.toy Sign.Primitives.toy decodeShortest
        (Object.sampleResealSigned {} .confidential).output Object.sampleSecret.seed = .ok read ∧
      read.plaintext = [1, 2, 3] := by
  have ⟨_, object, _, hstaging, hobject, _⟩ := Object.sampleRead_confidential
  have ⟨hiff, hagrees⟩ := @readers_agree Crypto.Primitives.toy Sign.Primitives.toy decodeShortest
    decodeShortest_decodes (Object.sampleResealSigned {} .confidential).output
    Object.sampleSecret.seed
  have ⟨read, hread⟩ := hiff.mpr ⟨object, hobject⟩
  exact ⟨read, hread, (hagrees read object hread hobject).plaintext.trans hstaging⟩

end

end HideProtocol.Conformance
