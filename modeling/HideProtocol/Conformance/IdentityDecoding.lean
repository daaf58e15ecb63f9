import HideProtocol.Conformance.Subsystems
import HideProtocol.Identity.Codec

/-!
# Two decoders of identity logs

The independent decoder reads what the Rust side writes, and what it accepts is the encoding of a
log whose labels start with no byte order mark.
-/

namespace HideProtocol.Conformance.Subsystems

open Lib

/-! ## The strict reader -/

/-- A head whose argument has been split off. -/
theorem head_cons {major info : ℕ} (hm : major < 8) (hi : info < 32) (bytes : Bytes) :
    StrictReader.head major (UInt8.ofNat (major * 32 + info) :: bytes) =
      if info < 24 then .ok (info, bytes)
      else (do
        let (width, minimum) ← okOr (StrictReader.widthOf info) (reject .malformed)
        failIf (width > bytes.length) (reject .malformed)
        failIf (ofBe (bytes.take width) < minimum) (reject .malformed)
        pure (ofBe (bytes.take width), bytes.drop width)) := by
  obtain ⟨hmajor, hinfo⟩ := Cbor.initial_byte hm hi
  unfold StrictReader.head
  simp only [hmajor, hinfo]
  rw [failIf_neg _ (by simp), ok_bind]
  rfl

/-- A wide head is read back if its argument needs the width. -/
theorem head_wide {major info width minimum n : ℕ} (hm : major < 8) (hi : info < 32)
    (hwide : ¬info < 24) (hwidth : StrictReader.widthOf info = some (width, minimum))
    (hmin : minimum ≤ n) (hn : n < 256 ^ width) (rest : Bytes) :
    StrictReader.head major (UInt8.ofNat (major * 32 + info) :: (beBytes width n ++ rest)) =
      .ok (n, rest) := by
  have htake : (beBytes width n ++ rest).take width = beBytes width n :=
    List.take_left' (length_beBytes _ _)
  have hdrop : (beBytes width n ++ rest).drop width = rest := List.drop_left' (length_beBytes _ _)
  rw [head_cons hm hi, if_neg hwide, hwidth, okOr_some, ok_bind]
  simp only [htake, hdrop, ofBe_beBytes hn]
  rw [failIf_neg _ (by simp), ok_bind, failIf_neg _ (by omega), ok_bind]
  rfl

/-- The shortest head is read back, for every 64-bit argument. -/
theorem reads_head {major n : ℕ} (hm : major < 8) (hn : n < 2 ^ 64) :
    Reads (StrictReader.head major) (Cbor.head major n) n := by
  intro rest
  unfold Cbor.head
  split_ifs with h₁ h₂ h₃ h₄
  · rw [List.cons_append, head_cons hm (by omega), if_pos h₁]
    rfl
  · exact head_wide hm (by omega) (by omega) rfl (by omega) (by omega) rest
  · exact head_wide hm (by omega) (by omega) rfl (by omega) (by omega) rest
  · exact head_wide hm (by omega) (by omega) rfl (by omega) (by omega) rest
  · exact head_wide hm (by omega) (by omega) rfl (by omega) (by omega) rest

theorem reads_string {major : ℕ} (hm : major < 8) {content : Bytes}
    (hlen : content.length < 2 ^ 64) :
    Reads (StrictReader.string major) (Cbor.head major content.length ++ content) content :=
  (reads_head hm hlen).bind (Reads.orErr (Cbor.readSlice_append content))

/-- A text string is read back without a byte order mark at its start. -/
theorem reads_text {s : String} (hlen : (utf8 s).length < 2 ^ 64) :
    Reads StrictReader.text (Cbor.str s) (dropMark s.toList) := by
  have hdecode : decodeText (utf8 s) = some (dropMark s.toList) := by
    rw [← textBytes_toList, decodeText_textBytes]
  refine (reads_string (by omega) hlen).bind_last (Reads.lift ?_)
  rw [hdecode, okOr_some]

/-- No argument takes more than eight bytes. -/
theorem head_lt {major n : ℕ} {bytes rest : Bytes}
    (h : StrictReader.head major bytes = .ok (n, rest)) : n < 2 ^ 64 := by
  cases bytes with
  | nil => cases h
  | cons initial bytes =>
    unfold StrictReader.head at h
    obtain ⟨_, -, h⟩ := bind_eq_ok.mp h
    split at h
    · have := (Prod.mk.inj (pure_eq_ok.mp h)).1
      omega
    · obtain ⟨⟨width, minimum⟩, hwidth, h⟩ := bind_eq_ok.mp h
      obtain ⟨_, hshort, h⟩ := bind_eq_ok.mp h
      obtain ⟨_, -, h⟩ := bind_eq_ok.mp h
      rw [(Prod.mk.inj (pure_eq_ok.mp h)).1]
      have hvalue := ofBe_lt (bytes.take width)
      have hle : width ≤ 8 := by
        rw [okOr_eq_ok] at hwidth
        unfold StrictReader.widthOf at hwidth
        split at hwidth <;> cases hwidth <;> omega
      have hpow : 256 ^ (bytes.take width).length ≤ 256 ^ 8 :=
        Nat.pow_le_pow_right (by omega) (by rw [List.length_take]; omega)
      omega

/-! ## The decoder on what the Rust side writes -/

open Identity (Framing)

/-- What the independent reader sees of an entry. -/
def view (entry : Identity.Entry) : Entry where
  sequence := entry.sequence.toNat
  tag := entry.event.tag.toNat
  payload := entry.event.payload
  label := dropMark entry.event.labelItem.toList
  signer := entry.signer.toList
  link := entry.link.toList
  signature := entry.signature

theorem tag_cases (event : Identity.Event) :
    event.tag.toNat = 1 ∨ event.tag.toNat = 2 ∨ event.tag.toNat = 3 ∨ event.tag.toNat = 4 := by
  cases event <;> simp [Identity.Event.tag]

theorem create_of_tag {event : Identity.Event} (h : event.tag.toNat = 1) :
    ∃ device label, event = .create device label := by
  cases event with
  | create device label => exact ⟨device, label, rfl⟩
  | enrol _ _ => exact absurd h (by simp [Identity.Event.tag])
  | revoke _ => exact absurd h (by simp [Identity.Event.tag])
  | recover _ _ => exact absurd h (by simp [Identity.Event.tag])

/-- A `revoke` carries an id. -/
theorem length_payload {event : Identity.Event} (h : event.tag.toNat = 3) :
    event.payload.length = 32 := by
  cases event with
  | revoke device => exact Vector.length_toList
  | create _ _ => exact absurd h (by simp [Identity.Event.tag])
  | enrol _ _ => exact absurd h (by simp [Identity.Event.tag])
  | recover _ _ => exact absurd h (by simp [Identity.Event.tag])

theorem reads_decodeEntry {entry : Identity.Entry} (h : entry.WellSized) (framing : Framing)
    {seen : Option ℕ} (hseen : seen = none ∨ seen = some framing.header) :
    Reads (decodeEntry seen) (Identity.encodeEntry framing entry) (view entry, framing.header) := by
  obtain ⟨hevent, hsignature⟩ := h
  obtain ⟨hpayload, hlabel⟩ := Identity.items_sized hevent
  have hmax : Identity.maxLabelBytes < 2 ^ 64 := by decide
  have hsig : Sign.signatureLength < 2 ^ 64 := by
    unfold Sign.signatureLength Sign.ed25519SignatureLen Sign.mlDsaSignatureLen
    omega
  have hvector : ∀ v : Vector UInt8 32, v.toList.length < 2 ^ 64 := by
    intro v
    rw [Vector.length_toList]
    omega
  have hheader : framing.header = 7 ∨ framing.header = 6 := by cases framing <;> decide
  have hmixed : ¬seen.any (· ≠ framing.header) = true := by
    rcases hseen with rfl | rfl <;> simp
  have hdrop : (textBytes (dropMark entry.event.labelItem.toList)).length ≤
      (utf8 entry.event.labelItem).length := by
    rw [← textBytes_toList]
    exact length_dropMark_le _
  have htag := tag_cases entry.event
  have hsequence := entry.sequence.toNat_lt
  unfold decodeEntry Identity.encodeEntry
  refine (reads_head (by omega) (by omega)).bind ?_
  refine (Reads.failIf _ (by unfold entryFields legacyEntryHeader; omega)).bind_nil ?_
  refine (Reads.failIf _ hmixed).bind_nil ?_
  refine (reads_head (by omega) hsequence).bind ?_
  refine (Reads.failIf _ (by omega)).bind_nil ?_
  refine (reads_head (by omega) (by omega)).bind ?_
  refine (Reads.failIf _ (by omega)).bind_nil ?_
  refine (reads_string (by omega) hpayload).bind ?_
  refine (reads_text (by omega)).bind ?_
  refine (Reads.failIf _ (by exact not_lt.mpr (hdrop.trans hlabel))).bind_nil ?_
  refine (Reads.failIf _ (by rcases htag with h | h | h | h <;> rw [h] <;> decide)).bind_nil ?_
  refine (Reads.failIf _ (fun h => h.2 (length_payload h.1))).bind_nil ?_
  refine (reads_string (by omega) (hvector entry.signer)).bind ?_
  refine (reads_string (by omega) (hvector entry.link)).bind ?_
  refine (reads_string (by omega) (by omega)).bind_last ?_
  refine (Reads.failIf _ (by simp)).bind_nil ?_
  refine (Reads.failIf _ (not_not.mpr hsignature)).bind_nil ?_
  exact Reads.pure _

theorem reads_decodeEntries {entries : List Identity.Entry}
    (h : ∀ entry ∈ entries, entry.WellSized) (framing : Framing) {seen : Option ℕ}
    (hseen : seen = none ∨ seen = some framing.header) :
    Reads (decodeEntries entries.length seen) (entries.flatMap (Identity.encodeEntry framing))
      (entries.map view, if entries = [] then seen else some framing.header) := by
  induction entries generalizing seen with
  | nil => exact Reads.pure _
  | cons entry entries ih =>
    rw [List.flatMap_cons]
    refine (reads_decodeEntry (h entry List.mem_cons_self) framing hseen).bind ?_
    refine (ih (fun e he => h e (List.mem_cons_of_mem _ he)) (Or.inr rfl)).bind_last ?_
    rw [ite_self, if_neg (List.cons_ne_nil _ _)]
    exact Reads.pure _

/-- `b` is the encoding, in one of the two framings, of a log within the size limits. -/
def Encodes (entries : List Identity.Entry) (b : Bytes) : Prop :=
  (∀ entry ∈ entries, entry.WellSized) ∧ entries.length ≤ Identity.maxEntries ∧
    ∃ framing, b = Identity.encodeFramed entries framing

theorem decode_of_encodes {entries : List Identity.Entry} {b : Bytes} (h : Encodes entries b) :
    Identity.decode b = .ok entries := by
  obtain ⟨hsized, hlen, framing, rfl⟩ := h
  exact Identity.decode_encodeFramed hsized hlen framing

/-! ### Labels without their mark -/

/-- An event with the byte order mark of its label left out. -/
def unmarkEvent : Identity.Event → Identity.Event
  | .create device label => .create device (String.ofList (dropMark label.toList))
  | .enrol device label => .enrol device (String.ofList (dropMark label.toList))
  | .revoke device => .revoke device
  | .recover device label => .recover device (String.ofList (dropMark label.toList))

def unmark (entry : Identity.Entry) : Identity.Entry :=
  { entry with event := unmarkEvent entry.event }

/-- The label of an entry starts with a byte order mark. -/
def Marked (entry : Identity.Entry) : Prop :=
  entry.event.labelItem.toList.head? = some byteOrderMark

theorem dropMark_eq_self {text : Text} : dropMark text = text ↔ text.head? ≠ some byteOrderMark := by
  cases text with
  | nil => simp [dropMark]
  | cons c cs =>
    rw [dropMark, List.head?_cons]
    by_cases hmark : c = byteOrderMark
    · rw [if_pos hmark, hmark]
      simp
    · rw [if_neg hmark]
      simp [hmark]

theorem unmark_eq_self {entry : Identity.Entry} : unmark entry = entry ↔ ¬Marked entry := by
  obtain ⟨sequence, event, signer, link, signature⟩ := entry
  have hlabel : ∀ label : String, String.ofList (dropMark label.toList) = label ↔
      ¬label.toList.head? = some byteOrderMark := by
    intro label
    rw [← String.toList_inj, String.toList_ofList, dropMark_eq_self]
  cases event with
  | create device label =>
    simpa [unmark, unmarkEvent, Marked, Identity.Event.labelItem] using hlabel label
  | enrol device label =>
    simpa [unmark, unmarkEvent, Marked, Identity.Event.labelItem] using hlabel label
  | recover device label =>
    simpa [unmark, unmarkEvent, Marked, Identity.Event.labelItem] using hlabel label
  | revoke device => simp [unmark, unmarkEvent, Marked, Identity.Event.labelItem]

theorem wellSized_unmark {entry : Identity.Entry} (h : entry.WellSized) :
    (unmark entry).WellSized := by
  obtain ⟨sequence, event, signer, link, signature⟩ := entry
  have hlabel : ∀ label : String, (utf8 label).length ≤ Identity.maxLabelBytes →
      (utf8 (String.ofList (dropMark label.toList))).length ≤ Identity.maxLabelBytes := by
    intro label hle
    rw [← textBytes_toList] at hle
    exact (length_dropMark_le _).trans hle
  obtain ⟨hevent, hsignature⟩ := h
  refine ⟨?_, hsignature⟩
  cases event with
  | create device label => exact ⟨hevent.1, hlabel label hevent.2⟩
  | enrol device label => exact ⟨hevent.1, hlabel label hevent.2⟩
  | recover device label => exact ⟨hevent.1, hlabel label hevent.2⟩
  | revoke device => trivial

/-- Re-encoding what was seen writes the entry without its mark. -/
theorem encodeEntry_view (framing : Framing) (entry : Identity.Entry) :
    encodeEntry framing.header (view entry) = Identity.encodeEntry framing (unmark entry) := by
  obtain ⟨sequence, event, signer, link, signature⟩ := entry
  cases event <;> rfl

theorem encodeIdentity_view (framing : Framing) (entries : List Identity.Entry) :
    encodeIdentity (entries.map view) framing.header =
      Identity.encodeFramed (entries.map unmark) framing := by
  unfold encodeIdentity Identity.encodeFramed
  rw [List.length_map, List.length_map, List.flatMap_map, List.flatMap_map]
  simp only [encodeEntry_view]
  rfl

/-- Leaving the marks out changes the encoding of a log unless there are none. -/
theorem encodeFramed_unmark {entries : List Identity.Entry}
    (hsized : ∀ entry ∈ entries, entry.WellSized) (hlen : entries.length ≤ Identity.maxEntries)
    (framing : Framing) :
    Identity.encodeFramed (entries.map unmark) framing = Identity.encodeFramed entries framing ↔
      ∀ entry ∈ entries, ¬Marked entry := by
  constructor
  · intro hsame
    have hunmarked : ∀ entry ∈ entries.map unmark, entry.WellSized := by
      intro entry hentry
      obtain ⟨original, horiginal, rfl⟩ := List.mem_map.mp hentry
      exact wellSized_unmark (hsized original horiginal)
    have hread := Identity.decode_encodeFramed hunmarked (by rwa [List.length_map]) framing
    rw [hsame, Identity.decode_encodeFramed hsized hlen] at hread
    have hmap : entries.map id = entries.map unmark := by
      rw [List.map_id]
      exact Except.ok.inj hread
    intro entry hentry
    exact unmark_eq_self.mp (List.map_inj_left.mp hmap entry hentry).symm
  · intro hunmarked
    have hmap : entries.map unmark = entries.map id := by
      apply List.map_inj_left.mpr
      intro entry hentry
      exact unmark_eq_self.mpr (hunmarked entry hentry)
    rw [hmap, List.map_id]

/-- The decoder on the encoding of a log: it returns what it sees, if no label was changed. -/
theorem decodeIdentity_eq_ok {entries : List Identity.Entry} {b : Bytes} (h : Encodes entries b)
    {seen : List Entry} :
    (∃ header, decodeIdentity b = .ok (seen, header)) ↔
      seen = entries.map view ∧ ∀ entry ∈ entries, ¬Marked entry := by
  obtain ⟨hsized, hlen, framing, rfl⟩ := h
  have hmax : Identity.maxEntries < 2 ^ 64 := by decide
  let seenFraming := if entries = [] then none else some framing.header
  have hreads : Reads decodeLog (Identity.encodeFramed entries framing)
      (entries.map view, seenFraming) := by
    unfold decodeLog Identity.encodeFramed
    refine (reads_head (by omega) (by omega)).bind ?_
    refine (Reads.failIf _ (not_lt.mpr hlen)).bind_nil ?_
    exact reads_decodeEntries hsized framing (Or.inl rfl)
  have hread := hreads []
  rw [List.append_nil] at hread
  have hencode : encodeIdentity (entries.map view) (seenFraming.getD entryFields) =
      Identity.encodeFramed (entries.map unmark) framing := by
    rw [← encodeIdentity_view]
    by_cases hnil : entries = []
    · rw [hnil]
      rfl
    · rw [show seenFraming = some framing.header from if_neg hnil]
      rfl
  have hdecode : decodeIdentity (Identity.encodeFramed entries framing) = (do
      failIf (Identity.encodeFramed (entries.map unmark) framing ≠
        Identity.encodeFramed entries framing) (reject .malformed)
      pure (entries.map view, seenFraming.getD entryFields)) := by
    unfold decodeIdentity
    rw [hread, ok_bind]
    simp only []
    rw [failIf_neg _ (by simp), ok_bind, hencode]
  rw [hdecode]
  simp only [bind_eq_ok, failIf_eq_ok, pure_eq_ok, not_not, encodeFramed_unmark hsized hlen,
    Prod.mk.injEq]
  constructor
  · rintro ⟨header, _, hunmarked, hseen, _⟩
    exact ⟨hseen, hunmarked⟩
  · rintro ⟨hseen, hunmarked⟩
    exact ⟨_, (), hunmarked, hseen, rfl⟩

/-! ## What the independent decoder accepts -/

/-- The checks of the decoding loop. -/
structure Shaped (entry : Entry) : Prop where
  sequence : entry.sequence < 2 ^ 64
  tag : entry.tag = 1 ∨ entry.tag = 2 ∨ entry.tag = 3 ∨ entry.tag = 4
  label : (textBytes entry.label).length ≤ maxLabelBytes
  payload : entry.tag = 3 → entry.payload.length = 32
  signer : entry.signer.length = 32
  link : entry.link.length = 32
  signature : entry.signature.length = signatureLen

theorem shaped_of_decodeEntry {framing : Option ℕ} {bytes rest : Bytes} {entry : Entry}
    {header : ℕ} (h : decodeEntry framing bytes = .ok ((entry, header), rest)) :
    Shaped entry ∧ (header = entryFields ∨ header = legacyEntryHeader) := by
  unfold decodeEntry at h
  simp only [Parser.bind_eq_ok, Parser.lift_eq_ok, Parser.pure_eq_ok, failIf_eq_ok] at h
  obtain ⟨_, _, -, _, _, ⟨hheader, -⟩, _, _, -, h⟩ := h
  obtain ⟨sequence, _, hsequence, _, _, -, tag, _, -, _, _, -, h⟩ := h
  obtain ⟨payload, _, -, label, _, -, _, _, ⟨hlabel, -⟩, _, _, ⟨htag, -⟩, h⟩ := h
  obtain ⟨_, _, ⟨hpayload, -⟩, signer, _, -, link, _, -, signature, _, -, h⟩ := h
  obtain ⟨_, _, ⟨hvectors, -⟩, _, _, ⟨hsignature, -⟩, h⟩ := h
  obtain ⟨⟨rfl, rfl⟩, rfl⟩ := by simpa only [Prod.mk.injEq] using h
  have htags : tag ∈ tags := by simpa using htag
  refine ⟨⟨head_lt hsequence, ?_, not_lt.mp hlabel, ?_, ?_, ?_, not_not.mp hsignature⟩, ?_⟩
  · simpa [tags] using htags
  · intro hthree
    by_contra hlen
    exact hpayload ⟨hthree, hlen⟩
  · by_contra hlen
    exact hvectors (Or.inl hlen)
  · by_contra hlen
    exact hvectors (Or.inr hlen)
  · by_contra hneither
    exact hheader (not_or.mp hneither)

theorem shaped_of_decodeEntries {count : ℕ} {framing framing' : Option ℕ} {bytes rest : Bytes}
    {entries : List Entry}
    (h : decodeEntries count framing bytes = .ok ((entries, framing'), rest)) :
    entries.length = count ∧ (∀ entry ∈ entries, Shaped entry) ∧
      (framing' = framing ∨ framing' = some entryFields ∨ framing' = some legacyEntryHeader) := by
  induction count generalizing framing framing' bytes rest entries with
  | zero =>
    unfold decodeEntries at h
    simp only [Parser.pure_eq_ok, Prod.mk.injEq] at h
    obtain ⟨⟨rfl, rfl⟩, -⟩ := h
    exact ⟨rfl, by simp, Or.inl rfl⟩
  | succ count ih =>
    unfold decodeEntries at h
    simp only [Parser.bind_eq_ok, Parser.pure_eq_ok, Prod.mk.injEq, Prod.exists] at h
    obtain ⟨entry, header, _, hentry, others, last, _, hothers, ⟨rfl, rfl⟩, -⟩ := h
    obtain ⟨hshaped, hheader⟩ := shaped_of_decodeEntry hentry
    obtain ⟨hlen, hall, hlast⟩ := ih hothers
    refine ⟨by rw [List.length_cons, hlen], List.forall_mem_cons.mpr ⟨hshaped, hall⟩, Or.inr ?_⟩
    rcases hlast with hlast | hlast
    · rw [hlast, Option.some.injEq, Option.some.injEq]
      exact hheader
    · exact hlast

theorem shaped_of_decodeIdentity {b : Bytes} {entries : List Entry} {header : ℕ}
    (h : decodeIdentity b = .ok (entries, header)) :
    entries.length ≤ maxEntries ∧ (∀ entry ∈ entries, Shaped entry) ∧
      ∃ framing : Framing, b = encodeIdentity entries framing.header := by
  unfold decodeIdentity at h
  obtain ⟨⟨⟨seen, framing⟩, rest⟩, hlog, h⟩ := bind_eq_ok.mp h
  obtain ⟨_, -, h⟩ := bind_eq_ok.mp h
  obtain ⟨_, hsame, h⟩ := bind_eq_ok.mp h
  rw [failIf_eq_ok, not_not] at hsame
  obtain ⟨rfl, -⟩ := Prod.mk.inj (pure_eq_ok.mp h)
  unfold decodeLog at hlog
  simp only [Parser.bind_eq_ok, Parser.lift_eq_ok, failIf_eq_ok] at hlog
  obtain ⟨count, _, -, _, _, ⟨hcount, -⟩, hentries⟩ := hlog
  obtain ⟨hlen, hall, hframing⟩ := shaped_of_decodeEntries hentries
  refine ⟨by omega, hall, ?_⟩
  rcases hframing with rfl | rfl | rfl
  · exact ⟨.current, hsame.symm⟩
  · exact ⟨.current, hsame.symm⟩
  · exact ⟨.legacy, hsame.symm⟩

/-- An accepted entry is the encoding of an entry, if its payload has the size of a key. -/
theorem exists_entry {seen : Entry} (h : Shaped seen)
    (hkey : seen.tag ≠ 3 → seen.payload.length = verifyingKeyLen) :
    ∃ entry : Identity.Entry, entry.WellSized ∧
      ∀ framing : Framing, encodeEntry framing.header seen = Identity.encodeEntry framing entry := by
  obtain ⟨sequence, tag, payload, label, signer, link, signature⟩ := seen
  obtain ⟨hsequence, htag, hlabel, hpayload, hsigner, hlink, hsignature⟩ := h
  obtain ⟨signer, rfl⟩ := exists_vector hsigner
  obtain ⟨link, rfl⟩ := exists_vector hlink
  obtain ⟨sequence, rfl⟩ : ∃ n : UInt64, n.toNat = sequence :=
    ⟨UInt64.ofNat sequence, UInt64.toNat_ofNat_of_lt' hsequence⟩
  rcases htag with rfl | rfl | rfl | rfl
  · exact ⟨⟨sequence, .create payload (String.ofList label), signer, link, signature⟩,
      ⟨⟨hkey (by simp), hlabel⟩, hsignature⟩, fun _ => rfl⟩
  · exact ⟨⟨sequence, .enrol payload (String.ofList label), signer, link, signature⟩,
      ⟨⟨hkey (by simp), hlabel⟩, hsignature⟩, fun _ => rfl⟩
  · obtain ⟨device, rfl⟩ := exists_vector (hpayload rfl)
    exact ⟨⟨sequence, .revoke device, signer, link, signature⟩, ⟨trivial, hsignature⟩, fun _ => rfl⟩
  · exact ⟨⟨sequence, .recover payload (String.ofList label), signer, link, signature⟩,
      ⟨⟨hkey (by simp), hlabel⟩, hsignature⟩, fun _ => rfl⟩

theorem exists_entries {seen : List Entry} (h : ∀ entry ∈ seen, Shaped entry)
    (hkey : ∀ entry ∈ seen, entry.tag ≠ 3 → entry.payload.length = verifyingKeyLen) :
    ∃ entries : List Identity.Entry, entries.length = seen.length ∧
      (∀ entry ∈ entries, entry.WellSized) ∧ ∀ framing : Framing,
        seen.flatMap (encodeEntry framing.header) =
          entries.flatMap (Identity.encodeEntry framing) := by
  induction seen with
  | nil => exact ⟨[], rfl, by simp, fun _ => rfl⟩
  | cons first seen ih =>
    obtain ⟨entry, hsized, hencode⟩ :=
      exists_entry (h first List.mem_cons_self) (hkey first List.mem_cons_self)
    obtain ⟨entries, hlen, hall, hencodes⟩ := ih (fun e he => h e (List.mem_cons_of_mem _ he))
      fun e he => hkey e (List.mem_cons_of_mem _ he)
    refine ⟨entry :: entries, by rw [List.length_cons, List.length_cons, hlen],
      List.forall_mem_cons.mpr ⟨hsized, hall⟩, ?_⟩
    intro framing
    rw [List.flatMap_cons, List.flatMap_cons, hencode, hencodes]

section Replay
variable {sha256 : Bytes → Hash} {S : Sign.Primitives}

theorem parseKey_eq_ok {entry : Entry} {key : Bytes} :
    parseKey entry = .ok key ↔ entry.payload.length = verifyingKeyLen ∧ key = entry.payload := by
  unfold parseKey
  simp only [bind_eq_ok, failIf_eq_ok, pure_eq_ok, not_not, exists_const]

theorem length_of_update {state after : Replayed} {entry : Entry} {index : ℕ}
    (h : update sha256 state entry index = .ok after)
    (htag : entry.tag = 1 ∨ entry.tag = 2 ∨ entry.tag = 4) :
    entry.payload.length = verifyingKeyLen := by
  unfold update at h
  rcases htag with htag | htag | htag
  · rw [htag] at h
    obtain ⟨key, hkey, -⟩ := bind_eq_ok.mp h
    exact (parseKey_eq_ok.mp hkey).1
  · rw [htag] at h
    obtain ⟨key, hkey, -⟩ := bind_eq_ok.mp h
    exact (parseKey_eq_ok.mp hkey).1
  · rw [htag] at h
    obtain ⟨key, hkey, -⟩ := bind_eq_ok.mp h
    exact (parseKey_eq_ok.mp hkey).1

theorem update_of_replayEntry {recoveryKey : Bytes} {state after : Replayed} {entry : Entry}
    {index : ℕ} (h : replayEntry sha256 S recoveryKey state (entry, index) = .ok after) :
    ∃ updated, update sha256 state entry index = .ok updated := by
  unfold replayEntry at h
  simp only [bind_eq_ok] at h
  obtain ⟨_, -, _, -, _, -, _, -, _, -, _, -, _, -, updated, hupdated, -⟩ := h
  exact ⟨updated, hupdated⟩

theorem replayIdentity_eq_ok {entries : List Entry} {recoveryKey : Bytes} {final : Replayed} :
    replayIdentity sha256 S entries recoveryKey = .ok final ↔
      (∃ first, entries.head? = some first ∧ first.tag = 1) ∧ entries.length ≤ maxEntries ∧
        entries.zipIdx.foldlM (replayEntry sha256 S recoveryKey) {} = .ok final := by
  cases entries with
  | nil => simp [replayIdentity]
  | cons first rest =>
    unfold replayIdentity
    simp only [bind_eq_ok, failIf_eq_ok, not_not, not_lt, exists_const, List.head?_cons,
      Option.some.injEq, exists_eq_left']
    exact and_left_comm

/-- Every payload of a replayed log that is not an id has the size of a key. -/
theorem length_of_replayIdentity {entries : List Entry} {recoveryKey : Bytes} {final : Replayed}
    (h : replayIdentity sha256 S entries recoveryKey = .ok final)
    (hshaped : ∀ entry ∈ entries, Shaped entry) :
    ∀ entry ∈ entries, entry.tag ≠ 3 → entry.payload.length = verifyingKeyLen := by
  intro entry hentry htag
  obtain ⟨-, -, hrun⟩ := replayIdentity_eq_ok.mp h
  obtain ⟨i, hi⟩ := List.getElem?_of_mem hentry
  have hpair : entries.zipIdx[i]? = some (entry, i) := by
    rw [List.getElem?_zipIdx, hi]
    simp
  obtain ⟨before, after, -, hstep, -⟩ := run_step hrun hpair
  obtain ⟨updated, hupdated⟩ := update_of_replayEntry hstep
  apply length_of_update hupdated
  have := (hshaped entry hentry).tag
  omega

/-- What the independent reader accepts is the encoding of a log without marks. -/
theorem encodes_of_accepted {b recoveryKey : Bytes} {seen : List Entry} {header : ℕ}
    {final : Replayed} (hdecode : decodeIdentity b = .ok (seen, header))
    (hreplay : replayIdentity sha256 S seen recoveryKey = .ok final) :
    ∃ entries, Encodes entries b ∧ seen = entries.map view ∧ ∀ entry ∈ entries, ¬Marked entry := by
  obtain ⟨hlen, hshaped, framing, hb⟩ := shaped_of_decodeIdentity hdecode
  obtain ⟨entries, hsame, hsized, hencode⟩ :=
    exists_entries hshaped (length_of_replayIdentity hreplay hshaped)
  have hencodes : Encodes entries b := by
    refine ⟨hsized, by rw [hsame]; exact hlen, framing, ?_⟩
    rw [hb, encodeIdentity, hencode, ← hsame]
    rfl
  exact ⟨entries, hencodes, (decodeIdentity_eq_ok hencodes).mp ⟨header, hdecode⟩⟩

end Replay

end HideProtocol.Conformance.Subsystems
