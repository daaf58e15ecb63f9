import HideProtocol.Identity.History
import HideProtocol.Lib.Cbor

/-!
# The identity-log codec

A log travels as a CBOR array of entries of seven items each. Writers up to 0.8 announced six,
which no CBOR reader accepts but the one that wrote it; such logs are still read, never written.
The decoder infers the framing from each entry's header, refuses a log that mixes the two, and
compares the input with a re-encoding in the framing it found.

The writer appends to a vector, so that encoding cannot fail.
-/

namespace HideProtocol.Identity

open Lib Sign

/-- Items in one encoded entry: sequence, tag, payload, label, signer, link, signature. -/
def entryFields : ℕ := 7

/-- What versions 0.6 to 0.8 announced in front of seven items. -/
def legacyEntryHeader : ℕ := 6

/-- Which entry framing a log uses. -/
inductive Framing where
  | current
  | legacy
deriving DecidableEq, Repr

def Framing.header : Framing → ℕ
  | current => entryFields
  | legacy => legacyEntryHeader

/-! ## Encoding -/

namespace Event

/-- The payload item: a key to add, or the id to remove. -/
def payload : Event → Bytes
  | create device _ => device
  | enrol device _ => device
  | revoke device => device.toList
  | recover device _ => device

/-- The label item; a `revoke` writes an empty one. -/
def labelItem : Event → String
  | create _ label => label
  | enrol _ label => label
  | revoke _ => ""
  | recover _ label => label

end Event

def encodeEntry (framing : Framing) (entry : Entry) : Bytes :=
  Cbor.array framing.header ++ (Cbor.uint entry.sequence.toNat ++
    (Cbor.uint entry.event.tag.toNat ++ (Cbor.bytes entry.event.payload ++
    (Cbor.str entry.event.labelItem ++ (Cbor.bytes entry.signer.toList ++
    (Cbor.bytes entry.link.toList ++ Cbor.bytes entry.signature))))))

def encodeFramed (entries : List Entry) (framing : Framing) : Bytes :=
  Cbor.array entries.length ++ entries.flatMap (encodeEntry framing)

/-- Encodes a log for transport. -/
def encode (entries : List Entry) : Bytes := encodeFramed entries .current

/-! ## Decoding -/

/-- A read that fails with `Malformed`. -/
def cbor {α : Type} (p : Bytes → Option (α × Bytes)) : Parser IdentityError α :=
  Parser.orErr .malformed p

/-- A definite array header. -/
def arrayHeader : Parser IdentityError ℕ := do
  let count ← cbor Cbor.readArray
  Parser.lift (okOr count .malformed)

/-- The framing an entry header announces. -/
def framingOf (header : ℕ) : Except IdentityError Framing :=
  if header = entryFields then .ok .current
  else if header = legacyEntryHeader then .ok .legacy
  else .error .malformed

/-- The event a tag, a payload and a label stand for. A `revoke` has no place for a label and
drops it. -/
def eventOf (tag : ℕ) (payload : Bytes) (label : String) : Except IdentityError Event :=
  match tag with
  | 1 => .ok (.create payload label)
  | 2 => .ok (.enrol payload label)
  | 3 => do
    let device ← okOr (tryInto 32 payload) .malformed
    pure (.revoke device)
  | 4 => .ok (.recover payload label)
  | _ => .error .malformed

/-- One entry, in the framing seen so far if any, with the framing it is in. -/
def decodeEntry (framing : Option Framing) : Parser IdentityError (Entry × Framing) := do
  let header ← arrayHeader
  let this ← Parser.lift (framingOf header)
  Parser.lift (failIf (framing.any (· ≠ this)) .malformed)
  let sequence ← cbor Cbor.readU64
  let tag ← cbor Cbor.readU8
  let payload ← cbor Cbor.readBytes
  let label ← cbor Cbor.readStr
  Parser.lift (failIf ((utf8 label).length > maxLabelBytes) .labelTooLong)
  let event ← Parser.lift (eventOf tag payload label)
  let signer ← cbor Cbor.readBytes
  let signer ← Parser.lift (okOr (tryInto 32 signer) .malformed)
  let link ← cbor Cbor.readBytes
  let link ← Parser.lift (okOr (tryInto 32 link) .malformed)
  let signature ← cbor Cbor.readBytes
  Parser.lift (failIf (signature.length ≠ signatureLength) .malformed)
  pure ({ sequence := UInt64.ofNat sequence, event, signer, link, signature }, this)

/-- The loop over the declared count, with the framing seen so far as its state. -/
def decodeEntries : ℕ → Option Framing → Parser IdentityError (List Entry × Option Framing)
  | 0, framing => pure ([], framing)
  | count + 1, framing => do
    let (entry, this) ← decodeEntry framing
    let (entries, framing) ← decodeEntries count (some this)
    pure (entry :: entries, framing)

/-- The entries and their framing, up to the canonical check. -/
def decodeLog : Parser IdentityError (List Entry × Option Framing) := do
  let count ← arrayHeader
  Parser.lift (failIf (count > maxEntries) (.tooManyEntries count))
  decodeEntries count none

/-- Decodes a log. Accepts the current framing and, for reading only, the legacy one. -/
def decode (bytes : Bytes) : Except IdentityError (List Entry) := do
  let ((entries, framing), rest) ← decodeLog bytes
  failIf (bytes.length - rest.length ≠ bytes.length) .malformed
  failIf (encodeFramed entries (framing.getD .current) ≠ bytes) .malformed
  pure entries

/-! ## The decoder undoes the encoder -/

variable {sha256 : Bytes → Hash} {P : Primitives}

/-- What replay guarantees of an entry and the codec needs. -/
def Entry.WellSized (entry : Entry) : Prop :=
  entry.event.WellSized ∧ entry.signature.length = signatureLength

theorem wellSized_of_replay {entries : List Entry} {recovery : VerifyingIdentity P}
    {final : Membership P} (h : replay sha256 entries recovery = .ok final) {entry : Entry}
    (hentry : entry ∈ entries) : entry.WellSized := by
  obtain ⟨i, hi⟩ := List.getElem?_of_mem hentry
  obtain ⟨hevent, hsignature, -⟩ := entry_of_replay h hi
  exact ⟨hevent, hsignature⟩

theorem reads_arrayHeader {n : ℕ} (h : n < 2 ^ 64) : Reads arrayHeader (Cbor.array n) n :=
  (Cbor.reads_array _ h).bind_last (Reads.lift (okOr_some _ _))

theorem framingOf_header (framing : Framing) : framingOf framing.header = .ok framing := by
  cases framing <;> rfl

theorem eventOf_items (event : Event) :
    eventOf event.tag.toNat event.payload event.labelItem = .ok event := by
  rcases event with ⟨device, label⟩ | ⟨device, label⟩ | device | ⟨device, label⟩
  · rfl
  · rfl
  · show (do let device ← okOr (tryInto 32 device.toList) IdentityError.malformed
             pure (Event.revoke device)) = Except.ok (Event.revoke device)
    rw [tryInto_toList]
    rfl
  · rfl

/-- The payload of an event is a key or an id. -/
theorem length_payload_le {event : Event} (h : event.WellSized) :
    event.payload.length ≤ verifyingKeyLength := by
  have hid : 32 ≤ verifyingKeyLength := by decide
  rcases event with ⟨device, label⟩ | ⟨device, label⟩ | device | ⟨device, label⟩
  · exact h.1.le
  · exact h.1.le
  · show device.toList.length ≤ verifyingKeyLength
    rw [Vector.length_toList]
    exact hid
  · exact h.1.le

/-- The variable-length items of a well-sized event fit in a 64-bit length. -/
theorem items_sized {event : Event} (h : event.WellSized) :
    event.payload.length < 2 ^ 64 ∧ (utf8 event.labelItem).length ≤ maxLabelBytes := by
  have hkey : verifyingKeyLength < 2 ^ 64 := by decide
  refine ⟨(length_payload_le h).trans_lt hkey, ?_⟩
  rcases event with ⟨device, label⟩ | ⟨device, label⟩ | device | ⟨device, label⟩
  · exact h.2
  · exact h.2
  · show (utf8 "").length ≤ maxLabelBytes
    decide
  · exact h.2

theorem reads_decodeEntry {entry : Entry} (h : entry.WellSized) (framing : Framing)
    {seen : Option Framing} (hseen : seen = none ∨ seen = some framing) :
    Reads (decodeEntry seen) (encodeEntry framing entry) (entry, framing) := by
  obtain ⟨hevent, hsignature⟩ := h
  have ⟨hpayload, hlabel⟩ := items_sized hevent
  have hmax : maxLabelBytes < 2 ^ 64 := by decide
  have hsig : signatureLength < 2 ^ 64 := by
    unfold signatureLength ed25519SignatureLen mlDsaSignatureLen
    omega
  have harray : ∀ v : Vector UInt8 32, v.toList.length < 2 ^ 64 := by
    intro v
    rw [Vector.length_toList]
    decide
  have hheader : framing.header < 2 ^ 64 := by cases framing <;> decide
  have hmixed : ¬seen.any (· ≠ framing) = true := by
    rcases hseen with rfl | rfl <;> simp
  unfold decodeEntry encodeEntry
  refine (reads_arrayHeader hheader).bind ?_
  refine (Reads.lift (framingOf_header framing)).bind_nil ?_
  refine (Reads.failIf _ hmixed).bind_nil ?_
  refine (Cbor.reads_u64 _ entry.sequence.toNat_lt).bind ?_
  refine (Cbor.reads_u8 _ entry.event.tag.toNat_lt).bind ?_
  refine (Cbor.reads_bytes _ hpayload).bind ?_
  refine (Cbor.reads_str _ (by omega)).bind ?_
  refine (Reads.failIf _ (by omega)).bind_nil ?_
  refine (Reads.lift (eventOf_items entry.event)).bind_nil ?_
  refine (Cbor.reads_bytes _ (harray entry.signer)).bind ?_
  refine (Reads.lift (by rw [tryInto_toList, okOr_some])).bind_nil ?_
  refine (Cbor.reads_bytes _ (harray entry.link)).bind ?_
  refine (Reads.lift (by rw [tryInto_toList, okOr_some])).bind_nil ?_
  refine (Cbor.reads_bytes _ (by omega)).bind_last ?_
  refine (Reads.failIf _ (not_not.mpr hsignature)).bind_nil ?_
  rw [UInt64.ofNat_toNat]
  exact Reads.pure _

theorem reads_decodeEntries {entries : List Entry} (h : ∀ entry ∈ entries, entry.WellSized)
    (framing : Framing) {seen : Option Framing} (hseen : seen = none ∨ seen = some framing) :
    Reads (decodeEntries entries.length seen) (entries.flatMap (encodeEntry framing))
      (entries, if entries = [] then seen else some framing) := by
  induction entries generalizing seen with
  | nil => exact Reads.pure _
  | cons entry entries ih =>
    rw [List.flatMap_cons]
    refine (reads_decodeEntry (h entry List.mem_cons_self) framing hseen).bind ?_
    refine (ih (fun e he => h e (List.mem_cons_of_mem _ he)) (Or.inr rfl)).bind_last ?_
    rw [ite_self, if_neg (List.cons_ne_nil _ _)]
    exact Reads.pure _

theorem decode_encodeFramed {entries : List Entry} (h : ∀ entry ∈ entries, entry.WellSized)
    (hlen : entries.length ≤ maxEntries) (framing : Framing) :
    decode (encodeFramed entries framing) = .ok entries := by
  have hmax : maxEntries < 2 ^ 64 := by decide
  have hreads : Reads decodeLog (encodeFramed entries framing)
      (entries, if entries = [] then none else some framing) := by
    unfold decodeLog encodeFramed
    refine (reads_arrayHeader (by omega)).bind ?_
    refine (Reads.failIf _ (by omega)).bind_nil ?_
    exact reads_decodeEntries h framing (Or.inl rfl)
  have hread := hreads []
  rw [List.append_nil] at hread
  have hsame : encodeFramed entries
      ((if entries = [] then none else some framing).getD .current) =
      encodeFramed entries framing := by
    by_cases hnil : entries = []
    · rw [hnil]
      rfl
    · rw [if_neg hnil]
      rfl
  unfold decode
  rw [hread, ok_bind]
  simp only []
  rw [failIf_neg _ (by simp), ok_bind, failIf_neg _ (not_not.mpr hsame)]
  rfl

/-- What the canonical check leaves: a form the writer of that framing would have written. -/
theorem encodeFramed_of_decode {b : Bytes} {entries : List Entry} (h : decode b = .ok entries) :
    ∃ framing, b = encodeFramed entries framing := by
  unfold decode at h
  obtain ⟨⟨⟨entries', framing⟩, rest⟩, -, h⟩ := bind_eq_ok.mp h
  obtain ⟨_, -, h⟩ := bind_eq_ok.mp h
  obtain ⟨_, hsame, h⟩ := bind_eq_ok.mp h
  rw [failIf_eq_ok, not_not] at hsame
  rw [pure_eq_ok] at h
  rw [h]
  exact ⟨framing.getD .current, hsame.symm⟩

/-- The two forms of a non-empty log differ in the first entry's header. -/
theorem encodeFramed_ne {entries : List Entry} (hne : entries ≠ []) :
    encodeFramed entries .current ≠ encodeFramed entries .legacy := by
  rcases entries with _ | ⟨entry, entries⟩
  · exact absurd rfl hne
  · intro heq
    unfold encodeFramed at heq
    have hbody := List.append_cancel_left heq
    rw [List.flatMap_cons, List.flatMap_cons] at hbody
    have hcurrent : Cbor.array Framing.current.header = [0x87] := by decide
    have hlegacy : Cbor.array Framing.legacy.header = [0x86] := by decide
    unfold encodeEntry at hbody
    rw [hcurrent, hlegacy] at hbody
    exact absurd (List.cons.inj hbody).1 (by decide)

/-- **The identity-log codec is exact.** Every log that replay accepts is read back from its
current form and from its legacy form; and whatever the decoder accepts is one of these two forms
of what it returns, which differ for every log with an entry in it. -/
theorem identity_codec_exact (sha256 : Bytes → Hash) (P : Primitives) :
    (∀ (entries : List Entry) (recovery : VerifyingIdentity P) (final : Membership P),
      replay sha256 entries recovery = .ok final →
      decode (encode entries) = .ok entries ∧
        decode (encodeFramed entries .legacy) = .ok entries) ∧
    (∀ (b : Bytes) (entries : List Entry), decode b = .ok entries →
      b = encodeFramed entries .current ∨ b = encodeFramed entries .legacy) ∧
    (∀ entries : List Entry, entries ≠ [] →
      encodeFramed entries .current ≠ encodeFramed entries .legacy) := by
  refine ⟨?_, ?_, ?_⟩
  · intro entries recovery final h
    have hsized : ∀ entry ∈ entries, entry.WellSized := fun entry => wellSized_of_replay h
    have hlen := (replay_eq_ok.mp h).2.1
    exact ⟨decode_encodeFramed hsized hlen .current, decode_encodeFramed hsized hlen .legacy⟩
  · intro b entries h
    obtain ⟨framing, hb⟩ := encodeFramed_of_decode h
    cases framing with
    | current =>
      left
      exact hb
    | legacy =>
      right
      exact hb
  · intro entries hne
    exact encodeFramed_ne hne

/-- The theorem at the log of the sample identity, which has an entry of each kind: both of its forms
are read back, and they differ. -/
theorem identity_codec_exact_grown :
    (Sample.log 6).entries.length = 7 ∧
    decode (encode (Sample.log 6).entries) = .ok (Sample.log 6).entries ∧
    decode (encodeFramed (Sample.log 6).entries .legacy) = .ok (Sample.log 6).entries ∧
    encodeFramed (Sample.log 6).entries .current ≠ encodeFramed (Sample.log 6).entries .legacy := by
  have ⟨hread, _, hdiffer⟩ := identity_codec_exact Sample.digest Primitives.keyed
  have ⟨hcurrent, hlegacy⟩ := hread _ _ _ (Sample.replay_log 6)
  have hlen := Sample.length_log (le_refl 6)
  exact ⟨hlen, hcurrent, hlegacy, hdiffer _ (List.ne_nil_of_length_pos (by omega))⟩

end HideProtocol.Identity
