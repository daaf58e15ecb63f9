import HideProtocol.Conformance.IdentityDecoding
import HideProtocol.Identity.Bookkeeping

/-!
# Two readers of identity logs

Replaying a decoded log step by step, both readers keep the same devices, the same revocations and
the same link.
-/

namespace HideProtocol.Conformance.Subsystems

open Lib
open Identity (Framing)

section Replay
variable {sha256 : Bytes → Hash} {S : Sign.Primitives}

/-! ## The two replays -/

variable {P : Sign.Primitives}

/-- What the independent reader keeps of a device. -/
def viewDevice (device : Identity.Device P) : Device where
  key := device.key.toBytes.toList
  label := device.label.toList
  enrolledAt := device.enrolledAt.toNat

/-- The same devices, the same revocations and the same link. -/
structure Mirrors (state : Identity.Membership P × Identity.Hash) (seen : Replayed) : Prop where
  devices : Renamed Vector.toList viewDevice state.1.devices seen.devices
  revoked : Renamed Vector.toList UInt64.toNat state.1.revoked seen.revoked
  head : seen.head = state.2.toList

/-- The key of an entry that adds a device is one that parses. -/
def KeyParses (P : Sign.Primitives) (entry : Identity.Entry) : Prop :=
  entry.event.tag ≠ 3 → ∃ key, Sign.VerifyingIdentity.fromBytes P entry.event.payload = .ok key

theorem toList_injective : Function.Injective (Vector.toList : Identity.Hash → Bytes) := by
  intro v w h
  exact Vector.toList_inj.mp h

theorem deviceId_eq (key : Sign.VerifyingIdentity P) :
    deviceId sha256 key.toBytes.toList = (Identity.deviceId sha256 key).toList := rfl

theorem identityLink_eq (signed signature : Bytes) :
    identityLink sha256 signed signature = (Identity.linkFor sha256 signed signature).toList := by
  unfold identityLink Identity.linkFor lenPrefixed
  simp only [List.append_assoc]
  rfl

theorem view_label {entry : Identity.Entry} (h : ¬Marked entry) :
    (view entry).label = entry.event.labelItem.toList := dropMark_eq_self.mpr h

theorem identitySignedBytes_eq {entry : Identity.Entry} (h : ¬Marked entry) (previous : Identity.Hash) :
    identitySignedBytes previous.toList (view entry) = entry.signedBytes previous := by
  have hlabel : textBytes (view entry).label = utf8 entry.event.labelItem := by
    rw [view_label h, textBytes_toList]
  unfold identitySignedBytes
  rw [hlabel]
  obtain ⟨sequence, event, signer, link, signature⟩ := entry
  cases event <;> rfl

/-- One verifies under a key, the other under its bytes. -/
theorem verifyHybrid_toBytes (key : Sign.VerifyingIdentity P) (context message signature : Bytes) :
    ∃ verified, verifyHybrid P key.toBytes.toList context message signature = .ok verified ∧
      (verified = true ↔ key.verify context message signature = .ok ()) := by
  have hkey : key.toBytes.toList.length = verifyingKeyLen := Vector.length_toList
  unfold verifyHybrid
  rw [failIf_neg _ (not_not.mpr hkey), ok_bind]
  by_cases hlen : signature.length = signatureLen
  · rw [if_neg (not_not.mpr hlen)]
    refine ⟨_, rfl, verifyHybrid_iff.trans ?_⟩
    simp only [Sign.VerifyingIdentity.fromBytes_toBytes, Except.ok.injEq, exists_eq_left']
  · rw [if_pos hlen]
    refine ⟨false, rfl, ?_⟩
    constructor
    · intro h
      cases h
    · intro hverify
      exact absurd (Sign.length_of_verify hverify) hlen

theorem verify_matches (key : Sign.VerifyingIdentity P) (context message signature : Bytes)
    {ε τ τ' : Type} {f : Sign.SignError → ε} {thrown : Thrown} {related : τ → τ' → Prop}
    {r : Except ε τ} {r' : Except Thrown τ'} (h : Matches related r r') :
    Matches related (do mapErr f (key.verify context message signature); r)
      (do
        let verified ← verifyHybrid P key.toBytes.toList context message signature
        failIf (!verified) thrown
        r') := by
  obtain ⟨verified, hverified, hiff⟩ := verifyHybrid_toBytes key context message signature
  rw [hverified, ok_bind]
  cases hverify : key.verify context message signature with
  | ok u =>
    rw [hiff.mpr hverify]
    exact h
  | error e =>
    have hfalse : verified = false := by
      rw [Bool.eq_false_iff]
      intro htrue
      rw [hiff.mp htrue] at hverify
      cases hverify
    rw [hfalse]
    trivial

section Step
variable {state : Identity.Membership P × Identity.Hash} {seen : Replayed} {entry : Identity.Entry}
  {index : ℕ}

/-- An adding entry of either side is about the same key. -/
theorem parseKey_view (hadds : entry.event.tag ≠ 3) (hparses : KeyParses P entry) :
    ∃ key, Identity.parseKey P entry.event.payload entry.sequence = .ok key ∧
      parseKey (view entry) = .ok key.toBytes.toList := by
  obtain ⟨key, hkey⟩ := hparses hadds
  have hbytes := Sign.VerifyingIdentity.toBytes_fromBytes hkey
  have hlen : entry.event.payload.length = Sign.verifyingKeyLength := by
    rw [← hbytes, Vector.length_toList]
  exact ⟨key, Identity.parseKey_eq_ok.mpr ⟨hlen, hkey⟩, parseKey_eq_ok.mpr ⟨hlen, hbytes⟩⟩

/-- Both sides let the same key sign. -/
theorem authorOf_matches (h : Mirrors state seen) (hparses : KeyParses P entry)
    (hindex : index < 2 ^ 64) (hsequence : entry.sequence = UInt64.ofNat index)
    (recovery : Sign.VerifyingIdentity P) :
    Matches (fun key bytes => bytes = key.toBytes.toList)
      (Identity.authorOf sha256 state.1 entry recovery)
      (authorOf sha256 recovery.toBytes.toList seen (view entry) index) := by
  have hzero : entry.sequence ≠ 0 ↔ index ≠ 0 := by
    rw [hsequence, not_iff_not]
    constructor
    · intro h0
      have := congrArg UInt64.toNat h0
      rwa [UInt64.toNat_ofNat_of_lt' hindex] at this
    · rintro rfl
      rfl
  have hid : ∀ key : Sign.VerifyingIdentity P, Identity.deviceId sha256 key ≠ entry.signer ↔
      deviceId sha256 key.toBytes.toList ≠ entry.signer.toList := by
    intro key
    rw [deviceId_eq, not_iff_not, Vector.toList_inj]
  have hmember : Matches (fun (key : Sign.VerifyingIdentity P) bytes => bytes = key.toBytes.toList)
      (do
        let device ←
          okOr (state.1.get entry.signer) (Identity.IdentityError.unauthorised entry.sequence)
        pure device.key)
      (do
        let device ← okOr seen.devices[entry.signer.toList]? (rejectAt .unauthorised index)
        pure device.key) := by
    rw [h.devices.lookup]
    unfold Identity.Membership.get
    cases state.1.devices[entry.signer]? with
    | none => trivial
    | some device => exact rfl
  unfold Identity.authorOf authorOf
  obtain ⟨sequence, event, signer, link, signature⟩ := entry
  cases event with
  | create device label =>
    apply Matches.check hzero
    intro _
    obtain ⟨key, hkey, hview⟩ := parseKey_view (by simp [Identity.Event.tag]) hparses
    rw [show Identity.parseKey P device sequence = .ok key from hkey, hview, ok_bind, ok_bind]
    apply Matches.check (hid key)
    intro _
    exact rfl
  | recover device label =>
    apply Matches.check (hid recovery)
    intro _
    exact rfl
  | enrol device label => exact hmember
  | revoke device => exact hmember

/-- The two maps of both sides, whatever the links. -/
structure SameMaps (membership : Identity.Membership P) (seen : Replayed) : Prop where
  devices : Renamed Vector.toList viewDevice membership.devices seen.devices
  revoked : Renamed Vector.toList UInt64.toNat membership.revoked seen.revoked

theorem contains_iff (h : Mirrors state seen) (id : Identity.DeviceId) :
    seen.devices.contains id.toList = state.1.contains id := by
  rw [Bool.eq_iff_iff, Std.ExtTreeMap.contains_iff_mem, h.devices.mem_iff]
  exact Identity.contains_iff_mem.symm

/-- Both sides change the maps in the same way. -/
theorem update_matches (h : Mirrors state seen) (hunmarked : ¬Marked entry)
    (hparses : KeyParses P entry) (hsequence : entry.sequence.toNat = index) :
    Matches SameMaps (Identity.update sha256 state.1 entry)
      (update sha256 seen (view entry) index) := by
  have hinj := toList_injective
  have hadded : ∀ key : Sign.VerifyingIdentity P,
      added (view entry) key.toBytes.toList index =
        viewDevice (Identity.newDevice sha256 key entry.event.labelItem entry.sequence) := by
    intro key
    unfold added viewDevice Identity.newDevice
    rw [view_label hunmarked, hsequence]
  obtain ⟨sequence, event, signer, link, signature⟩ := entry
  unfold Identity.update update
  cases event with
  | create device label =>
    obtain ⟨key, hkey, hview⟩ := parseKey_view (by simp [Identity.Event.tag]) hparses
    simp only [show Identity.parseKey P device sequence = .ok key from hkey, hview, ok_bind]
    refine ⟨?_, h.revoked⟩
    rw [hadded]
    exact h.devices.insert hinj _ _
  | enrol device label =>
    obtain ⟨key, hkey, hview⟩ := parseKey_view (by simp [Identity.Event.tag]) hparses
    simp only [show Identity.parseKey P device sequence = .ok key from hkey, hview, ok_bind,
      deviceId_eq, contains_iff h]
    apply Matches.check Iff.rfl
    intro _
    refine ⟨?_, h.revoked.erase hinj _⟩
    rw [hadded]
    exact h.devices.insert hinj _ _
  | revoke device =>
    simp only [view, Identity.Event.payload, Identity.Event.tag, contains_iff h]
    apply Matches.check Iff.rfl
    intro _
    rw [h.devices.size_eq hinj]
    apply Matches.check Iff.rfl
    intro _
    refine ⟨h.devices.erase hinj _, ?_⟩
    rw [← hsequence]
    exact h.revoked.insert hinj _ _
  | recover device label =>
    obtain ⟨key, hkey, hview⟩ := parseKey_view (by simp [Identity.Event.tag]) hparses
    simp only [show Identity.parseKey P device sequence = .ok key from hkey, hview, ok_bind]
    refine ⟨?_, ?_⟩
    · rw [hadded]
      exact Renamed.empty.insert hinj _ _
    · rw [← hsequence]
      exact (h.revoked.mark h.devices sequence).erase hinj _

/-- The checks of `apply` in a row. -/
theorem apply_eq (membership : Identity.Membership P) (entry : Identity.Entry)
    (recovery : Sign.VerifyingIdentity P) (previous : Identity.Hash) :
    Identity.apply sha256 membership entry recovery previous = (do
      failIf (entry.event.tag.toNat ≠ 3 ∧
        (utf8 entry.event.labelItem).length > Identity.maxLabelBytes) .labelTooLong
      let signed := entry.signedBytes previous
      failIf (Identity.linkFor sha256 signed entry.signature ≠ entry.link)
        (.brokenLink entry.sequence)
      failIf (entry.signature.length ≠ Sign.signatureLength) (.badSignature entry.sequence)
      let author ← Identity.authorOf sha256 membership entry recovery
      mapErr (fun _ => .badSignature entry.sequence)
        (author.verify Identity.entryContext signed entry.signature)
      Identity.update sha256 membership entry) := by
  obtain ⟨sequence, event, signer, link, signature⟩ := entry
  unfold Identity.apply
  cases event with
  | revoke device => simp [Identity.Event.label, Identity.Event.tag, failIf]; rfl
  | create device label => simp [Identity.Event.label, Identity.Event.tag]; rfl
  | enrol device label => simp [Identity.Event.label, Identity.Event.tag]; rfl
  | recover device label => simp [Identity.Event.label, Identity.Event.tag]; rfl

/-- One entry keeps the two replays together. -/
theorem replayStep_matches (h : Mirrors state seen) (hunmarked : ¬Marked entry)
    (hparses : KeyParses P entry) (hindex : index < 2 ^ 64) (recovery : Sign.VerifyingIdentity P) :
    Matches Mirrors (Identity.replayStep sha256 recovery state (entry, index))
      (replayEntry sha256 P recovery.toBytes.toList seen (view entry, index)) := by
  have hposition : entry.sequence ≠ UInt64.ofNat index ↔ (view entry).sequence ≠ index := by
    rw [not_iff_not, ← UInt64.toNat_inj, UInt64.toNat_ofNat_of_lt' hindex]
    rfl
  have hlabel : textBytes (view entry).label = utf8 entry.event.labelItem := by
    rw [view_label hunmarked, textBytes_toList]
  unfold Identity.replayStep replayEntry
  simp only [apply_eq, bind_assoc, h.head, identitySignedBytes_eq hunmarked, hlabel,
    identityLink_eq]
  apply Matches.check hposition
  intro hsequence
  rw [not_not] at hsequence
  apply Matches.check Iff.rfl
  intro _
  apply Matches.check
  · rw [not_iff_not]
    exact Vector.toList_inj.symm
  intro _
  apply Matches.check Iff.rfl
  intro _
  apply (authorOf_matches h hparses hindex hsequence recovery).bind
  rintro key _ rfl
  apply verify_matches
  have hcount : entry.sequence.toNat = index := by
    rw [hsequence, UInt64.toNat_ofNat_of_lt' hindex]
  apply (update_matches h hunmarked hparses hcount).bind
  intro membership after hmaps
  exact ⟨hmaps.1, hmaps.2, rfl⟩

end Step

/-! ## Whole logs -/

/-- The claim of both readers about a log: its device ids, its revoked map and its head link. -/
structure SameReading (state : Identity.Membership P × Identity.Hash) (seen : Replayed) : Prop where
  devices : ∀ id : Bytes, id ∈ seen.devices ↔ ∃ device ∈ state.1.devices, device.toList = id
  revoked : ∀ (id : Bytes) (n : ℕ), seen.revoked[id]? = some n ↔
    ∃ (device : Identity.DeviceId) (sequence : Identity.Sequence),
      state.1.revoked[device]? = some sequence ∧ device.toList = id ∧ sequence.toNat = n
  head : seen.head = state.2.toList

theorem Mirrors.sameReading {state : Identity.Membership P × Identity.Hash} {seen : Replayed}
    (h : Mirrors state seen) : SameReading state seen where
  devices id := by
    constructor
    · intro hid
      obtain ⟨device, rfl⟩ := h.devices.keys id hid
      exact ⟨device, h.devices.mem_iff.mp hid, rfl⟩
    · rintro ⟨device, hdevice, rfl⟩
      exact h.devices.mem_iff.mpr hdevice
  revoked id n := by
    constructor
    · intro hid
      obtain ⟨device, rfl⟩ := h.revoked.keys id (mem_iff_lookup.mpr ⟨n, hid⟩)
      rw [h.revoked.lookup, Option.map_eq_some_iff] at hid
      obtain ⟨sequence, hsequence, hn⟩ := hid
      exact ⟨device, sequence, hsequence, rfl, hn⟩
    · rintro ⟨device, sequence, hsequence, rfl, rfl⟩
      rw [h.revoked.lookup, hsequence]
      rfl
  head := h.head

variable (sha256) in
/-- `hide_identity::decode` followed by `IdentityLog::verify`, with the head of the log. -/
def readLog (b : Bytes) (recovery : Sign.VerifyingIdentity P) :
    Except Identity.IdentityError (Identity.Membership P × Identity.Hash) := do
  let entries ← Identity.decode b
  let membership ← Identity.IdentityLog.verify sha256 entries recovery
  pure (membership, Identity.IdentityLog.head ⟨entries, recovery⟩)

variable (sha256 P) in
/-- `decodeIdentity` followed by `replayIdentity`. -/
def readIdentity (b recoveryKey : Bytes) : Except Thrown Replayed := do
  let (entries, _) ← decodeIdentity b
  replayIdentity sha256 P entries recoveryKey

/-- The two loops over a log whose labels carry no mark and whose keys parse. -/
theorem replayLoop_mirrors {entries : List Identity.Entry}
    (hlen : entries.length ≤ Identity.maxEntries)
    (hplain : ∀ entry ∈ entries, ¬Marked entry ∧ KeyParses P entry)
    (recovery : Sign.VerifyingIdentity P) :
    Matches Mirrors (Identity.replayLoop sha256 recovery entries)
      ((entries.map view).zipIdx.foldlM (replayEntry sha256 P recovery.toBytes.toList) {}) := by
  have hmax : Identity.maxEntries < 2 ^ 64 := by decide
  rw [List.zipIdx_map]
  apply Matches.run
  · rintro ⟨entry, index⟩ hmem state seen hstate
    have hindex := List.snd_lt_of_mem_zipIdx hmem
    have hentry := hplain entry (List.fst_mem_of_mem_zipIdx hmem)
    exact replayStep_matches hstate hentry.1 hentry.2 (by omega) recovery
  · exact ⟨Renamed.empty, Renamed.empty, rfl⟩

/-- The two replays of such a log. -/
theorem replays_mirror {entries : List Identity.Entry} (hlen : entries.length ≤ Identity.maxEntries)
    (hplain : ∀ entry ∈ entries, ¬Marked entry ∧ KeyParses P entry)
    (recovery : Sign.VerifyingIdentity P) :
    Matches Mirrors
      (do
        let membership ← Identity.replay sha256 entries recovery
        pure (membership, Identity.IdentityLog.head ⟨entries, recovery⟩))
      (replayIdentity sha256 P (entries.map view) recovery.toBytes.toList) := by
  have hrun := @replayLoop_mirrors sha256 _ _ hlen hplain recovery
  apply Matches.of_ok
  · intro state hstate
    obtain ⟨membership, hreplay, hstate⟩ := bind_eq_ok.mp hstate
    obtain ⟨⟨first, device, label, hfirst, hevent⟩, -, link, hloop⟩ :=
      Identity.replay_eq_ok.mp hreplay
    obtain ⟨seen, hseen, hmirrors⟩ := hrun.ok_right hloop
    refine ⟨seen, replayIdentity_eq_ok.mpr ⟨⟨view first, ?_, ?_⟩, ?_, hseen⟩, ?_⟩
    · rw [List.head?_map, hfirst]
      rfl
    · show first.event.tag.toNat = 1
      rw [hevent]
      rfl
    · rw [List.length_map]
      exact hlen
    · have hlink : link = Identity.IdentityLog.head ⟨entries, recovery⟩ :=
        Identity.link_of_replayLoop hloop
      rw [pure_eq_ok.mp hstate, ← hlink]
      exact hmirrors
  · intro seen hseen
    obtain ⟨⟨first, hfirst, htag⟩, -, hfold⟩ := replayIdentity_eq_ok.mp hseen
    obtain ⟨⟨membership, link⟩, hloop, -⟩ := hrun.ok_left hfold
    have hreplay : Identity.replay sha256 entries recovery = .ok membership := by
      apply Identity.replay_eq_ok.mpr
      refine ⟨?_, hlen, link, hloop⟩
      rw [List.head?_map, Option.map_eq_some_iff] at hfirst
      obtain ⟨original, horiginal, rfl⟩ := hfirst
      obtain ⟨device, label, hevent⟩ := create_of_tag htag
      exact ⟨original, device, label, horiginal, hevent⟩
    rw [hreplay]
    exact ⟨_, rfl⟩

theorem replay_matches {entries : List Identity.Entry} (hlen : entries.length ≤ Identity.maxEntries)
    (hplain : ∀ entry ∈ entries, ¬Marked entry ∧ KeyParses P entry)
    (recovery : Sign.VerifyingIdentity P) :
    Matches SameReading
      (do
        let membership ← Identity.replay sha256 entries recovery
        pure (membership, Identity.IdentityLog.head ⟨entries, recovery⟩))
      (replayIdentity sha256 P (entries.map view) recovery.toBytes.toList) :=
  (replays_mirror hlen hplain recovery).imp fun _ _ => Mirrors.sameReading

section Readers
variable {b : Bytes} {recovery : Sign.VerifyingIdentity P} {entries : List Identity.Entry}

/-- Both readers on the encoding of a log whose labels carry no mark and whose keys parse. -/
theorem readers_match (h : Encodes entries b)
    (hplain : ∀ entry ∈ entries, ¬Marked entry ∧ KeyParses P entry) :
    Matches SameReading (readLog sha256 b recovery)
      (readIdentity sha256 P b recovery.toBytes.toList) := by
  obtain ⟨header, hdecode⟩ := (decodeIdentity_eq_ok h).mpr
    ⟨rfl, fun entry hentry => (hplain entry hentry).1⟩
  unfold readLog readIdentity
  rw [decode_of_encodes h, hdecode, ok_bind, ok_bind]
  exact replay_matches h.2.1 hplain recovery

/-- What the Rust reader accepts is the encoding of a log whose keys parse. -/
theorem encodes_of_readLog {state : Identity.Membership P × Identity.Hash}
    (h : readLog sha256 b recovery = .ok state) :
    ∃ entries, Encodes entries b ∧ ∀ entry ∈ entries, KeyParses P entry := by
  obtain ⟨entries, hdecode, h⟩ := bind_eq_ok.mp h
  obtain ⟨membership, hreplay, -⟩ := bind_eq_ok.mp h
  obtain ⟨-, hlen, link, hloop⟩ := Identity.replay_eq_ok.mp hreplay
  refine ⟨entries, ⟨fun entry hentry => Identity.wellSized_of_replay hreplay hentry, hlen,
    Identity.encodeFramed_of_decode hdecode⟩, ?_⟩
  intro entry hentry hadds
  obtain ⟨i, hi⟩ := List.getElem?_of_mem hentry
  obtain ⟨before, after, -, -, happly, -⟩ := Identity.replayLoop_step hloop hi
  obtain ⟨-, -, -, -, hupdate⟩ := Identity.apply_eq_ok.mp happly
  rw [Identity.update_eq_ok] at hupdate
  obtain ⟨sequence, event, signer, link, signature⟩ := entry
  cases event with
  | create device label =>
    obtain ⟨key, hkey, -⟩ := hupdate
    exact ⟨key, (Identity.parseKey_eq_ok.mp hkey).2⟩
  | enrol device label =>
    obtain ⟨key, hkey, -⟩ := hupdate
    exact ⟨key, (Identity.parseKey_eq_ok.mp hkey).2⟩
  | revoke device => exact absurd rfl hadds
  | recover device label =>
    obtain ⟨key, hkey, -⟩ := hupdate
    exact ⟨key, (Identity.parseKey_eq_ok.mp hkey).2⟩

theorem encodes_of_readIdentity {recoveryKey : Bytes} {seen : Replayed}
    (h : readIdentity sha256 P b recoveryKey = .ok seen) :
    ∃ entries, Encodes entries b ∧ ∀ entry ∈ entries, ¬Marked entry := by
  obtain ⟨⟨decoded, header⟩, hdecode, hreplay⟩ := bind_eq_ok.mp h
  obtain ⟨entries, hencodes, -, hunmarked⟩ := encodes_of_accepted hdecode hreplay
  exact ⟨entries, hencodes, hunmarked⟩

/-- A byte string encodes one log at most. -/
theorem Encodes.unique {entries' : List Identity.Entry} (h : Encodes entries b)
    (h' : Encodes entries' b) : entries = entries' :=
  Except.ok.inj ((decode_of_encodes h).symm.trans (decode_of_encodes h'))

end Readers

/-- No label of the log starts with a byte order mark, and every key it adds is one that
`VerifyingIdentity::from_bytes` accepts. -/
def Plain (P : Sign.Primitives) (b : Bytes) : Prop :=
  ∀ entries, Encodes entries b → ∀ entry ∈ entries, ¬Marked entry ∧ KeyParses P entry

/-- **When the two readers of identity logs agree.** They accept the same logs, with the same device
ids, the same revocations and the same head, except for logs that one of them accepts and in which
a label starts with a byte order mark or an added key is no key: on these they differ. -/
theorem identity_readers_agree_iff (sha256 : Bytes → Hash) (P : Sign.Primitives) (b : Bytes)
    (recovery : Sign.VerifyingIdentity P) :
    Matches SameReading (readLog sha256 b recovery)
        (readIdentity sha256 P b recovery.toBytes.toList) ↔
      ((∃ state, readLog sha256 b recovery = .ok state) ∨
          (∃ seen, readIdentity sha256 P b recovery.toBytes.toList = .ok seen) →
        Plain P b) := by
  constructor
  · intro hmatch haccepted
    -- whoever accepts, both do
    obtain ⟨state, seen, hstate, hseen⟩ : ∃ state seen, readLog sha256 b recovery = .ok state ∧
        readIdentity sha256 P b recovery.toBytes.toList = .ok seen := by
      rcases haccepted with ⟨state, hstate⟩ | ⟨seen, hseen⟩
      · obtain ⟨seen, hseen, -⟩ := hmatch.ok_right hstate
        exact ⟨state, seen, hstate, hseen⟩
      · obtain ⟨state, hstate, -⟩ := hmatch.ok_left hseen
        exact ⟨state, seen, hstate, hseen⟩
    obtain ⟨parsed, hparsed, hkeys⟩ := encodes_of_readLog hstate
    obtain ⟨unmarked, hunmarked, hlabels⟩ := encodes_of_readIdentity hseen
    intro entries hentries entry hentry
    constructor
    · exact hlabels entry (hentries.unique hunmarked ▸ hentry)
    · exact hkeys entry (hentries.unique hparsed ▸ hentry)
  · intro hplain
    apply Matches.of_ok
    · intro state hstate
      obtain ⟨entries, hentries, -⟩ := encodes_of_readLog hstate
      exact (readers_match hentries (hplain (Or.inl ⟨state, hstate⟩) entries hentries)).ok_right
        hstate
    · intro seen hseen
      obtain ⟨entries, hentries, -⟩ := encodes_of_readIdentity hseen
      obtain ⟨state, hstate, -⟩ := (readers_match hentries
        (hplain (Or.inr ⟨seen, hseen⟩) entries hentries)).ok_left hseen
      exact ⟨state, hstate⟩

/-- A freshly created log whose label starts with a byte order mark: the Rust reader accepts it and
the independent reader does not. -/
theorem marked_label_splits_readers :
    let sha : Bytes → Hash := fun bytes => Vector.replicate 32 (bytes.getD 18 0)
    let founder : Sign.SigningIdentity := ⟨Vector.replicate 32 1⟩
    let recovery := (⟨Vector.replicate 32 2⟩ : Sign.SigningIdentity).verifyingKey Sign.Primitives.toy
    ∃ log state, Identity.IdentityLog.create sha founder "\ufefflaptop" recovery = .ok log ∧
      readLog sha (Identity.encode log.entries) recovery = .ok state ∧
      (∀ seen, readIdentity sha Sign.Primitives.toy (Identity.encode log.entries)
        recovery.toBytes.toList ≠ .ok seen) ∧
      ¬Matches SameReading (readLog sha (Identity.encode log.entries) recovery)
        (readIdentity sha Sign.Primitives.toy (Identity.encode log.entries)
          recovery.toBytes.toList) := by
  intro sha founder recovery
  have hlabel : (utf8 "\ufefflaptop").length ≤ Identity.maxLabelBytes := by decide
  obtain ⟨log, hlog⟩ :
      ∃ log, Identity.IdentityLog.create sha founder "\ufefflaptop" recovery = .ok log :=
    ⟨_, Identity.create_eq_ok.mpr ⟨hlabel, rfl⟩⟩
  have hstart := (Identity.create_eq_ok.mp hlog).2
  obtain ⟨membership, hreplay, -⟩ := Identity.shows_create Sign.Primitives.toy_correct hlog
  have hrecovery : log.recovery = recovery := by rw [hstart]
  rw [hrecovery] at hreplay
  have hencodes : Encodes log.entries (Identity.encode log.entries) :=
    ⟨fun entry => Identity.wellSized_of_replay hreplay, (Identity.replay_eq_ok.mp hreplay).2.1,
      .current, rfl⟩
  have hread : readLog sha (Identity.encode log.entries) recovery =
      .ok (membership, Identity.IdentityLog.head ⟨log.entries, recovery⟩) := by
    unfold readLog Identity.IdentityLog.verify
    rw [decode_of_encodes hencodes, ok_bind, hreplay]
    rfl
  have hmarked : ∃ entry ∈ log.entries, Marked entry := by
    rw [hstart]
    refine ⟨_, List.mem_singleton_self _, ?_⟩
    show "\ufefflaptop".toList.head? = some byteOrderMark
    decide
  have hrefused : ∀ seen, readIdentity sha Sign.Primitives.toy (Identity.encode log.entries)
      recovery.toBytes.toList ≠ .ok seen := by
    intro seen hseen
    obtain ⟨entries, hentries, hunmarked⟩ := encodes_of_readIdentity hseen
    obtain ⟨entry, hentry, hmark⟩ := hmarked
    exact hunmarked entry (hencodes.unique hentries ▸ hentry) hmark
  refine ⟨log, _, hlog, hread, hrefused, ?_⟩
  intro hmatch
  obtain ⟨seen, hseen, -⟩ := hmatch.ok_right hread
  exact hrefused seen hseen

end Replay

end HideProtocol.Conformance.Subsystems
