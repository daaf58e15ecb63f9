import HideProtocol.Identity.Authority
import HideProtocol.Lib.Collision

/-!
# The head commits to the whole history

A link is the digest of the entry's signed bytes and its signature, and the signed bytes begin
with the link before. The layout is injective on entries that replay accepts
(`signedBytes_inj`, `linkInput_inj`): device keys, labels and signatures have bounded lengths
there. Two accepted histories whose links agree somewhere therefore agree on everything up to
that point, and since the sequence number is part of what is hashed they agree about where
that point is.
-/

namespace HideProtocol.Identity

open Lib Sign

variable {sha256 : Bytes → Hash} {P : Primitives}

/-! ## The signed layout -/

/-- The sizes that replay enforces: a key of the right length and a bounded label. -/
def Event.WellSized : Event → Prop
  | .create device label | .enrol device label | .recover device label =>
    device.length = verifyingKeyLength ∧ (utf8 label).length ≤ maxLabelBytes
  | .revoke _ => True

theorem length_fields_le {event : Event} (h : event.WellSized) :
    event.fields.length ≤ 16 + verifyingKeyLength + maxLabelBytes := by
  rcases event with ⟨device, label⟩ | ⟨device, label⟩ | device | ⟨device, label⟩
  · simp only [Event.fields, lenPrefixed, List.length_append, length_beBytes, h.1]
    have := h.2
    omega
  · simp only [Event.fields, lenPrefixed, List.length_append, length_beBytes, h.1]
    have := h.2
    omega
  · simp only [Event.fields, lenPrefixed, List.length_append, length_beBytes, Vector.length_toList]
    unfold verifyingKeyLength ed25519PublicLen
    omega
  · simp only [Event.fields, lenPrefixed, List.length_append, length_beBytes, h.1]
    have := h.2
    omega

/-- The two fields of the three adding events can be told apart. -/
theorem fields_inj {device device' : Bytes} {label label' : String}
    (h : device.length = verifyingKeyLength) (h' : device'.length = verifyingKeyLength)
    (hlabel : (utf8 label).length ≤ maxLabelBytes) (hlabel' : (utf8 label').length ≤ maxLabelBytes)
    (heq : lenPrefixed 8 device ++ lenPrefixed 8 (utf8 label) =
      lenPrefixed 8 device' ++ lenPrefixed 8 (utf8 label')) : device = device' ∧ label = label' := by
  have hkey : verifyingKeyLength < 256 ^ 8 := by decide
  have hmax : maxLabelBytes < 256 ^ 8 := by decide
  have ⟨hdevice, hrest⟩ := selfDelimiting_lenPrefixed 8 _ _ _ _ (show _ < _ by omega)
    (show _ < _ by omega) heq
  have htext := (selfDelimiting_lenPrefixed 8).inj (show _ < _ by omega) (show _ < _ by omega) hrest
  exact ⟨hdevice, utf8_inj htext⟩

theorem event_inj {event event' : Event} (h : event.WellSized) (h' : event'.WellSized)
    (htag : event.tag = event'.tag) (hfields : event.fields = event'.fields) : event = event' := by
  -- different tags are different events, which leaves each kind against itself
  rcases event with ⟨device, label⟩ | ⟨device, label⟩ | device | ⟨device, label⟩ <;>
    rcases event' with ⟨device', label'⟩ | ⟨device', label'⟩ | device' | ⟨device', label'⟩ <;>
    first
      | (simp [Event.tag] at htag; done)
      | skip
  · have ⟨hd, hl⟩ := fields_inj h.1 h'.1 h.2 h'.2 hfields
    rw [hd, hl]
  · have ⟨hd, hl⟩ := fields_inj h.1 h'.1 h.2 h'.2 hfields
    rw [hd, hl]
  · have hlen : ∀ d : DeviceId, d.toList.length < 256 ^ 8 := by
      intro d
      rw [Vector.length_toList]
      decide
    have hd := (selfDelimiting_lenPrefixed 8).inj (hlen device) (hlen device') hfields
    rw [Vector.toList_inj.mp hd]
  · have ⟨hd, hl⟩ := fields_inj h.1 h'.1 h.2 h'.2 hfields
    rw [hd, hl]

/-- The signed bytes determine what they were made from: only the event's own fields vary in
length, and they stand last, behind the tag. -/
theorem signedBytes_inj {previous previous' : Hash} {sequence sequence' : Sequence}
    {event event' : Event} {signer signer' : DeviceId} (h : event.WellSized)
    (h' : event'.WellSized)
    (heq : signedBytes previous sequence event signer =
      signedBytes previous' sequence' event' signer') :
    previous = previous' ∧ sequence = sequence' ∧ event = event' ∧ signer = signer' := by
  unfold signedBytes at heq
  simp only [List.append_assoc] at heq
  have ⟨hprevious, heq⟩ := selfDelimiting_vector 32 _ _ _ _ trivial trivial heq
  have ⟨hsequence, heq⟩ := selfDelimiting_beBytes 8 _ _ _ _ sequence.toNat_lt sequence'.toNat_lt heq
  have ⟨htag, heq⟩ := List.cons.inj heq
  have ⟨hsigner, hfields⟩ := selfDelimiting_vector 32 _ _ _ _ trivial trivial heq
  exact ⟨hprevious, UInt64.toNat_inj.mp hsequence, event_inj h h' htag hfields, hsigner⟩

theorem length_signedBytes_lt {previous : Hash} {sequence : Sequence} {event : Event}
    {signer : DeviceId} (h : event.WellSized) :
    (signedBytes previous sequence event signer).length < 256 ^ 8 := by
  have hfields := length_fields_le h
  have hmax : 32 + 8 + 1 + 32 + (16 + verifyingKeyLength + maxLabelBytes) < 256 ^ 8 := by decide
  simp only [signedBytes, List.length_append, Vector.length_toList, length_beBytes,
    List.length_singleton]
  omega

/-! ## Links -/

/-- The bytes whose digest is a link. -/
def linkInput (signed signature : Bytes) : Bytes :=
  utf8 "HIDE/0.6 identity link" ++ lenPrefixed 8 signed ++ lenPrefixed 8 signature

theorem linkInput_inj {signed signed' signature signature' : Bytes}
    (h : signed.length < 256 ^ 8) (h' : signed'.length < 256 ^ 8)
    (hsig : signature.length = signatureLength) (hsig' : signature'.length = signatureLength)
    (heq : linkInput signed signature = linkInput signed' signature') :
    signed = signed' ∧ signature = signature' := by
  have hlen : signatureLength < 256 ^ 8 := by
    unfold signatureLength ed25519SignatureLen mlDsaSignatureLen
    omega
  unfold linkInput at heq
  rw [List.append_assoc, List.append_assoc] at heq
  have ⟨hsigned, heq⟩ := selfDelimiting_lenPrefixed 8 _ _ _ _ h h' (List.append_cancel_left heq)
  have hsignature := (selfDelimiting_lenPrefixed 8).inj (show _ < _ by omega)
    (show _ < _ by omega) heq
  exact ⟨hsigned, hsignature⟩

/-- What is hashed for the link of entry `i`. -/
def linkInputAt (entries : List Entry) (i : ℕ) (entry : Entry) : Bytes :=
  linkInput (entry.signedBytes (linkBefore entries i)) entry.signature

/-- What is hashed for all links of a log. -/
def linkInputs (entries : List Entry) : List Bytes :=
  entries.zipIdx.map fun indexed => linkInputAt entries indexed.2 indexed.1

section Accepted
variable {entries : List Entry} {recovery : VerifyingIdentity P} {final : Membership P}

theorem linkInputAt_mem {i : ℕ} {entry : Entry} (hentry : entries[i]? = some entry) :
    linkInputAt entries i entry ∈ linkInputs entries := by
  have hmem : (entry, i) ∈ entries.zipIdx :=
    List.mem_of_getElem? (i := i) (by simp [List.getElem?_zipIdx, hentry])
  unfold linkInputs
  rw [List.mem_map]
  exact ⟨(entry, i), hmem, rfl⟩

theorem wellSized_of_update {membership membership' : Membership P} {entry : Entry}
    (hlabel : ∀ label, entry.event.label = some label → (utf8 label).length ≤ maxLabelBytes)
    (hupdate : update sha256 membership entry = .ok membership') : entry.event.WellSized := by
  unfold update at hupdate
  rcases hevent : entry.event with ⟨device, label⟩ | ⟨device, label⟩ | device | ⟨device, label⟩ <;>
    rw [hevent] at hupdate hlabel
  · obtain ⟨key, hkey, -⟩ := bind_eq_ok.mp hupdate
    exact ⟨(parseKey_eq_ok.mp hkey).1, hlabel label rfl⟩
  · obtain ⟨key, hkey, -⟩ := bind_eq_ok.mp hupdate
    exact ⟨(parseKey_eq_ok.mp hkey).1, hlabel label rfl⟩
  · trivial
  · obtain ⟨key, hkey, -⟩ := bind_eq_ok.mp hupdate
    exact ⟨(parseKey_eq_ok.mp hkey).1, hlabel label rfl⟩

/-- What an accepted log says of each of its entries, apart from who signed it. -/
theorem entry_of_replay (h : replay sha256 entries recovery = .ok final) {i : ℕ} {entry : Entry}
    (hentry : entries[i]? = some entry) :
    entry.event.WellSized ∧ entry.signature.length = signatureLength ∧
      entry.sequence = UInt64.ofNat i ∧ entry.link = sha256 (linkInputAt entries i entry) := by
  obtain ⟨before, after, -, hseq, happly, -⟩ := replay_step h hentry
  obtain ⟨hlabel, hlink, hsig, -, hupdate⟩ := apply_eq_ok.mp happly
  exact ⟨wellSized_of_update hlabel hupdate, hsig, hseq, hlink.symm⟩

theorem index_of_sequence {i j : ℕ} (hi : i < maxEntries) (hj : j < maxEntries)
    (h : UInt64.ofNat i = UInt64.ofNat j) : i = j := by
  have hmax : maxEntries < UInt64.size := by decide
  have := congrArg UInt64.toNat h
  rwa [UInt64.toNat_ofNat_of_lt' (by omega), UInt64.toNat_ofNat_of_lt' (by omega)] at this

end Accepted

section TwoLogs
variable {xs ys : List Entry} {xKey yKey : VerifyingIdentity P} {xFinal yFinal : Membership P}
  {inputs : List Bytes}

/-- Two entries of accepted logs with one link are one entry at one position, with one link
before it, or what was hashed for them collides. -/
theorem entry_of_link (hx : replay sha256 xs xKey = .ok xFinal)
    (hy : replay sha256 ys yKey = .ok yFinal) (hxs : linkInputs xs ⊆ inputs)
    (hys : linkInputs ys ⊆ inputs) {i j : ℕ} {x y : Entry} (hxi : xs[i]? = some x)
    (hyj : ys[j]? = some y) (hlink : x.link = y.link) :
    (i = j ∧ x = y ∧ linkBefore xs i = linkBefore ys j) ∨ Collides sha256 inputs := by
  obtain ⟨hxsized, hxsig, hxseq, hxlink⟩ := entry_of_replay hx hxi
  obtain ⟨hysized, hysig, hyseq, hylink⟩ := entry_of_replay hy hyj
  have hdigest : sha256 (linkInputAt xs i x) = sha256 (linkInputAt ys j y) := by
    rw [← hxlink, ← hylink, hlink]
  rcases eq_or_collides (hxs (linkInputAt_mem hxi)) (hys (linkInputAt_mem hyj)) hdigest
    with hinput | hc
  · left
    have ⟨hsigned, hsignature⟩ := linkInput_inj (length_signedBytes_lt hxsized)
      (length_signedBytes_lt hysized) hxsig hysig hinput
    have ⟨hbefore, hsequence, hevent, hsigner⟩ := signedBytes_inj hxsized hysized hsigned
    refine ⟨?_, ?_, hbefore⟩
    · have hxlen := (List.getElem?_eq_some_iff.mp hxi).1
      have hylen := (List.getElem?_eq_some_iff.mp hyj).1
      have hxmax := (replay_eq_ok.mp hx).2.1
      have hymax := (replay_eq_ok.mp hy).2.1
      apply index_of_sequence (by omega) (by omega)
      rw [← hxseq, ← hyseq, hsequence]
    · rcases x with ⟨_, _, _, _, _⟩
      rcases y with ⟨_, _, _, _, _⟩
      simp only at hsequence hevent hsigner hlink hsignature
      rw [hsequence, hevent, hsigner, hlink, hsignature]
  · right
    exact hc

/-- Accepted logs whose links agree at `i` agree up to and including `i`. -/
theorem take_of_link (hx : replay sha256 xs xKey = .ok xFinal)
    (hy : replay sha256 ys yKey = .ok yFinal) (hxs : linkInputs xs ⊆ inputs)
    (hys : linkInputs ys ⊆ inputs) {i : ℕ} {x y : Entry} (hxi : xs[i]? = some x)
    (hyi : ys[i]? = some y) (hlink : x.link = y.link) :
    xs.take (i + 1) = ys.take (i + 1) ∨ Collides sha256 inputs := by
  -- backwards along the chain: the links before agree too
  induction i generalizing x y with
  | zero =>
    rcases entry_of_link hx hy hxs hys hxi hyi hlink with ⟨-, heq, -⟩ | hc
    · left
      rw [List.take_add_one, List.take_add_one, hxi, hyi, heq]
      rfl
    · right
      exact hc
  | succ i ih =>
    rcases entry_of_link hx hy hxs hys hxi hyi hlink with ⟨-, heq, hbefore⟩ | hc
    · have hxlt : i < xs.length := by
        have := (List.getElem?_eq_some_iff.mp hxi).1
        omega
      have hylt : i < ys.length := by
        have := (List.getElem?_eq_some_iff.mp hyi).1
        omega
      have hx' : xs[i]? = some xs[i] := List.getElem?_eq_getElem hxlt
      have hy' : ys[i]? = some ys[i] := List.getElem?_eq_getElem hylt
      simp only [linkBefore, hx', hy', Option.elim_some] at hbefore
      rcases ih hx' hy' hbefore with htake | hc
      · left
        rw [List.take_add_one, htake, hxi, heq, ← hyi, ← List.take_add_one]
      · right
        exact hc
    · right
      exact hc

end TwoLogs

/-- **The head commits to the whole history.** Two accepted logs, under whatever recovery keys,
whose last entries have the same link are equal entry by entry, unless two different byte
strings among those hashed for their links have the same digest. -/
theorem head_commits (sha256 : Bytes → Hash) (P : Primitives) (xs ys : List Entry)
    (xKey yKey : VerifyingIdentity P) (xFinal yFinal : Membership P)
    (hx : replay sha256 xs xKey = .ok xFinal) (hy : replay sha256 ys yKey = .ok yFinal)
    (h : xs.getLast?.map Entry.link = ys.getLast?.map Entry.link) :
    xs = ys ∨ Collides sha256 (linkInputs xs ++ linkInputs ys) := by
  have hxne : xs ≠ [] := by
    rintro rfl
    obtain ⟨⟨_, _, _, hhead, _⟩, -⟩ := replay_eq_ok.mp hx
    cases hhead
  have hyne : ys ≠ [] := by
    rintro rfl
    obtain ⟨⟨_, _, _, hhead, _⟩, -⟩ := replay_eq_ok.mp hy
    cases hhead
  have hxlast : xs[xs.length - 1]? = some (xs.getLast hxne) := by
    rw [← List.getLast?_eq_getElem?, List.getLast?_eq_some_getLast hxne]
  have hylast : ys[ys.length - 1]? = some (ys.getLast hyne) := by
    rw [← List.getLast?_eq_getElem?, List.getLast?_eq_some_getLast hyne]
  have hlink : (xs.getLast hxne).link = (ys.getLast hyne).link := by
    rw [List.getLast?_eq_some_getLast hxne, List.getLast?_eq_some_getLast hyne] at h
    exact Option.some.inj h
  have hxpos := List.length_pos_of_ne_nil hxne
  have hypos := List.length_pos_of_ne_nil hyne
  rcases entry_of_link hx hy (List.subset_append_left _ _) (List.subset_append_right _ _) hxlast
    hylast hlink with ⟨hlen, heq, -⟩ | hc
  · -- the sequence number is hashed too, so the two logs have one length
    rw [hlen] at hxlast
    rcases take_of_link hx hy (List.subset_append_left _ _) (List.subset_append_right _ _) hxlast
      hylast hlink with htake | hc
    · left
      rwa [List.take_of_length_le (by omega), List.take_of_length_le (by omega)] at htake
    · right
      exact hc
  · right
    exact hc

namespace Sample

/-- What the digest makes of the links of an accepted log. -/
theorem link_of_replay {entries : List Entry} {recovery : VerifyingIdentity Primitives.keyed}
    {final : Membership Primitives.keyed} (h : replay digest entries recovery = .ok final) {i : ℕ}
    {entry : Entry} (hentry : entries[i]? = some entry) :
    entry.link = Vector.replicate 32 (UInt8.ofNat i) := by
  obtain ⟨-, -, hseq, hlink⟩ := entry_of_replay h hentry
  have hlt := (List.getElem?_eq_some_iff.mp hentry).1
  have hmax := (replay_eq_ok.mp h).2.1
  have hsize : maxEntries < UInt64.size := by decide
  rw [hlink]
  refine (link_eq _ _ _ _ _).trans ?_
  rw [hseq, UInt64.toNat_ofNat_of_lt' (by omega)]

/-- The laptop enrols the tablet instead, which enrols the phone and is revoked by it. -/
def otherCalls : List (Call Primitives.keyed) :=
  [.enrol (identity 1) (key 3) "tablet", .enrol (identity 3) (key 2) "phone",
    .revoke (identity 2) (device 3)]

def otherLog : IdentityLog Primitives.keyed := founded.performAll digest otherCalls

theorem run_otherLog : (∃ final, replay digest otherLog.entries (key 9) = .ok final) ∧
    otherLog.entries.map (fun entry => (entry.event, entry.signer)) =
      [(.create (key 1).toBytes.toList "laptop", device 1),
        (.enrol (key 3).toBytes.toList "tablet", device 1),
        (.enrol (key 2).toBytes.toList "phone", device 3), (.revoke (device 3), device 2)] := by
  have hphone : (utf8 "phone").length ≤ maxLabelBytes := by decide
  have htablet : (utf8 "tablet").length ≤ maxLabelBytes := by decide
  have hpermitted :
      Call.AllPermitted digest (key 9) 1 (.founded digest (identity 1) "laptop") otherCalls := by
    refine ⟨⟨htablet, ⟨newDevice digest (key 1) "laptop" 0, ?_, rfl⟩, ?_⟩,
      ⟨hphone, ⟨newDevice digest (key 3) "tablet" 1, ?_, rfl⟩, ?_⟩,
      ⟨⟨newDevice digest (key 2) "phone" 2, ?_, rfl⟩, ?_, device 1, ?_, ?_⟩, trivial⟩
    all_goals
      simp [Call.effect, Standing.founded, device_inj, key_eq]
  have hlen : founded.entries.length + otherCalls.length ≤ maxEntries := by decide
  obtain ⟨⟨final, hfinal, -⟩, hacts⟩ := IdentityLog.shows_performAll Primitives.keyed_correct
    (shows_create Primitives.keyed_correct create_founded) hlen hpermitted
  rw [(@IdentityLog.performAll_extends digest _ founded otherCalls).2] at hfinal
  exact ⟨⟨final, hfinal⟩, hacts.trans
    (by simp [founded, otherCalls, Call.event, Call.author, IdentityLog.candidate])⟩

theorem recovery_otherLog : otherLog.recovery = key 9 :=
  (@IdentityLog.performAll_extends digest _ founded otherCalls).2

attribute [irreducible] otherLog

theorem length_otherLog : otherLog.entries.length = 4 := by
  have := congrArg List.length run_otherLog.2
  rwa [List.length_map] at this

/-- The two histories differ in every entry but the root. -/
theorem otherLog_ne {i : ℕ} (hpos : 0 < i) (hlt : i < 4) :
    (log 3).entries[i]? ≠ otherLog.entries[i]? := by
  intro heq
  have hact := congrArg (Option.map fun entry => (entry.event, entry.signer)) heq
  rw [← List.getElem?_map, ← List.getElem?_map, (run_log 3).2, run_otherLog.2] at hact
  have hkind := congrArg (Option.map fun act => (act.1.tag, act.1.label)) hact
  obtain rfl | rfl | rfl : i = 1 ∨ i = 2 ∨ i = 3 := by omega
  · exact absurd hkind (by decide)
  · exact absurd hkind (by decide)
  · exact absurd hkind (by decide)

theorem last_link {entries : List Entry} {final : Membership Primitives.keyed}
    (h : replay digest entries (key 9) = .ok final) (hlen : entries.length = 4) :
    entries.getLast?.map Entry.link = some (device 3) := by
  have hentry : entries[3]? = some entries[3] := List.getElem?_eq_getElem (by omega)
  rw [List.getLast?_eq_getElem?, hlen, hentry, Option.map_some, link_of_replay h hentry]
  rfl

end Sample

/-- The theorem at two histories of one founder that differ in every later entry and have one head:
their inputs collide. -/
theorem head_commits_one_head :
    (Sample.log 3).entries.length = 4 ∧ Sample.otherLog.entries.length = 4 ∧
    (∀ i, 0 < i → i < 4 → (Sample.log 3).entries[i]? ≠ Sample.otherLog.entries[i]?) ∧
    (Sample.log 3).entries.getLast?.map Entry.link =
      Sample.otherLog.entries.getLast?.map Entry.link ∧
    Collides Sample.digest
      (linkInputs (Sample.log 3).entries ++ linkInputs Sample.otherLog.entries) := by
  obtain ⟨⟨final, hfinal⟩, -⟩ := Sample.run_otherLog
  have hlen : (Sample.log 3).entries.length = 4 := Sample.length_log (by omega)
  have hhead : (Sample.log 3).entries.getLast?.map Entry.link =
      Sample.otherLog.entries.getLast?.map Entry.link := by
    rw [Sample.last_link (Sample.replay_log 3) hlen,
      Sample.last_link hfinal Sample.length_otherLog]
  refine ⟨hlen, Sample.length_otherLog, fun i => Sample.otherLog_ne, hhead, ?_⟩
  rcases head_commits Sample.digest Primitives.keyed _ _ (Sample.key 9) (Sample.key 9) _ _
    (Sample.replay_log 3) hfinal hhead with heq | hc
  · exact absurd (congrArg (·[1]?) heq) (Sample.otherLog_ne (by omega) (by omega))
  · exact hc

end HideProtocol.Identity
