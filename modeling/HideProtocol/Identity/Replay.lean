import HideProtocol.Lib.Run
import HideProtocol.Identity.Log

/-!
# Replaying a log

What `replay` accepts, entry by entry. One entry is checked and applied (`apply_eq_ok`,
`update_contains`); the replay of a log passes through the replay of each of its prefixes
(`replay_step`); and replaying one more entry is replaying the log and then applying that entry
(`replay_snoc`).
-/

namespace HideProtocol.Identity

open Lib Sign

variable {sha256 : Bytes → Hash} {P : Primitives}

/-! ## Ids -/

/-- The bytes whose digest is a device id. -/
def deviceIdInput (key : VerifyingIdentity P) : Bytes :=
  utf8 "HIDE/0.6 device id" ++ key.toBytes.toList

theorem deviceIdInput_inj {key key' : VerifyingIdentity P}
    (h : deviceIdInput key = deviceIdInput key') : key = key' :=
  VerifyingIdentity.toBytes_inj (Vector.toList_inj.mp (List.append_cancel_left h))

/-! ## One entry -/

/-- `key` verifies the entry's signature, over the bytes that bind it to `previous`. -/
def Verifies (key : VerifyingIdentity P) (previous : Hash) (entry : Entry) : Prop :=
  key.verify entryContext (entry.signedBytes previous) entry.signature = .ok ()

variable (sha256) in
/-- The device an event adds, if it adds one. -/
def Event.Adds (P : Primitives) (event : Event) (id : DeviceId) : Prop :=
  ∃ device label, (event = .create device label ∨ event = .enrol device label ∨
      event = .recover device label) ∧
    ∃ key, VerifyingIdentity.fromBytes P device = .ok key ∧ deviceId sha256 key = id

theorem parseKey_eq_ok {bytes : Bytes} {sequence : Sequence} {key : VerifyingIdentity P} :
    parseKey P bytes sequence = .ok key ↔
      bytes.length = verifyingKeyLength ∧ VerifyingIdentity.fromBytes P bytes = .ok key := by
  unfold parseKey
  simp only [bind_eq_ok, failIf_eq_ok, mapErr_eq_ok, not_not, exists_const]

theorem apply_eq_ok {membership membership' : Membership P} {entry : Entry}
    {recovery : VerifyingIdentity P} {previous : Hash} :
    apply sha256 membership entry recovery previous = .ok membership' ↔
      (∀ label, entry.event.label = some label → (utf8 label).length ≤ maxLabelBytes) ∧
      linkFor sha256 (entry.signedBytes previous) entry.signature = entry.link ∧
      entry.signature.length = signatureLength ∧
      (∃ author, authorOf sha256 membership entry recovery = .ok author ∧
        Verifies author previous entry) ∧
      update sha256 membership entry = .ok membership' := by
  unfold apply Verifies Entry.signedBytes
  rcases entry.event.label with _ | label
  · simp only [bind_eq_ok, failIf_eq_ok, mapErr_eq_ok, not_not]
    constructor
    · rintro ⟨_, hlink, _, hlength, author, hauthor, _, hverify, hupdate⟩
      exact ⟨by simp, hlink, hlength, ⟨author, hauthor, hverify⟩, hupdate⟩
    · rintro ⟨-, hlink, hlength, ⟨author, hauthor, hverify⟩, hupdate⟩
      exact ⟨(), hlink, (), hlength, author, hauthor, (), hverify, hupdate⟩
  · simp only [bind_eq_ok, failIf_eq_ok, mapErr_eq_ok, not_not, not_lt, gt_iff_lt,
      Option.some.injEq, forall_eq']
    constructor
    · rintro ⟨_, hlabel, _, hlink, _, hlength, author, hauthor, _, hverify, hupdate⟩
      exact ⟨hlabel, hlink, hlength, ⟨author, hauthor, hverify⟩, hupdate⟩
    · rintro ⟨hlabel, hlink, hlength, ⟨author, hauthor, hverify⟩, hupdate⟩
      exact ⟨(), hlabel, (), hlink, (), hlength, author, hauthor, (), hverify, hupdate⟩

/-- Who may sign an entry, given the membership before it. -/
theorem authorOf_eq_ok {membership : Membership P} {entry : Entry}
    {recovery author : VerifyingIdentity P} :
    authorOf sha256 membership entry recovery = .ok author ↔
      match entry.event with
      | .create device _ => entry.sequence = 0 ∧ parseKey P device entry.sequence = .ok author ∧
          deviceId sha256 author = entry.signer
      | .recover _ _ => deviceId sha256 recovery = entry.signer ∧ author = recovery
      | .enrol _ _ | .revoke _ =>
          ∃ device, membership.get entry.signer = some device ∧ author = device.key := by
  unfold authorOf
  rcases entry.event with ⟨device, label⟩ | _ | _ | _
  · simp only [bind_eq_ok, failIf_eq_ok, pure_eq_ok, not_not]
    constructor
    · rintro ⟨_, hseq, key, hkey, _, hid, heq⟩
      rw [heq]
      exact ⟨hseq, hkey, hid⟩
    · rintro ⟨hseq, hkey, hid⟩
      exact ⟨(), hseq, author, hkey, (), hid, rfl⟩
  · simp only [bind_eq_ok, okOr_eq_ok, pure_eq_ok]
  · simp only [bind_eq_ok, okOr_eq_ok, pure_eq_ok]
  · simp only [check_pure_eq_ok, failIf_eq_ok, not_not]

/-- What an authorised entry does to the two maps. -/
theorem update_eq_ok {membership membership' : Membership P} {entry : Entry} :
    update sha256 membership entry = .ok membership' ↔
      match entry.event with
      | .create device label => ∃ key, parseKey P device entry.sequence = .ok key ∧
          membership' = { membership with
            devices := membership.devices.insert (deviceId sha256 key)
              (newDevice sha256 key label entry.sequence) }
      | .enrol device label => ∃ key, parseKey P device entry.sequence = .ok key ∧
          membership.contains (deviceId sha256 key) = false ∧
          membership' = {
            devices := membership.devices.insert (deviceId sha256 key)
              (newDevice sha256 key label entry.sequence)
            revoked := membership.revoked.erase (deviceId sha256 key) }
      | .revoke device => membership.contains device = true ∧ membership.len ≠ 1 ∧
          membership' = {
            devices := membership.devices.erase device
            revoked := membership.revoked.insert device entry.sequence }
      | .recover device label => ∃ key, parseKey P device entry.sequence = .ok key ∧
          membership' = {
            devices := (∅ : Std.ExtTreeMap DeviceId (Device P)).insert (deviceId sha256 key)
              (newDevice sha256 key label entry.sequence)
            revoked := (membership.devices.keys.foldl
              (fun revoked old => revoked.insert old entry.sequence) membership.revoked).erase
                (deviceId sha256 key) } := by
  unfold update
  rcases entry.event with ⟨device, label⟩ | ⟨device, label⟩ | device | ⟨device, label⟩
  · simp only [bind_eq_ok, pure_eq_ok]
  · simp only [bind_eq_ok, pure_eq_ok, failIf_eq_ok, Bool.not_eq_true, exists_const]
  · simp only [bind_eq_ok, pure_eq_ok, failIf_eq_ok, Bool.not_eq_true, Bool.not_eq_false',
      exists_const, ne_eq]
  · simp only [bind_eq_ok, pure_eq_ok]

/-- A device in the membership after an entry was there before it, or the entry added it. -/
theorem update_contains {membership membership' : Membership P} {entry : Entry} {id : DeviceId}
    (h : update sha256 membership entry = .ok membership') (hid : membership'.contains id = true) :
    membership.contains id = true ∨ entry.event.Adds sha256 P id := by
  unfold update at h
  split at h
  next device label hevent =>
    obtain ⟨key, hkey, h⟩ := bind_eq_ok.mp h
    rw [pure_eq_ok] at h
    rw [h, Membership.contains, Std.ExtTreeMap.contains_insert, Bool.or_eq_true] at hid
    rcases hid with hid | hid
    · right
      exact ⟨device, label, Or.inl hevent, key, (parseKey_eq_ok.mp hkey).2, by simpa using hid⟩
    · left
      exact hid
  next device label hevent =>
    obtain ⟨key, hkey, h⟩ := bind_eq_ok.mp h
    obtain ⟨_, -, h⟩ := bind_eq_ok.mp h
    rw [pure_eq_ok] at h
    rw [h, Membership.contains, Std.ExtTreeMap.contains_insert, Bool.or_eq_true] at hid
    rcases hid with hid | hid
    · right
      exact ⟨device, label, Or.inr (Or.inl hevent), key, (parseKey_eq_ok.mp hkey).2,
        by simpa using hid⟩
    · left
      exact hid
  next device hevent =>
    obtain ⟨_, -, h⟩ := bind_eq_ok.mp h
    obtain ⟨_, -, h⟩ := bind_eq_ok.mp h
    rw [pure_eq_ok] at h
    rw [h, Membership.contains, Std.ExtTreeMap.contains_erase, Bool.and_eq_true] at hid
    left
    exact hid.2
  next device label hevent =>
    obtain ⟨key, hkey, h⟩ := bind_eq_ok.mp h
    rw [pure_eq_ok] at h
    rw [h, Membership.contains, Std.ExtTreeMap.contains_insert, Bool.or_eq_true] at hid
    right
    refine ⟨device, label, Or.inr (Or.inr hevent), key, (parseKey_eq_ok.mp hkey).2, ?_⟩
    simpa using hid

/-! ## Replay and its prefixes -/

theorem replayStep_eq_ok {recovery : VerifyingIdentity P} {state state' : Membership P × Hash}
    {entry : Entry} {index : ℕ} :
    replayStep sha256 recovery state (entry, index) = .ok state' ↔
      entry.sequence = UInt64.ofNat index ∧
      apply sha256 state.1 entry recovery state.2 = .ok state'.1 ∧ state'.2 = entry.link := by
  unfold replayStep
  simp only [bind_eq_ok, failIf_eq_ok, pure_eq_ok, not_not]
  constructor
  · rintro ⟨_, hseq, membership, happly, heq⟩
    rw [heq]
    exact ⟨hseq, happly, rfl⟩
  · rintro ⟨hseq, happly, hlink⟩
    exact ⟨(), hseq, state'.1, happly, Prod.ext rfl hlink⟩

theorem replay_eq_ok {entries : List Entry} {recovery : VerifyingIdentity P}
    {membership : Membership P} :
    replay sha256 entries recovery = .ok membership ↔
      (∃ first device label, entries.head? = some first ∧ first.event = .create device label) ∧
      entries.length ≤ maxEntries ∧
      ∃ link, replayLoop sha256 recovery entries = .ok (membership, link) := by
  unfold replay
  split
  · simp
  next first rest =>
    rcases hevent : first.event with ⟨device, label⟩ | _ | _ | _
    · simp only [bind_eq_ok, failIf_eq_ok, pure_eq_ok, List.head?_cons, not_lt]
      constructor
      · rintro ⟨_, hlen, ⟨m, link⟩, hloop, heq⟩
        rw [heq]
        exact ⟨⟨first, device, label, rfl, hevent⟩, hlen, link, hloop⟩
      · rintro ⟨_, hlen, link, hloop⟩
        exact ⟨(), hlen, (membership, link), hloop, rfl⟩
    all_goals simp [hevent]

/-- The link of the entry before position `i`. -/
def linkBefore (entries : List Entry) : ℕ → Hash
  | 0 => zeroLink
  | i + 1 => (entries[i]?).elim zeroLink Entry.link

/-- The state of the replay loop before entry `i`, the step it takes there and the state
after. -/
theorem replayLoop_step {entries : List Entry} {recovery : VerifyingIdentity P}
    {final : Membership P × Hash} (h : replayLoop sha256 recovery entries = .ok final) {i : ℕ}
    {entry : Entry} (hentry : entries[i]? = some entry) :
    ∃ before after,
      replayLoop sha256 recovery (entries.take i) = .ok (before, linkBefore entries i) ∧
      entry.sequence = UInt64.ofNat i ∧
      apply sha256 before entry recovery (linkBefore entries i) = .ok after ∧
      replayLoop sha256 recovery (entries.take (i + 1)) = .ok (after, entry.link) := by
  -- the link in the state is that of the entry before, by one more step back
  have hlink : ∀ state, replayLoop sha256 recovery (entries.take i) = .ok state →
      state.2 = linkBefore entries i := by
    intro state hstate
    match i with
    | 0 =>
      have : state = ({}, zeroLink) := by simpa [replayLoop] using hstate
      rw [this]
      rfl
    | i + 1 =>
      have hlt : i < entries.length := by
        have := (List.getElem?_eq_some_iff.mp hentry).1
        omega
      obtain ⟨_, after, -, hstep, hafter⟩ := run_step h
        (show entries.zipIdx[i]? = some (entries[i], i) by simp [hlt])
      rw [take_zipIdx] at hafter
      have heq : state = after := Except.ok.inj (hstate.symm.trans hafter)
      rw [heq, (replayStep_eq_ok.mp hstep).2.2]
      simp [linkBefore, hlt]
  obtain ⟨before, after, hbefore, hstep, hafter⟩ := run_step h
    (show entries.zipIdx[i]? = some (entry, i) by simp [List.getElem?_zipIdx, hentry])
  rw [take_zipIdx] at hbefore hafter
  have hprev := hlink before hbefore
  obtain ⟨hseq, happly, hlast⟩ := replayStep_eq_ok.mp hstep
  rw [hprev] at happly
  refine ⟨before.1, after.1, ?_, hseq, happly, ?_⟩
  · rw [← hprev]
    exact hbefore
  · rw [← hlast]
    exact hafter

/-- Where the loop over a non-empty prefix of an accepted log ends, the prefix is accepted. -/
theorem replay_take_of_loop {entries : List Entry} {recovery : VerifyingIdentity P}
    {final : Membership P} (h : replay sha256 entries recovery = .ok final) {n : ℕ} (hn : 0 < n)
    {state : Membership P × Hash}
    (hstate : replayLoop sha256 recovery (entries.take n) = .ok state) :
    replay sha256 (entries.take n) recovery = .ok state.1 := by
  obtain ⟨⟨first, device, label, hhead, hevent⟩, hlen, -⟩ := replay_eq_ok.mp h
  apply replay_eq_ok.mpr
  refine ⟨⟨first, device, label, ?_, hevent⟩, ?_, state.2, hstate⟩
  · rw [List.head?_take, if_neg (by omega)]
    exact hhead
  · rw [List.length_take]
    omega

/-- An accepted log is accepted up to each of its entries, and the replay up to there is the
state the next entry is applied to. -/
theorem replay_step {entries : List Entry} {recovery : VerifyingIdentity P}
    {final : Membership P} (h : replay sha256 entries recovery = .ok final) {i : ℕ} {entry : Entry}
    (hentry : entries[i]? = some entry) :
    ∃ before after,
      (0 < i → replay sha256 (entries.take i) recovery = .ok before) ∧
      entry.sequence = UInt64.ofNat i ∧
      apply sha256 before entry recovery (linkBefore entries i) = .ok after ∧
      replay sha256 (entries.take (i + 1)) recovery = .ok after := by
  obtain ⟨-, -, link, hloop⟩ := replay_eq_ok.mp h
  obtain ⟨before, after, hbefore, hseq, happly, hafter⟩ := replayLoop_step hloop hentry
  exact ⟨before, after, fun hi => replay_take_of_loop h hi hbefore, hseq, happly,
    replay_take_of_loop h (Nat.succ_pos i) hafter⟩

theorem replay_singleton {entry : Entry} {recovery : VerifyingIdentity P}
    {membership : Membership P} {device : Bytes} {label : String}
    (hevent : entry.event = .create device label) (hseq : entry.sequence = 0)
    (happly : apply sha256 {} entry recovery zeroLink = .ok membership) :
    replay sha256 [entry] recovery = .ok membership := by
  apply replay_eq_ok.mpr
  refine ⟨⟨entry, device, label, rfl, hevent⟩, by simp [maxEntries], entry.link, ?_⟩
  have hstep : replayStep sha256 recovery ({}, zeroLink) (entry, 0) =
      .ok (membership, entry.link) := replayStep_eq_ok.mpr ⟨hseq, happly, rfl⟩
  simp [replayLoop, hstep]

/-! ## One more entry -/

/-- The link of the last entry. -/
def lastLink (entries : List Entry) : Hash := entries.getLast?.elim zeroLink Entry.link

theorem replayLoop_snoc {entries : List Entry} {entry : Entry} {recovery : VerifyingIdentity P}
    {state : Membership P × Hash} :
    replayLoop sha256 recovery (entries ++ [entry]) = .ok state ↔
      ∃ before, replayLoop sha256 recovery entries = .ok before ∧
        entry.sequence = UInt64.ofNat entries.length ∧
        apply sha256 before.1 entry recovery before.2 = .ok state.1 ∧ state.2 = entry.link := by
  unfold replayLoop
  rw [List.zipIdx_append, List.foldlM_append, bind_eq_ok]
  simp only [List.zipIdx_singleton, List.foldlM_cons, List.foldlM_nil, bind_eq_ok, pure_eq_ok,
    Nat.zero_add]
  constructor
  · rintro ⟨before, hbefore, after, hstep, heq⟩
    rw [heq]
    exact ⟨before, hbefore, replayStep_eq_ok.mp hstep⟩
  · rintro ⟨before, hbefore, hstep⟩
    exact ⟨before, hbefore, state, replayStep_eq_ok.mpr hstep, rfl⟩

theorem link_of_replayLoop {entries : List Entry} {recovery : VerifyingIdentity P}
    {state : Membership P × Hash} (h : replayLoop sha256 recovery entries = .ok state) :
    state.2 = lastLink entries := by
  rcases List.eq_nil_or_concat entries with rfl | ⟨init, entry, rfl⟩
  · have : state = ({}, zeroLink) := by simpa [replayLoop] using h
    rw [this]
    rfl
  · rw [List.concat_eq_append] at h ⊢
    obtain ⟨-, -, -, -, hlink⟩ := replayLoop_snoc.mp h
    rw [hlink, lastLink, List.getLast?_concat]
    rfl

/-- Replaying one more entry is replaying what was there and applying the entry to it. -/
theorem replay_snoc {entries : List Entry} {entry : Entry} {recovery : VerifyingIdentity P}
    {before after : Membership P} (h : replay sha256 entries recovery = .ok before) :
    replay sha256 (entries ++ [entry]) recovery = .ok after ↔
      entries.length < maxEntries ∧ entry.sequence = UInt64.ofNat entries.length ∧
      apply sha256 before entry recovery (lastLink entries) = .ok after := by
  obtain ⟨⟨first, device, label, hhead, hevent⟩, -, link, hloop⟩ := replay_eq_ok.mp h
  have hlink : link = lastLink entries := link_of_replayLoop hloop
  rw [hlink] at hloop
  rw [replay_eq_ok]
  constructor
  · intro ⟨_, hlen, last, hloop'⟩
    obtain ⟨state, hstate, hseq, happly, -⟩ := replayLoop_snoc.mp hloop'
    rw [List.length_append, List.length_singleton] at hlen
    have hsame : state = (before, lastLink entries) := Except.ok.inj (hstate.symm.trans hloop)
    rw [hsame] at happly
    exact ⟨by omega, hseq, happly⟩
  · intro ⟨hlen, hseq, happly⟩
    refine ⟨⟨first, device, label, ?_, hevent⟩, ?_, entry.link, ?_⟩
    · rw [List.head?_append, hhead]
      rfl
    · rw [List.length_append, List.length_singleton]
      omega
    · exact replayLoop_snoc.mpr ⟨_, hloop, hseq, happly, rfl⟩

theorem replay_take {entries : List Entry} {recovery : VerifyingIdentity P} {final : Membership P}
    (h : replay sha256 entries recovery = .ok final) {n : ℕ} (hn : 0 < n)
    (hle : n ≤ entries.length) : ∃ membership,
      replay sha256 (entries.take n) recovery = .ok membership := by
  obtain ⟨_, after, -, -, -, hafter⟩ := replay_step h
    (List.getElem?_eq_getElem (show n - 1 < entries.length by omega))
  rw [Nat.sub_add_cancel hn] at hafter
  exact ⟨after, hafter⟩

end HideProtocol.Identity
