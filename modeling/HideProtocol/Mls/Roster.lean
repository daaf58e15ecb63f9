import HideProtocol.Mls.Provider

/-!
# Rosters and messages

Removing a device from an identity does not evict it from a group. What notices it are two checks
beside the provider: `untrusted_members` goes through a roster, `accept_from_trusted` looks at the
sender of a message. Both ask only whether the membership lists the device of a credential, and
leave out the comparison of keys that the provider makes. For a membership that a log gave they
still answer as the provider does.

The group is third-party code: it has a roster, and a message that it has decrypted names the index
of its sender.
-/

namespace HideProtocol.Mls

open Lib Sign Identity

/-- A member of a group, under its index in the ratchet tree. -/
structure Member where
  index : UInt32
  signingIdentity : SigningIdentity

/-- What a group makes of a message: an application message of a member, or a change of the
group. -/
inductive ReceivedMessage where
  | applicationMessage (senderIndex : UInt32)
  | other
deriving DecidableEq

section
variable (sha256 : Bytes → Hash) (P : Primitives)

/-- The device of a credential whose signature covers the MLS key it travels with. -/
def credentialDevice (signing : SigningIdentity) : Except MlsError DeviceId := do
  let binding ← Binding.parse sha256 P signing.credential
  binding.verify signing.signatureKey
  pure binding.device

/-- The device behind an application message. -/
def senderDevice (roster : List Member) :
    ReceivedMessage → Except MlsError (Option DeviceId)
  | .other => pure none
  | .applicationMessage senderIndex => do
    let member ← okOr (roster.find? fun member => member.index = senderIndex)
      (.protocol "sender is not in the roster")
    let device ← credentialDevice sha256 P member.signingIdentity
    pure (some device)

variable {P}

/-- The loop of `untrusted_members`. -/
def untrustedStep (membership : Membership P) (stale : List DeviceId) (member : Member) :
    Except MlsError (List DeviceId) := do
  let device ← credentialDevice sha256 P member.signingIdentity
  pure (if !membership.contains device then stale ++ [device] else stale)

/-- Checks every member of a group against an identity's current membership. -/
def untrustedMembers (roster : List Member) (membership : Membership P) :
    Except MlsError (List DeviceId) :=
  roster.foldlM (untrustedStep sha256 membership) []

/-- Rejects an application message whose sender the identity no longer trusts. -/
def acceptFromTrusted (roster : List Member) (message : ReceivedMessage)
    (membership : Membership P) : Except MlsError Unit := do
  match ← senderDevice sha256 P roster message with
  | some device => failIf (!membership.contains device) .untrustedSender
  | none => pure ()

end

section
variable {sha256 : Bytes → Hash} {P : Primitives} {membership : Membership P}

/-! ## The checks and the provider -/

/-- The key of a credential and the one the membership has for its device are two keys of one
id. -/
def KeyCollision (sha256 : Bytes → Hash) (membership : Membership P) (signing : SigningIdentity) :
    Prop :=
  ∃ (binding : Binding P) (trusted : Device P),
    Binding.parse sha256 P signing.credential = .ok binding ∧
    membership.get binding.device = some trusted ∧
    Collides sha256 [deviceIdInput binding.key, deviceIdInput trusted.key]

/-- The comparison of keys decides nothing: both keys have the id of the device. -/
theorem validate_eq_lookup (hreplayed : Replayed sha256 membership) {signing : SigningIdentity}
    (hnone : ¬KeyCollision sha256 membership signing) :
    validate sha256 membership signing = (do
      let device ← credentialDevice sha256 P signing
      failIf (!membership.contains device) .untrustedDevice) := by
  unfold validate credentialDevice
  rcases hparse : Binding.parse sha256 P signing.credential with e | binding
  · rfl
  · rcases hverify : binding.verify signing.signatureKey with e | ⟨⟩
    · simp only [ok_bind, hverify]
      rfl
    · simp only [ok_bind, hverify, pure_bind, contains_eq_isSome]
      rcases htrusted : membership.get binding.device with _ | trusted
      · rfl
      · have hkey : trusted.key = binding.key := by
          by_contra hne
          apply hnone
          refine ⟨binding, trusted, hparse, htrusted, deviceIdInput binding.key,
            List.mem_cons_self, deviceIdInput trusted.key,
            List.mem_cons_of_mem _ List.mem_cons_self, ?_, ?_⟩
          · intro hinput
            exact hne (deviceIdInput_inj hinput).symm
          · have hid := (Binding.parse_eq_ok.mp hparse).2
            exact hid.trans (id_of_replayed hreplayed htrusted).symm
        rw [okOr_some, ok_bind, failIf_neg _ (not_not.mpr hkey)]
        rfl

theorem validate_of_device (hreplayed : Replayed sha256 membership) {signing : SigningIdentity}
    (hnone : ¬KeyCollision sha256 membership signing) {device : DeviceId}
    (hdevice : credentialDevice sha256 P signing = .ok device) :
    (membership.contains device = true ∧ validate sha256 membership signing = .ok ()) ∨
      (membership.contains device = false ∧
        validate sha256 membership signing = .error .untrustedDevice) := by
  rw [validate_eq_lookup hreplayed hnone, hdevice, ok_bind]
  cases membership.contains device with
  | true => exact Or.inl ⟨rfl, rfl⟩
  | false => exact Or.inr ⟨rfl, rfl⟩

/-- Whoever was admitted presents a device that the membership of that time listed. -/
theorem device_of_validate {signing : SigningIdentity}
    (h : validate sha256 membership signing = .ok ()) :
    ∃ device, credentialDevice sha256 P signing = .ok device ∧
      membership.contains device = true := by
  unfold validate at h
  obtain ⟨binding, hparse, h⟩ := bind_eq_ok.mp h
  obtain ⟨_, hverify, h⟩ := bind_eq_ok.mp h
  obtain ⟨trusted, htrusted, -⟩ := bind_eq_ok.mp h
  refine ⟨binding.device, ?_, ?_⟩
  · unfold credentialDevice
    rw [hparse, ok_bind, hverify]
    rfl
  · rw [contains_eq_isSome, okOr_eq_ok.mp htrusted]
    rfl

/-- What the loop over a roster returns. -/
theorem untrusted_loop {roster : List Member} {device : Member → DeviceId}
    (hdevice : ∀ member ∈ roster,
      credentialDevice sha256 P member.signingIdentity = .ok (device member))
    (stale : List DeviceId) :
    roster.foldlM (untrustedStep sha256 membership) stale =
      .ok (stale ++ (roster.map device).filter fun id => !membership.contains id) := by
  induction roster generalizing stale with
  | nil => simp
  | cons member roster ih =>
    have hhead := hdevice member List.mem_cons_self
    have hstep : untrustedStep sha256 membership stale member =
        .ok (stale ++ [device member].filter fun id => !membership.contains id) := by
      unfold untrustedStep
      rw [hhead, ok_bind]
      cases hmember : membership.contains (device member) <;> simp [hmember, pure, Except.pure]
    rw [List.foldlM_cons, hstep, ok_bind, ih fun other hother =>
      hdevice other (List.mem_cons_of_mem _ hother), List.append_assoc, ← List.filter_append]
    rfl

theorem acceptFromTrusted_application {roster : List Member} {senderIndex : UInt32} :
    acceptFromTrusted sha256 roster (.applicationMessage senderIndex) membership = .ok () ↔
      ∃ member device, roster.find? (fun member => member.index = senderIndex) = some member ∧
        credentialDevice sha256 P member.signingIdentity = .ok device ∧
        membership.contains device = true := by
  unfold acceptFromTrusted senderDevice
  rw [bind_eq_ok]
  constructor
  · intro ⟨sender, hsender, haccept⟩
    obtain ⟨member, hmember, hsender⟩ := bind_eq_ok.mp hsender
    obtain ⟨device, hdevice, hsender⟩ := bind_eq_ok.mp hsender
    rw [pure_eq_ok.mp hsender, failIf_eq_ok, Bool.not_eq_true', Bool.not_eq_false] at haccept
    exact ⟨member, device, okOr_eq_ok.mp hmember, hdevice, haccept⟩
  · intro ⟨member, device, hmember, hdevice, hcontains⟩
    exact ⟨some device, bind_eq_ok.mpr ⟨member, okOr_eq_ok.mpr hmember,
      bind_eq_ok.mpr ⟨device, hdevice, rfl⟩⟩, failIf_neg _ (by simp [hcontains])⟩

end

/-! ## Along the log -/

section
variable {sha256 : Bytes → Hash} {P : Primitives} {entries : List Entry}
  {recovery : VerifyingIdentity P} {final before : Membership P}

/-- A device that was once listed is listed still, or as revoked. -/
theorem known_of_listed (h : replay sha256 entries recovery = .ok final) {n : ℕ}
    (hbefore : replay sha256 (entries.take n) recovery = .ok before) {id : DeviceId}
    (hlisted : before.contains id = true) : id ∈ final.devices ∨ id ∈ final.revoked := by
  have hmem : id ∈ before.devices := hlisted
  obtain ⟨i, -, entry, hentry, hadds⟩ := ((books_of_accepted hbefore).1.known id).mp (Or.inl hmem)
  have hi := (List.getElem?_eq_some_iff.mp hentry).1
  rw [List.length_take] at hi
  rw [List.getElem?_take_of_lt (by omega)] at hentry
  exact ((books_of_accepted h).1.known id).mpr ⟨i, by omega, entry, hentry, hadds⟩

end

/-- **The roster follows the log.** Let a log be accepted, and let every member of a roster have been
admitted under a membership that the log had at some time. Then the check of the roster succeeds and
names the devices of the members that the provider now refuses, each of which the log has removed
and not enrolled again; and an application message is accepted exactly from the members that the
provider still admits. The exception is a member whose key collides with that of its device. -/
theorem roster_checks_follow_the_log (sha256 : Bytes → Hash) (P : Primitives)
    (entries : List Entry) (recovery : VerifyingIdentity P) (final : Membership P)
    (h : replay sha256 entries recovery = .ok final) (roster : List Member)
    (hadmitted : ∀ member ∈ roster, ∃ (n : ℕ) (before : Membership P),
      replay sha256 (entries.take n) recovery = .ok before ∧
      validate sha256 before member.signingIdentity = .ok ()) :
    (∃ stale, untrustedMembers sha256 roster final = .ok stale ∧
      (∀ device, device ∈ stale ↔ ∃ member ∈ roster,
        credentialDevice sha256 P member.signingIdentity = .ok device ∧
        validate sha256 final member.signingIdentity = .error .untrustedDevice) ∧
      (∀ device ∈ stale, ∃ i, LatestBelow (RemovedAt sha256 entries recovery device)
        entries.length i ∧ final.revokedAt device = some (UInt64.ofNat i)) ∧
      ∀ message, acceptFromTrusted sha256 roster message final = .ok () ↔
        ∀ senderIndex, message = .applicationMessage senderIndex →
          ∃ member, roster.find? (fun member => member.index = senderIndex) = some member ∧
            validate sha256 final member.signingIdentity = .ok ()) ∨
    ∃ member ∈ roster, KeyCollision sha256 final member.signingIdentity := by
  by_cases hc : ∃ member ∈ roster, KeyCollision sha256 final member.signingIdentity
  · exact Or.inr hc
  · left
    have hreplayed : Replayed sha256 final := Or.inr ⟨entries, recovery, h⟩
    have hnone : ∀ member ∈ roster, ¬KeyCollision sha256 final member.signingIdentity :=
      fun member hmember hcollision => hc ⟨member, hmember, hcollision⟩
    -- every member presents a device that the log has listed
    have hdevices : ∀ member ∈ roster, ∃ device,
        credentialDevice sha256 P member.signingIdentity = .ok device ∧
          (device ∈ final.devices ∨ device ∈ final.revoked) := by
      intro member hmember
      obtain ⟨n, before, hbefore, hvalid⟩ := hadmitted member hmember
      obtain ⟨device, hdevice, hlisted⟩ := device_of_validate hvalid
      exact ⟨device, hdevice, known_of_listed h hbefore hlisted⟩
    choose! device hdevice hknown using hdevices
    have hmem : ∀ id, id ∈ (roster.map device).filter (fun id => !final.contains id) ↔
        ∃ member ∈ roster, credentialDevice sha256 P member.signingIdentity = .ok id ∧
          validate sha256 final member.signingIdentity = .error .untrustedDevice := by
      intro id
      rw [List.mem_filter, List.mem_map]
      constructor
      · intro ⟨⟨member, hmember, hid⟩, hnot⟩
        rw [← hid] at hnot ⊢
        rcases validate_of_device hreplayed (hnone member hmember) (hdevice member hmember)
          with ⟨hin, -⟩ | ⟨-, hrefused⟩
        · rw [hin] at hnot
          cases hnot
        · exact ⟨member, hmember, hdevice member hmember, hrefused⟩
      · intro ⟨member, hmember, hid, hrefused⟩
        rw [hdevice member hmember, Except.ok.injEq] at hid
        rw [← hid]
        refine ⟨⟨member, hmember, rfl⟩, ?_⟩
        rcases validate_of_device hreplayed (hnone member hmember) (hdevice member hmember)
          with ⟨-, hok⟩ | ⟨hout, -⟩
        · rw [hrefused] at hok
          cases hok
        · rw [hout]
          rfl
    refine ⟨_, untrusted_loop hdevice [], hmem, ?_, ?_⟩
    · intro id hid
      rw [List.nil_append, List.mem_filter, List.mem_map] at hid
      obtain ⟨⟨member, hmember, rfl⟩, hnot⟩ := hid
      rcases hknown member hmember with hin | hrevoked
      · have hin : final.contains (device member) = true := hin
        rw [hin] at hnot
        cases hnot
      · obtain ⟨sequence, hsequence⟩ := mem_iff_lookup.mp hrevoked
        obtain ⟨i, hlatest, hi⟩ := (books_of_accepted h).1.revoked _ sequence hsequence
        exact ⟨i, hlatest, hi ▸ hsequence⟩
    · intro message
      cases message with
      | other =>
        refine iff_of_true rfl ?_
        intro senderIndex hmessage
        cases hmessage
      | applicationMessage senderIndex =>
        rw [acceptFromTrusted_application]
        constructor
        · intro ⟨member, id, hfind, hid, hin⟩ other hother
          cases hother
          have hmember := List.mem_of_find?_eq_some hfind
          rcases validate_of_device hreplayed (hnone member hmember) hid
            with ⟨-, hok⟩ | ⟨hout, -⟩
          · exact ⟨member, hfind, hok⟩
          · rw [hin] at hout
            cases hout
        · intro hall
          obtain ⟨member, hfind, hok⟩ := hall senderIndex rfl
          obtain ⟨id, hid, hin⟩ := device_of_validate hok
          exact ⟨member, id, hfind, hid, hin⟩

/-! ## A group of three -/

namespace Sample

open Identity.Sample (digest identity device log)

/-- The laptop, the phone and the tablet. -/
def roster : List Member := [⟨0, signing 1 [9]⟩, ⟨1, signing 2 [9]⟩, ⟨2, signing 3 [9]⟩]

theorem mem_roster {member : Member} (h : member ∈ roster) :
    ∃ n : UInt8, (n = 1 ∨ n = 2 ∨ n = 3) ∧ member.signingIdentity = signing n [9] := by
  simp only [roster, List.mem_cons, List.not_mem_nil, or_false] at h
  rcases h with rfl | rfl | rfl
  · exact ⟨1, Or.inl rfl, rfl⟩
  · exact ⟨2, Or.inr (Or.inl rfl), rfl⟩
  · exact ⟨3, Or.inr (Or.inr rfl), rfl⟩

theorem credentialDevice_signing (n : UInt8) :
    credentialDevice digest Primitives.keyed (signing n [9]) = .ok (device n) := by
  have hverify : (binding n).verify (signing n [9]).signatureKey = .ok () :=
    mapErr_eq_ok.mpr (verify_sign Primitives.keyed_correct (identity n) _ _)
  unfold credentialDevice
  rw [parse_signing, ok_bind, hverify, ok_bind, device_binding]
  rfl

theorem no_keyCollision {k : ℕ} (hk : k ≤ 6) (n : UInt8) :
    ¬KeyCollision digest (membership k) (signing n [9]) := by
  rintro ⟨found, trusted, hparse, hget, hc⟩
  rw [parse_signing, Except.ok.injEq] at hparse
  rw [← hparse, device_binding] at hget
  rw [← hparse] at hc
  exact not_collides hk hget hc

/-- What the provider says of a device. -/
theorem validate_signing {k : ℕ} (hk : k ≤ 6) (n : UInt8) :
    ((membership k).contains (device n) = true ∧
      validate digest (membership k) (signing n [9]) = .ok ()) ∨
    ((membership k).contains (device n) = false ∧
      validate digest (membership k) (signing n [9]) = .error .untrustedDevice) :=
  validate_of_device (replayed k) (no_keyCollision hk n) (credentialDevice_signing n)

theorem contains_membership {k : ℕ} (n : UInt8) :
    (membership k).contains (device n) = (Identity.Sample.standing k (device n)).isSome := by
  rw [contains_eq_isSome, membership, Identity.Sample.get_log]

/-- Each of them was admitted when the log was so long. -/
theorem admitted {member : Member} (h : member ∈ roster) :
    ∃ (n : ℕ) (before : Membership Primitives.keyed),
      replay digest ((log 5).entries.take n) (Identity.Sample.key 9) = .ok before ∧
      validate digest before member.signingIdentity = .ok () := by
  have hat : ∀ (k : ℕ) (n : UInt8), k ≤ 5 → (Identity.Sample.standing k (device n)).isSome = true →
      ∃ (m : ℕ) (before : Membership Primitives.keyed),
        replay digest ((log 5).entries.take m) (Identity.Sample.key 9) = .ok before ∧
        validate digest before (signing n [9]) = .ok () := by
    intro k n hk hin
    rw [← contains_membership] at hin
    refine ⟨k + 1, membership k, ?_, ?_⟩
    · rw [@Identity.Sample.take_log k 5 hk (by omega)]
      exact Identity.Sample.replay_log k
    · rcases @validate_signing k (by omega) n with ⟨-, hok⟩ | ⟨hout, -⟩
      · exact hok
      · rw [hin] at hout
        cases hout
  obtain ⟨n, hn, hsigning⟩ := mem_roster h
  rw [hsigning]
  rcases hn with rfl | rfl | rfl
  · exact hat 0 1 (by omega) (by
      simp [Identity.Sample.standing, Call.effects, Standing.founded])
  · exact hat 3 2 (by omega) (by
      simp [Identity.Sample.standing, Identity.Sample.calls, Call.effects, Call.effect])
  · exact hat 4 3 (by omega) (by
      simp [Identity.Sample.standing, Identity.Sample.calls, Call.effects, Call.effect])

end Sample

/-- The theorem at the sample identity: the laptop, the phone and the tablet were admitted one after
the other, and the phone has revoked itself. -/
theorem roster_checks_follow_the_log_removed :
    ∃ stale, untrustedMembers Sample.digest Sample.roster (Sample.membership 5) = .ok stale ∧
      Sample.device 2 ∈ stale ∧ Sample.device 1 ∉ stale ∧ Sample.device 3 ∉ stale ∧
      (Sample.membership 5).revokedAt (Sample.device 2) = some 5 ∧
      acceptFromTrusted Sample.digest Sample.roster (.applicationMessage 1) (Sample.membership 5) ≠
        .ok () ∧
      acceptFromTrusted Sample.digest Sample.roster (.applicationMessage 2) (Sample.membership 5) =
        .ok () := by
  have hreplay := Sample.replay_log 5
  have hnone : ¬∃ member ∈ Sample.roster,
      KeyCollision Sample.digest (Sample.membership 5) member.signingIdentity := by
    rintro ⟨member, hmember, hc⟩
    obtain ⟨n, -, hsigning⟩ := Sample.mem_roster hmember
    rw [hsigning] at hc
    exact Sample.no_keyCollision (by omega) n hc
  obtain ⟨stale, hstale, hmem, hremoved, haccept⟩ := (roster_checks_follow_the_log Sample.digest
    Primitives.keyed (Sample.log 5).entries (Sample.key 9) (Sample.membership 5) hreplay
    Sample.roster (fun _ => Sample.admitted)).resolve_right hnone
  rw [Sample.length_log (by omega)] at hremoved
  have hout : (Sample.membership 5).contains (Sample.device 2) = false := by
    rw [Sample.contains_membership]
    simp [Sample.standing, Sample.calls, Call.effects, Call.effect]
  have hin : ∀ n : UInt8, n = 1 ∨ n = 3 →
      (Sample.membership 5).contains (Sample.device n) = true := by
    rintro n (rfl | rfl)
    all_goals
      rw [Sample.contains_membership]
      simp [Sample.standing, Sample.calls, Call.effects, Call.effect, Standing.founded,
        Sample.device_inj]
  have hphone : validate Sample.digest (Sample.membership 5) (Sample.signing 2 [9]) =
      .error .untrustedDevice := by
    rcases @Sample.validate_signing 5 (by omega) 2 with ⟨hlisted, -⟩ | ⟨-, herror⟩
    · rw [hout] at hlisted
      cases hlisted
    · exact herror
  have hstay : ∀ n : UInt8, n = 1 ∨ n = 3 → Sample.device n ∉ stale := by
    intro n hn hstale
    obtain ⟨i, -, hrevoked⟩ := hremoved _ hstale
    exact (books_of_accepted hreplay).1.disjoint _ (contains_iff_mem.mp (hin n hn))
      (mem_iff_lookup.mpr ⟨_, hrevoked⟩)
  have hstale2 : Sample.device 2 ∈ stale := (hmem _).mpr ⟨⟨1, Sample.signing 2 [9]⟩,
    by simp [Sample.roster], Sample.credentialDevice_signing 2, hphone⟩
  refine ⟨stale, hstale, hstale2, hstay 1 (Or.inl rfl), hstay 3 (Or.inr rfl), ?_, ?_, ?_⟩
  · -- the entry that removed it is the last one of the log
    obtain ⟨i, hlatest, hrevoked⟩ := hremoved _ hstale2
    obtain ⟨entry, hentry, hrevoke, -⟩ := @Sample.entry_log 5 5 _ rfl
    rw [hlatest.unique (.here ⟨entry, hentry, Or.inl hrevoke⟩)] at hrevoked
    exact hrevoked
  · intro hok
    obtain ⟨member, hfind, hvalid⟩ := (haccept _).mp hok 1 rfl
    obtain rfl : ⟨1, Sample.signing 2 [9]⟩ = member := by
      simpa [Sample.roster, List.find?] using hfind
    rw [hphone] at hvalid
    cases hvalid
  · refine (haccept _).mpr ?_
    intro senderIndex hsender
    obtain rfl : 2 = senderIndex := ReceivedMessage.applicationMessage.inj hsender
    refine ⟨⟨2, Sample.signing 3 [9]⟩, by simp [Sample.roster, List.find?], ?_⟩
    rcases @Sample.validate_signing 5 (by omega) 3 with ⟨-, hok⟩ | ⟨hlisted, -⟩
    · exact hok
    · rw [hin 3 (Or.inr rfl)] at hlisted
      cases hlisted

end HideProtocol.Mls
