import HideProtocol.Identity.Local

/-!
# Authority at the entry's own position

Every entry of an accepted log is signed by a key that the entries before it authorise, and so a
device that was removed signs again only after someone else has added it back.
-/

namespace HideProtocol.Identity

open Lib Sign

variable {sha256 : Bytes → Hash} {P : Primitives}

/-! ## Authority -/

variable (sha256) in
/-- Entry `i` verifies under a key that its position allows: its own for a `create`, which only
stands at the root; the recovery key for a `recover`; otherwise that of a device in the
membership the entries before it produce. -/
def AuthorisedAt (entries : List Entry) (recovery : VerifyingIdentity P) (i : ℕ)
    (entry : Entry) : Prop :=
  match entry.event with
  | .create device _ => i = 0 ∧ ∃ key, VerifyingIdentity.fromBytes P device = .ok key ∧
      deviceId sha256 key = entry.signer ∧ Verifies key (linkBefore entries i) entry
  | .recover _ _ =>
      deviceId sha256 recovery = entry.signer ∧ Verifies recovery (linkBefore entries i) entry
  | .enrol _ _ | .revoke _ => ∃ membership device,
      replay sha256 (entries.take i) recovery = .ok membership ∧
      membership.get entry.signer = some device ∧
      Verifies device.key (linkBefore entries i) entry

variable (sha256) in
/-- Entry `n` takes `id` out of the membership. -/
def RemovedBy (entries : List Entry) (recovery : VerifyingIdentity P) (id : DeviceId) (n : ℕ) :
    Prop :=
  ∃ before after, replay sha256 (entries.take n) recovery = .ok before ∧
    replay sha256 (entries.take (n + 1)) recovery = .ok after ∧
    before.contains id = true ∧ after.contains id = false

section Accepted
variable {entries : List Entry} {recovery : VerifyingIdentity P} {final : Membership P}

theorem sequence_ne_zero {i : ℕ} (hi : 0 < i) (hle : i < maxEntries) : UInt64.ofNat i ≠ 0 := by
  intro h
  have := congrArg UInt64.toNat h
  rw [UInt64.toNat_ofNat_of_lt' (by unfold maxEntries at hle; simp [UInt64.size]; omega)] at this
  simp at this
  omega

/-- In an accepted log every entry after the root is something else than a `create`. -/
theorem eq_zero_of_create (h : replay sha256 entries recovery = .ok final) {i : ℕ} {entry : Entry}
    (hentry : entries[i]? = some entry) {device : Bytes} {label : String}
    (hevent : entry.event = .create device label) : i = 0 := by
  obtain ⟨before, after, -, hseq, happly, -⟩ := replay_step h hentry
  obtain ⟨-, -, -, ⟨author, hauthor, -⟩, -⟩ := apply_eq_ok.mp happly
  rw [authorOf_eq_ok, hevent] at hauthor
  by_contra hne
  have hlt := (List.getElem?_eq_some_iff.mp hentry).1
  have hlen := (replay_eq_ok.mp h).2.1
  exact sequence_ne_zero (by omega) (by omega) (hseq.symm.trans hauthor.1)

theorem authorisedAt_of_replay (h : replay sha256 entries recovery = .ok final) {i : ℕ}
    {entry : Entry} (hentry : entries[i]? = some entry) :
    AuthorisedAt sha256 entries recovery i entry := by
  obtain ⟨before, after, hbefore, -, happly, -⟩ := replay_step h hentry
  obtain ⟨-, -, -, ⟨author, hauthor, hverify⟩, -⟩ := apply_eq_ok.mp happly
  have hroot : ∀ device label, entry.event = .create device label → i = 0 :=
    fun _ _ hevent => eq_zero_of_create h hentry hevent
  -- only the root is not preceded by a log that replays
  have hpos : (∀ device label, entry.event ≠ .create device label) → 0 < i := by
    intro hne
    by_contra hzero
    have hi : i = 0 := by omega
    subst hi
    obtain ⟨first, device, label, hhead, hevent⟩ := (replay_eq_ok.mp h).1
    rw [List.head?_eq_getElem?, hentry, Option.some.injEq] at hhead
    exact hne device label (hhead ▸ hevent)
  unfold AuthorisedAt
  rw [authorOf_eq_ok] at hauthor
  rcases hevent : entry.event with ⟨device, label⟩ | _ | _ | _
  · rw [hevent] at hauthor
    exact ⟨hroot device label hevent, author, (parseKey_eq_ok.mp hauthor.2.1).2, hauthor.2.2,
      hverify⟩
  · rw [hevent] at hauthor
    obtain ⟨device, hget, rfl⟩ := hauthor
    exact ⟨before, device, hbefore (hpos (by simp [hevent])), hget, hverify⟩
  · rw [hevent] at hauthor
    obtain ⟨device, hget, rfl⟩ := hauthor
    exact ⟨before, device, hbefore (hpos (by simp [hevent])), hget, hverify⟩
  · rw [hevent] at hauthor
    obtain ⟨hid, rfl⟩ := hauthor
    exact ⟨hid, hverify⟩

/-- An entry after the root is signed by the recovery key or by a device trusted right before
it. -/
theorem signer_trusted (h : replay sha256 entries recovery = .ok final) {i : ℕ} {entry : Entry}
    (hentry : entries[i]? = some entry) (hi : 0 < i)
    (hsigner : entry.signer ≠ deviceId sha256 recovery) :
    ∃ before, replay sha256 (entries.take i) recovery = .ok before ∧
      before.contains entry.signer = true := by
  have hauth := authorisedAt_of_replay h hentry
  unfold AuthorisedAt at hauth
  rcases hevent : entry.event with _ | _ | _ | _ <;> rw [hevent] at hauth
  · exact absurd hauth.1 (by omega)
  · obtain ⟨before, device, hbefore, hget, -⟩ := hauth
    refine ⟨before, hbefore, ?_⟩
    rw [Membership.contains, Std.ExtTreeMap.contains_eq_isSome_getElem?]
    exact Option.isSome_iff_exists.mpr ⟨device, hget⟩
  · obtain ⟨before, device, hbefore, hget, -⟩ := hauth
    refine ⟨before, hbefore, ?_⟩
    rw [Membership.contains, Std.ExtTreeMap.contains_eq_isSome_getElem?]
    exact Option.isSome_iff_exists.mpr ⟨device, hget⟩
  · exact absurd hauth.1.symm hsigner

/-- A device that an entry after the root brings into the membership did not sign that entry,
unless it is the recovery key. -/
theorem added_by_other (h : replay sha256 entries recovery = .ok final) {k : ℕ} {id : DeviceId}
    (hk : 0 < k) (hid : id ≠ deviceId sha256 recovery)
    {before after : Membership P} (hbefore : replay sha256 (entries.take k) recovery = .ok before)
    (hafter : replay sha256 (entries.take (k + 1)) recovery = .ok after)
    (hout : before.contains id = false) (hin : after.contains id = true) :
    ∃ entry, entries[k]? = some entry ∧ entry.signer ≠ id ∧
      (∃ device label, (entry.event = .enrol device label ∨ entry.event = .recover device label) ∧
        ∃ key, VerifyingIdentity.fromBytes P device = .ok key ∧ deviceId sha256 key = id) := by
  have hlt : k < entries.length := by
    by_contra hge
    -- past the end both prefixes are the whole log
    rw [List.take_of_length_le (by omega)] at hbefore hafter
    rw [Except.ok.inj (hbefore.symm.trans hafter), hin] at hout
    cases hout
  have hentry : entries[k]? = some entries[k] := List.getElem?_eq_getElem hlt
  obtain ⟨before', after', hbefore', -, happly, hafter'⟩ := replay_step h hentry
  have hb : before = before' := Except.ok.inj (hbefore.symm.trans (hbefore' hk))
  have ha : after = after' := Except.ok.inj (hafter.symm.trans hafter')
  subst hb ha
  obtain ⟨-, -, -, -, hupdate⟩ := apply_eq_ok.mp happly
  rcases update_contains hupdate hin with hold | ⟨device, label, hevent, hadds⟩
  · rw [hout] at hold
    cases hold
  · refine ⟨entries[k], hentry, ?_, device, label, ?_, hadds⟩
    · intro hsigner
      obtain ⟨trusted, htrusted, hcontains⟩ := signer_trusted h hentry hk (hsigner ▸ hid)
      rw [← Except.ok.inj (hbefore.symm.trans htrusted), hsigner, hout] at hcontains
      cases hcontains
    · rcases hevent with hevent | hevent
      · exact absurd (eq_zero_of_create h hentry hevent) (by omega)
      · exact hevent

end Accepted

/-- **Authority is evaluated at the entry's own position.** In an accepted log every entry is
authorised by what precedes it; and a device removed by entry `n`, other than the recovery
key, signs a later entry `m` only if some entry between them, signed by somebody else, enrolled
it or recovered to it. -/
theorem replay_authority (sha256 : Bytes → Hash) (P : Primitives) (entries : List Entry)
    (recovery : VerifyingIdentity P) (final : Membership P)
    (h : replay sha256 entries recovery = .ok final) :
    (∀ i entry, entries[i]? = some entry → AuthorisedAt sha256 entries recovery i entry) ∧
    ∀ id n m entry, id ≠ deviceId sha256 recovery → RemovedBy sha256 entries recovery id n →
      n < m → entries[m]? = some entry → entry.signer = id →
      ∃ k adding, n < k ∧ k < m ∧ entries[k]? = some adding ∧ adding.signer ≠ id ∧
        ∃ device label,
          (adding.event = .enrol device label ∨ adding.event = .recover device label) ∧
          ∃ key, VerifyingIdentity.fromBytes P device = .ok key ∧ deviceId sha256 key = id := by
  constructor
  · intro i entry hentry
    exact authorisedAt_of_replay h hentry
  · intro id n m entry hid hremoved hnm hentry hsigner
    obtain ⟨-, gone, -, hgone, -, hout⟩ := hremoved
    obtain ⟨trusted, htrusted, hin⟩ := signer_trusted h hentry (by omega) (hsigner ▸ hid)
    rw [hsigner] at hin
    -- absent after entry `n` and present before entry `m`: some entry between brought it in
    have hturn := exists_turn
      (p := fun j => ∃ membership, replay sha256 (entries.take j) recovery = .ok membership ∧
        membership.contains id = true) (show n + 1 ≤ m by omega)
      (by
        intro ⟨membership, hmembership, hcontains⟩
        rw [← Except.ok.inj (hgone.symm.trans hmembership), hout] at hcontains
        cases hcontains)
      ⟨trusted, htrusted, hin⟩
    obtain ⟨k, hnk, hkm, hbefore, after, hafter, hcontains⟩ := hturn
    have hlt : k < entries.length := by
      have := (List.getElem?_eq_some_iff.mp hentry).1
      omega
    obtain ⟨before, -, hreplay, -⟩ := replay_step h (List.getElem?_eq_getElem hlt)
    have hreplay := hreplay (by omega)
    have hnotin : before.contains id = false := by
      by_contra hne
      exact hbefore ⟨before, hreplay, by simpa using hne⟩
    obtain ⟨adding, hadding, hother, hadds⟩ :=
      added_by_other h (by omega) hid hreplay hafter hnotin hcontains
    exact ⟨k, adding, by omega, hkm, hadding, hother, hadds⟩

/-- The theorem at the sample identity: its seven entries are authorised, and between the removal
of the phone and the entry it signs after it stands one that enrols it again. -/
theorem replay_authority_removed_and_enrolled :
    let entries := (Sample.log 6).entries
    entries.map (fun entry => entry.event.tag) = [1, 2, 3, 2, 2, 3, 4] ∧
    (∀ i entry, entries[i]? = some entry →
      AuthorisedAt Sample.digest entries (Sample.key 9) i entry) ∧
    RemovedBy Sample.digest entries (Sample.key 9) (Sample.device 2) 2 ∧
    ∃ entry, entries[4]? = some entry ∧ entry.signer = Sample.device 2 ∧
      ∃ adding, entries[3]? = some adding ∧ adding.signer ≠ Sample.device 2 ∧
        ∃ device label,
          (adding.event = .enrol device label ∨ adding.event = .recover device label) ∧
          ∃ key, VerifyingIdentity.fromBytes Primitives.keyed device = .ok key ∧
            deviceId Sample.digest key = Sample.device 2 := by
  intro entries
  have htags : entries.map (fun entry => entry.event.tag) = [1, 2, 3, 2, 2, 3, 4] := by
    have hacts := congrArg (List.map fun act => act.1.tag) (Sample.run_log 6).2
    rw [List.map_map] at hacts
    exact hacts
  have hremoved : RemovedBy Sample.digest entries (Sample.key 9) (Sample.device 2) 2 := by
    refine ⟨(Sample.log 1).membership Sample.digest, (Sample.log 2).membership Sample.digest,
      ?_, ?_, ?_, ?_⟩
    · rw [Sample.take_log (by omega) le_rfl]
      exact Sample.replay_log 1
    · rw [Sample.take_log (by omega) le_rfl]
      exact Sample.replay_log 2
    · rw [contains_eq_isSome, Sample.get_log]
      simp [Sample.standing, Sample.calls, Call.effects, Call.effect]
    · rw [contains_eq_isSome, Sample.get_log]
      simp [Sample.standing, Sample.calls, Call.effects, Call.effect]
  obtain ⟨entry, hentry, -, hsigner⟩ := Sample.entry_log (n := 6) (i := 4) rfl
  have hne : Sample.device 2 ≠ deviceId Sample.digest (Sample.key 9) := by
    rw [Sample.deviceId_key, Ne, Sample.device_inj]
    decide
  obtain ⟨hauthorised, hbetween⟩ := replay_authority Sample.digest Primitives.keyed entries
    (Sample.key 9) _ (Sample.replay_log 6)
  obtain ⟨k, adding, hk, hk', hadding⟩ :=
    hbetween _ 2 4 entry hne hremoved (by omega) hentry (hsigner.trans (Sample.deviceId_identity 2))
  obtain rfl : k = 3 := by omega
  exact ⟨htags, hauthorised, hremoved, entry, hentry, hsigner.trans (Sample.deviceId_identity 2),
    adding, hadding⟩

end HideProtocol.Identity
