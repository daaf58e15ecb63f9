import HideProtocol.Identity.History

/-!
# Membership bookkeeping

What the two maps of a membership say about the log that produced it. `Books` is the invariant,
stated over positions in the log: who was introduced where, who was removed where, and which of
these is the latest. Three kinds of change keep it (`Books.add`, `Books.remove`,
`Books.replace`): a device is added, one is removed, or all are replaced by one; each is
described by what it does to a lookup, so that re-enrolment, self-revocation and recovery onto
a member or a revoked device are cases of one argument.
-/

namespace HideProtocol.Identity

open Lib Sign

variable {sha256 : Bytes → Hash} {P : Primitives}

/-! ## Positions -/

variable (sha256 P) in
/-- Entry `i` is a `create`, `enrol` or `recover` of the device `id`. -/
def IntroducedAt (entries : List Entry) (id : DeviceId) (i : ℕ) : Prop :=
  ∃ entry, entries[i]? = some entry ∧ entry.event.Adds sha256 P id

variable (sha256) in
/-- Entry `i` is a `revoke` of `id`, or a `recover` while `id` was a member. -/
def RemovedAt (entries : List Entry) (recovery : VerifyingIdentity P) (id : DeviceId) (i : ℕ) :
    Prop :=
  ∃ entry, entries[i]? = some entry ∧
    (entry.event = .revoke id ∨
      (∃ device label, entry.event = .recover device label) ∧
        ∃ before, replay sha256 (entries.take i) recovery = .ok before ∧
          before.contains id = true)

variable (sha256) in
/-- What the membership after the first `n` entries records about them. -/
structure Books (entries : List Entry) (recovery : VerifyingIdentity P) (n : ℕ)
    (membership : Membership P) : Prop where
  disjoint : ∀ id, id ∈ membership.devices → id ∉ membership.revoked
  known : ∀ id, id ∈ membership.devices ∨ id ∈ membership.revoked ↔
    ∃ i < n, IntroducedAt sha256 P entries id i
  enrolled : ∀ id device, membership.devices[id]? = some device →
    device.id = id ∧ device.id = deviceId sha256 device.key ∧
      ∃ i, LatestBelow (IntroducedAt sha256 P entries id) n i ∧
        device.enrolledAt = UInt64.ofNat i
  revoked : ∀ id sequence, membership.revoked[id]? = some sequence →
    ∃ i, LatestBelow (RemovedAt sha256 entries recovery id) n i ∧ sequence = UInt64.ofNat i

/-! ## Three kinds of change -/

section Change
variable {entries : List Entry} {recovery : VerifyingIdentity P} {n : ℕ}
  {membership membership' : Membership P} {id : DeviceId}

/-- A device is added, and struck from the revoked ones (`create`, `enrol`). -/
theorem Books.add (h : Books sha256 entries recovery n membership) (device : Device P)
    (hintro : ∀ d, IntroducedAt sha256 P entries d n ↔ d = id)
    (hremove : ∀ d, ¬RemovedAt sha256 entries recovery d n)
    (hid : device.id = id) (hkey : device.id = deviceId sha256 device.key)
    (hat : device.enrolledAt = UInt64.ofNat n)
    (hdevices : ∀ d, membership'.devices[d]? =
      if d = id then some device else membership.devices[d]?)
    (hrevoked : ∀ d, membership'.revoked[d]? =
      if d = id then none else membership.revoked[d]?) :
    Books sha256 entries recovery (n + 1) membership' where
  disjoint d hd := by
    rw [mem_iff_lookup, hdevices] at hd
    rw [mem_iff_lookup, hrevoked]
    by_cases heq : d = id
    · simp [heq]
    · rw [if_neg heq, ← mem_iff_lookup] at hd ⊢
      exact h.disjoint d hd
  known d := by
    rw [exists_below_succ, hintro, ← h.known d]
    simp only [mem_iff_lookup, hdevices, hrevoked]
    by_cases heq : d = id
    · simp [heq]
    · simp [heq]
  enrolled d device' hd := by
    rw [hdevices] at hd
    by_cases heq : d = id
    · rw [if_pos heq, Option.some.injEq] at hd
      rw [← hd]
      exact ⟨hid.trans heq.symm, hkey, n, .here ((hintro d).mpr heq), hat⟩
    · rw [if_neg heq] at hd
      obtain ⟨h₁, h₂, i, hlatest, hseq⟩ := h.enrolled d device' hd
      exact ⟨h₁, h₂, i, hlatest.step (mt (hintro d).mp heq), hseq⟩
  revoked d sequence hd := by
    rw [hrevoked] at hd
    by_cases heq : d = id
    · rw [if_pos heq] at hd
      cases hd
    · rw [if_neg heq] at hd
      obtain ⟨i, hlatest, hseq⟩ := h.revoked d sequence hd
      exact ⟨i, hlatest.step (hremove d), hseq⟩

/-- A member is removed (`revoke`). -/
theorem Books.remove (h : Books sha256 entries recovery n membership)
    (hintro : ∀ d, ¬IntroducedAt sha256 P entries d n)
    (hremove : ∀ d, RemovedAt sha256 entries recovery d n ↔ d = id)
    (hmember : id ∈ membership.devices)
    (hdevices : ∀ d, membership'.devices[d]? =
      if d = id then none else membership.devices[d]?)
    (hrevoked : ∀ d, membership'.revoked[d]? =
      if d = id then some (UInt64.ofNat n) else membership.revoked[d]?) :
    Books sha256 entries recovery (n + 1) membership' where
  disjoint d hd := by
    rw [mem_iff_lookup, hdevices] at hd
    rw [mem_iff_lookup, hrevoked]
    by_cases heq : d = id
    · simp [heq] at hd
    · rw [if_neg heq, ← mem_iff_lookup] at hd ⊢
      exact h.disjoint d hd
  known d := by
    rw [exists_below_succ, or_iff_left (hintro d), ← h.known d]
    by_cases heq : d = id
    · rw [heq]
      have hmem : id ∈ membership'.revoked := by simp [mem_iff_lookup, hrevoked]
      simp [hmember, hmem]
    · simp only [mem_iff_lookup, hdevices, hrevoked, if_neg heq]
  enrolled d device hd := by
    rw [hdevices] at hd
    by_cases heq : d = id
    · rw [if_pos heq] at hd
      cases hd
    · rw [if_neg heq] at hd
      obtain ⟨h₁, h₂, i, hlatest, hseq⟩ := h.enrolled d device hd
      exact ⟨h₁, h₂, i, hlatest.step (hintro d), hseq⟩
  revoked d sequence hd := by
    rw [hrevoked] at hd
    by_cases heq : d = id
    · rw [if_pos heq, Option.some.injEq] at hd
      exact ⟨n, .here ((hremove d).mpr heq), hd.symm⟩
    · rw [if_neg heq] at hd
      obtain ⟨i, hlatest, hseq⟩ := h.revoked d sequence hd
      exact ⟨i, hlatest.step (mt (hremove d).mp heq), hseq⟩

/-- Every member is replaced by one device (`recover`), which may have been a member or a
revoked one. -/
theorem Books.replace (h : Books sha256 entries recovery n membership) (device : Device P)
    (hintro : ∀ d, IntroducedAt sha256 P entries d n ↔ d = id)
    (hremove : ∀ d, RemovedAt sha256 entries recovery d n ↔ d ∈ membership.devices)
    (hid : device.id = id) (hkey : device.id = deviceId sha256 device.key)
    (hat : device.enrolledAt = UInt64.ofNat n)
    (hdevices : ∀ d, membership'.devices[d]? = if d = id then some device else none)
    (hrevoked : ∀ d, membership'.revoked[d]? =
      if d = id then none
      else if d ∈ membership.devices then some (UInt64.ofNat n) else membership.revoked[d]?) :
    Books sha256 entries recovery (n + 1) membership' where
  disjoint d hd := by
    rw [mem_iff_lookup, hdevices] at hd
    rw [mem_iff_lookup, hrevoked]
    by_cases heq : d = id
    · simp [heq]
    · simp [heq] at hd
  known d := by
    rw [exists_below_succ, hintro, ← h.known d]
    by_cases heq : d = id
    · simp [mem_iff_lookup, hdevices, heq]
    · have hout : d ∉ membership'.devices := by simp [mem_iff_lookup, hdevices, heq]
      by_cases hmem : d ∈ membership.devices
      · have hin : d ∈ membership'.revoked := by simp [mem_iff_lookup, hrevoked, heq, hmem]
        simp [hin, hmem]
      · have hsame : d ∈ membership'.revoked ↔ d ∈ membership.revoked := by
          rw [mem_iff_lookup, hrevoked, if_neg heq, if_neg hmem, ← mem_iff_lookup]
        simp [hout, hsame, hmem, heq]
  enrolled d device' hd := by
    rw [hdevices] at hd
    by_cases heq : d = id
    · rw [if_pos heq, Option.some.injEq] at hd
      rw [← hd]
      exact ⟨hid.trans heq.symm, hkey, n, .here ((hintro d).mpr heq), hat⟩
    · rw [if_neg heq] at hd
      cases hd
  revoked d sequence hd := by
    rw [hrevoked] at hd
    by_cases heq : d = id
    · rw [if_pos heq] at hd
      cases hd
    · rw [if_neg heq] at hd
      by_cases hmem : d ∈ membership.devices
      · rw [if_pos hmem, Option.some.injEq] at hd
        exact ⟨n, .here ((hremove d).mpr hmem), hd.symm⟩
      · rw [if_neg hmem] at hd
        obtain ⟨i, hlatest, hseq⟩ := h.revoked d sequence hd
        exact ⟨i, hlatest.step (mt (hremove d).mp hmem), hseq⟩

end Change

/-! ## One entry -/

/-- An adding event adds the device whose key it carries and no other. -/
theorem adds_iff {event : Event} {device : Bytes} {label : String} {sequence : Sequence}
    {key : VerifyingIdentity P} {id : DeviceId}
    (hevent : event = .create device label ∨ event = .enrol device label ∨
      event = .recover device label)
    (hkey : parseKey P device sequence = .ok key) :
    event.Adds sha256 P id ↔ id = deviceId sha256 key := by
  have hparsed := (parseKey_eq_ok.mp hkey).2
  constructor
  · intro ⟨device', label', hevent', key', hkey', hid⟩
    have hsame : device' = device := by
      rcases hevent with h | h | h <;> rcases hevent' with h' | h' | h' <;> simp_all
    rw [hsame, hparsed] at hkey'
    rw [← hid, Except.ok.inj hkey']
  · intro hid
    exact ⟨device, label, hevent, key, hparsed, hid.symm⟩

theorem contains_iff_mem {membership : Membership P} {id : DeviceId} :
    membership.contains id = true ↔ id ∈ membership.devices := Iff.rfl

section Accepted
variable {entries : List Entry} {recovery : VerifyingIdentity P} {final : Membership P} {n : ℕ}
  {entry : Entry} {before : Membership P}

theorem introducedAt_iff (hentry : entries[n]? = some entry) {id : DeviceId} :
    IntroducedAt sha256 P entries id n ↔ entry.event.Adds sha256 P id := by
  constructor
  · intro ⟨entry', hentry', hadds⟩
    rw [hentry, Option.some.injEq] at hentry'
    rwa [hentry']
  · intro hadds
    exact ⟨entry, hentry, hadds⟩

theorem removedAt_iff (hentry : entries[n]? = some entry)
    (hbefore : 0 < n → replay sha256 (entries.take n) recovery = .ok before)
    (hroot : n = 0 → ∀ device label, entry.event ≠ .recover device label) {id : DeviceId} :
    RemovedAt sha256 entries recovery id n ↔
      entry.event = .revoke id ∨
        (∃ device label, entry.event = .recover device label) ∧ id ∈ before.devices := by
  constructor
  · intro ⟨entry', hentry', hremoves⟩
    rw [hentry, Option.some.injEq] at hentry'
    subst hentry'
    rcases hremoves with hrevoke | ⟨hrecover, before', hbefore', hmem⟩
    · left
      exact hrevoke
    · right
      refine ⟨hrecover, ?_⟩
      have hn : 0 < n := by
        by_contra hzero
        obtain ⟨device, label, hevent⟩ := hrecover
        exact hroot (by omega) device label hevent
      rw [hbefore hn] at hbefore'
      rw [Except.ok.inj hbefore']
      exact contains_iff_mem.mp hmem
  · rintro (hrevoke | ⟨hrecover, hmem⟩)
    · exact ⟨entry, hentry, Or.inl hrevoke⟩
    · have hn : 0 < n := by
        by_contra hzero
        obtain ⟨device, label, hevent⟩ := hrecover
        exact hroot (by omega) device label hevent
      exact ⟨entry, hentry, Or.inr ⟨hrecover, before, hbefore hn, contains_iff_mem.mpr hmem⟩⟩

/-- The books stay right across one entry of an accepted log. -/
theorem Books.step (h : replay sha256 entries recovery = .ok final)
    (hentry : entries[n]? = some entry) (hseq : entry.sequence = UInt64.ofNat n)
    (hbefore : 0 < n → replay sha256 (entries.take n) recovery = .ok before)
    (hbooks : Books sha256 entries recovery n before) {after : Membership P}
    (hupdate : update sha256 before entry = .ok after) :
    Books sha256 entries recovery (n + 1) after := by
  -- the root is a `create`
  have hroot : n = 0 → ∃ device label, entry.event = .create device label := by
    intro hzero
    obtain ⟨first, device, label, hhead, hevent⟩ := (replay_eq_ok.mp h).1
    rw [hzero, ← List.head?_eq_getElem?, hhead, Option.some.injEq] at hentry
    exact ⟨device, label, hentry ▸ hevent⟩
  have hremoved := @removedAt_iff sha256 P entries recovery n entry before hentry hbefore
    (by
      intro hzero device label hevent
      obtain ⟨_, _, hcreate⟩ := hroot hzero
      rw [hcreate] at hevent
      cases hevent)
  rw [update_eq_ok] at hupdate
  rcases hevent : entry.event with ⟨device, label⟩ | ⟨device, label⟩ | device | ⟨device, label⟩ <;>
    simp only [hevent] at hupdate hremoved
  · -- `create`
    obtain ⟨key, hkey, rfl⟩ := hupdate
    have hzero : n = 0 := eq_zero_of_create h hentry hevent
    -- nothing precedes the root, so nothing is revoked yet
    have hnone : ∀ d : DeviceId, before.revoked[d]? = none := by
      intro d
      have hnot : d ∉ before.revoked := by
        intro hmem
        obtain ⟨i, hi, -⟩ := (hbooks.known d).mp (Or.inr hmem)
        omega
      simpa [mem_iff_lookup, Option.eq_none_iff_forall_ne_some] using hnot
    apply hbooks.add (newDevice sha256 key label entry.sequence)
      (fun d => (introducedAt_iff hentry).trans (adds_iff (Or.inl hevent) hkey)) _ rfl rfl hseq
    · intro d
      exact lookup_insert
    · intro d
      rw [hnone, ite_self]
    · intro d hd
      rcases hremoved.mp hd with hd | ⟨⟨_, _, hd⟩, -⟩ <;> cases hd
  · -- `enrol`: the device is a member from here on, revoked or not before
    obtain ⟨key, hkey, -, rfl⟩ := hupdate
    apply hbooks.add (newDevice sha256 key label entry.sequence)
      (fun d => (introducedAt_iff hentry).trans (adds_iff (Or.inr (Or.inl hevent)) hkey)) _ rfl rfl
      hseq
    · intro d
      exact lookup_insert
    · intro d
      exact lookup_erase
    · intro d hd
      rcases hremoved.mp hd with hd | ⟨⟨_, _, hd⟩, -⟩ <;> cases hd
  · -- `revoke`: a member moves to the revoked ones
    obtain ⟨hmember, -, rfl⟩ := hupdate
    apply hbooks.remove _ _ (contains_iff_mem.mp hmember) (fun d => lookup_erase)
      (fun d => by rw [← hseq]; exact lookup_insert)
    · intro d hd
      obtain ⟨_, _, hd, -⟩ := (introducedAt_iff hentry).mp hd
      rw [hevent] at hd
      rcases hd with hd | hd | hd <;> cases hd
    · intro d
      rw [hremoved]
      constructor
      · rintro (hd | ⟨⟨_, _, hd⟩, -⟩)
        · exact (Event.revoke.inj hd).symm
        · cases hd
      · intro hd
        left
        rw [hd]
  · -- `recover`: every member is revoked, and the new device is the only one
    obtain ⟨key, hkey, rfl⟩ := hupdate
    apply hbooks.replace (newDevice sha256 key label entry.sequence)
      (fun d => (introducedAt_iff hentry).trans (adds_iff (Or.inr (Or.inr hevent)) hkey)) _ rfl rfl
      hseq
    · intro d
      show ((∅ : Std.ExtTreeMap DeviceId (Device P)).insert _ _)[d]? = _
      rw [lookup_insert, Std.ExtTreeMap.getElem?_empty]
    · intro d
      show (Std.ExtTreeMap.erase (List.foldl _ _ _) _)[d]? = _
      rw [lookup_erase, lookup_foldl_insert, hseq]
      simp only [Std.ExtTreeMap.mem_keys]
    · intro d
      rw [hremoved]
      constructor
      · rintro (hd | ⟨-, hmem⟩)
        · cases hd
        · exact hmem
      · intro hmem
        right
        exact ⟨⟨device, label, rfl⟩, hmem⟩

/-- An authorised entry leaves some device trusted. -/
theorem devices_ne_empty {after : Membership P}
    (hupdate : update sha256 before entry = .ok after) : after.devices ≠ ∅ := by
  rw [update_eq_ok] at hupdate
  rcases hevent : entry.event with ⟨device, label⟩ | ⟨device, label⟩ | device | ⟨device, label⟩ <;>
    simp only [hevent] at hupdate
  · obtain ⟨key, -, rfl⟩ := hupdate
    exact Std.ExtTreeMap.insert_ne_empty
  · obtain ⟨key, -, -, rfl⟩ := hupdate
    exact Std.ExtTreeMap.insert_ne_empty
  · obtain ⟨hmember, hlen, rfl⟩ := hupdate
    intro hempty
    rcases Std.ExtTreeMap.erase_eq_empty_iff.mp hempty with hnone | ⟨hone, -⟩
    · rw [Membership.contains, hnone, Std.ExtTreeMap.contains_empty] at hmember
      cases hmember
    · exact hlen hone
  · obtain ⟨key, -, rfl⟩ := hupdate
    exact Std.ExtTreeMap.insert_ne_empty

/-! ## Whole logs -/

/-- After each prefix of an accepted log the books are right, and after a non-empty one some
device is trusted. -/
theorem books_of_replay (h : replay sha256 entries recovery = .ok final) {n : ℕ}
    (hn : n ≤ entries.length) :
    ∃ state, replayLoop sha256 recovery (entries.take n) = .ok state ∧
      Books sha256 entries recovery n state.1 ∧ (0 < n → state.1.devices ≠ ∅) := by
  obtain ⟨-, -, link, hloop⟩ := replay_eq_ok.mp h
  induction n with
  | zero =>
    refine ⟨({}, zeroLink), rfl, ?_, fun h => absurd h (by omega)⟩
    constructor <;> simp
  | succ n ih =>
    obtain ⟨state, hstate, hbooks, -⟩ := ih (by omega)
    have hentry : entries[n]? = some entries[n] := List.getElem?_eq_getElem (by omega)
    obtain ⟨before, after, hbefore, hseq, happly, hafter⟩ := replayLoop_step hloop hentry
    rw [hstate, Except.ok.injEq] at hbefore
    subst hbefore
    obtain ⟨-, -, -, -, hupdate⟩ := apply_eq_ok.mp happly
    exact ⟨_, hafter,
      hbooks.step h hentry hseq (fun hn => replay_take_of_loop h hn hstate) hupdate,
      fun _ => devices_ne_empty hupdate⟩

/-- The books of a whole accepted log. -/
theorem books_of_accepted (h : replay sha256 entries recovery = .ok final) :
    Books sha256 entries recovery entries.length final ∧ final.devices ≠ ∅ := by
  obtain ⟨state, hstate, hbooks, hne⟩ := books_of_replay h (le_refl entries.length)
  obtain ⟨⟨_, _, _, hhead, _⟩, -, link, hloop⟩ := replay_eq_ok.mp h
  rw [List.take_length, hloop, Except.ok.injEq] at hstate
  subst hstate
  exact ⟨hbooks, hne (List.length_pos_of_ne_nil (by rintro rfl; cases hhead))⟩

end Accepted

/-- **Membership bookkeeping.** In the membership of an accepted log some device is trusted; no
device is both trusted and revoked, and those that are either are exactly the ones that a
`create`, `enrol` or `recover` introduced; a trusted device is listed under the id of its key
with the sequence of the latest entry that introduced it; and a revoked one with the sequence of
the latest entry that removed it. -/
theorem membership_bookkeeping (sha256 : Bytes → Hash) (P : Primitives) (entries : List Entry)
    (recovery : VerifyingIdentity P) (final : Membership P)
    (h : replay sha256 entries recovery = .ok final) :
    (∃ id, final.contains id = true) ∧
    (∀ id, ¬(id ∈ final.devices ∧ id ∈ final.revoked)) ∧
    (∀ id, id ∈ final.devices ∨ id ∈ final.revoked ↔
      ∃ i, IntroducedAt sha256 P entries id i) ∧
    (∀ id device, final.get id = some device →
      device.id = id ∧ device.id = deviceId sha256 device.key ∧
      ∃ i entry, LatestBelow (IntroducedAt sha256 P entries id) entries.length i ∧
        entries[i]? = some entry ∧ device.enrolledAt = entry.sequence) ∧
    (∀ id sequence, final.revokedAt id = some sequence →
      ∃ i entry, LatestBelow (RemovedAt sha256 entries recovery id) entries.length i ∧
        entries[i]? = some entry ∧ sequence = entry.sequence) := by
  have ⟨hbooks, hne⟩ := books_of_accepted h
  -- a position in the log holds an entry, whose sequence it is
  have hat : ∀ i < entries.length, ∃ entry, entries[i]? = some entry ∧
      entry.sequence = UInt64.ofNat i := by
    intro i hi
    have hentry := List.getElem?_eq_getElem hi
    exact ⟨entries[i], hentry, (entry_of_replay h hentry).2.2.1⟩
  refine ⟨?_, ?_, ?_, ?_, ?_⟩
  · by_contra hnone
    apply hne
    rw [Std.ExtTreeMap.eq_empty_iff_forall_not_mem]
    intro id hid
    exact hnone ⟨id, hid⟩
  · intro id ⟨hdevice, hrevoked⟩
    exact hbooks.disjoint id hdevice hrevoked
  · intro id
    rw [hbooks.known id]
    constructor
    · intro ⟨i, _, hi⟩
      exact ⟨i, hi⟩
    · intro ⟨i, hi⟩
      obtain ⟨entry, hentry, hadds⟩ := hi
      exact ⟨i, (List.getElem?_eq_some_iff.mp hentry).1, entry, hentry, hadds⟩
  · intro id device hdevice
    obtain ⟨hid, hkey, i, hlatest, hseq⟩ := hbooks.enrolled id device hdevice
    obtain ⟨entry, hentry, hentrySeq⟩ := hat i hlatest.1
    exact ⟨hid, hkey, i, entry, hlatest, hentry, hseq.trans hentrySeq.symm⟩
  · intro id sequence hsequence
    obtain ⟨i, hlatest, hseq⟩ := hbooks.revoked id sequence hsequence
    obtain ⟨entry, hentry, hentrySeq⟩ := hat i hlatest.1
    exact ⟨i, entry, hlatest, hentry, hseq.trans hentrySeq.symm⟩

namespace Sample

/-- The laptop and the tablet were there when the recovery key replaced every device. -/
theorem removed_by_recovery {n : UInt8} (h : (standing 5 (device n)).isSome) :
    LatestBelow (RemovedAt digest (log 6).entries (key 9) (device n)) 7 6 := by
  obtain ⟨entry, hentry, hevent, -⟩ := @entry_log 6 6 _ rfl
  refine ⟨by omega, ⟨entry, hentry, Or.inr ⟨⟨_, _, hevent⟩, (log 5).membership digest, ?_, ?_⟩⟩, ?_⟩
  · rw [take_log (by omega) (le_refl 6)]
    exact replay_log 5
  · rw [contains_eq_isSome, get_log, h]
  · intro j hj hlt
    omega

/-- The phone was not, and had removed itself in the entry before. -/
theorem removed_by_itself :
    LatestBelow (RemovedAt digest (log 6).entries (key 9) (device 2)) 7 5 := by
  obtain ⟨last, hlast, hrevoke, -⟩ := @entry_log 6 5 _ rfl
  refine ⟨by omega, ⟨last, hlast, Or.inl hrevoke⟩, ?_⟩
  intro j hj hlt hremoved
  obtain rfl : j = 6 := by omega
  obtain ⟨entry, hentry, hevent, -⟩ := @entry_log 6 6 _ rfl
  obtain ⟨entry', hentry', hremoves⟩ := hremoved
  rw [hentry, Option.some.injEq] at hentry'
  rw [← hentry', hevent] at hremoves
  rcases hremoves with hrevoke | ⟨-, before, hbefore, hmember⟩
  · cases hrevoke
  · rw [take_log (by omega) (le_refl 6), replay_log 5, Except.ok.injEq] at hbefore
    rw [← hbefore, contains_eq_isSome, get_log] at hmember
    simp [standing, calls, Call.effects, Call.effect, Standing.founded] at hmember

end Sample

/-- The theorem at the sample identity: the phone was enrolled twice and removed itself, the recovery
removed the laptop and the tablet, and the desktop is what is left. -/
theorem membership_bookkeeping_recovered :
    ∃ final, replay Sample.digest (Sample.log 6).entries (Sample.key 9) = .ok final ∧
      (∃ id, final.contains id = true) ∧
      (∀ id, ¬(id ∈ final.devices ∧ id ∈ final.revoked)) ∧
      (∃ device, final.get (Sample.device 4) = some device ∧ device.enrolledAt = 6) ∧
      final.revokedAt (Sample.device 2) = some 5 ∧ final.revokedAt (Sample.device 1) = some 6 ∧
      final.revokedAt (Sample.device 3) = some 6 := by
  have hfinal := Sample.replay_log 6
  have ⟨hsome, hdisjoint, hknown, hdevices, hrevoked⟩ :=
    membership_bookkeeping Sample.digest _ _ _ _ hfinal
  rw [Sample.length_log (le_refl 6)] at hdevices hrevoked
  have hat : ∀ {i : ℕ} {entry : Entry}, (Sample.log 6).entries[i]? = some entry →
      entry.sequence = UInt64.ofNat i := fun hentry => (entry_of_replay hfinal hentry).2.2.1
  -- whoever was introduced and is not trusted is revoked, where it was removed last
  have hgone : ∀ (n : UInt8) (i p : ℕ) (act : Event × DeviceId), (Sample.acts 6)[i]? = some act →
      act.1.Adds Sample.digest Primitives.keyed (Sample.device n) →
      Sample.standing 6 (Sample.device n) = none →
      LatestBelow (RemovedAt Sample.digest (Sample.log 6).entries (Sample.key 9) (Sample.device n)) 7
        p →
      ((Sample.log 6).membership Sample.digest).revokedAt (Sample.device n) =
        some (UInt64.ofNat p) := by
    intro n i p act hact hadds hout hlatest
    obtain ⟨entry, hentry, hevent, -⟩ := Sample.entry_log hact
    have hnot : Sample.device n ∉ ((Sample.log 6).membership Sample.digest).devices := by
      rw [← contains_iff_mem, contains_eq_isSome, Sample.get_log, hout]
      decide
    obtain ⟨sequence, hsequence⟩ := mem_iff_lookup.mp
      (((hknown _).mpr ⟨i, entry, hentry, hevent ▸ hadds⟩).resolve_left hnot)
    obtain ⟨j, removing, hlatest', hremoving, hseq⟩ := hrevoked _ _ hsequence
    rw [hlatest.unique hlatest']
    exact hsequence.trans (congrArg some (hseq.trans (hat hremoving)))
  have hadds : ∀ (n : UInt8) (event : Event) (label : String),
      event = .create (Sample.key n).toBytes.toList label ∨
        event = .enrol (Sample.key n).toBytes.toList label →
      event.Adds Sample.digest Primitives.keyed (Sample.device n) := by
    intro n event label hevent
    exact ⟨_, label, hevent.imp_right Or.inl, Sample.key n,
      VerifyingIdentity.fromBytes_toBytes _, Sample.deviceId_key n⟩
  refine ⟨_, hfinal, hsome, hdisjoint, ?_, ?_, ?_, ?_⟩
  · -- the desktop is trusted from the recovery on
    obtain ⟨device, hdevice⟩ : ∃ device, Sample.standing 6 (Sample.device 4) = some device := by
      simp [Sample.standing, Sample.calls, Call.effects, Call.effect, Standing.founded]
    rw [← Sample.get_log] at hdevice
    obtain ⟨-, -, i, entry, hlatest, hentry, hseq⟩ := hdevices _ _ hdevice
    obtain ⟨recovering, hrecovering, hevent, -⟩ := @Sample.entry_log 6 6 _ rfl
    have hhere : LatestBelow (IntroducedAt Sample.digest Primitives.keyed (Sample.log 6).entries
        (Sample.device 4)) 7 6 :=
      .here ⟨recovering, hrecovering, _, _, Or.inr (Or.inr hevent), Sample.key 4,
        VerifyingIdentity.fromBytes_toBytes _, Sample.deviceId_key 4⟩
    rw [hlatest.unique hhere] at hentry
    exact ⟨device, hdevice, hseq.trans (hat hentry)⟩
  · refine hgone 2 1 5 _ rfl (hadds 2 _ _ (Or.inr rfl)) ?_ Sample.removed_by_itself
    simp [Sample.standing, Sample.calls, Call.effects, Call.effect, Standing.founded,
      Sample.device_inj]
  · refine hgone 1 0 6 _ rfl (hadds 1 _ _ (Or.inl rfl)) ?_ (Sample.removed_by_recovery ?_)
    all_goals
      simp [Sample.standing, Sample.calls, Call.effects, Call.effect, Standing.founded,
        Sample.device_inj]
  · refine hgone 3 4 6 _ rfl (hadds 3 _ _ (Or.inr rfl)) ?_ (Sample.removed_by_recovery ?_)
    all_goals
      simp [Sample.standing, Sample.calls, Call.effects, Call.effect, Standing.founded,
        Sample.device_inj]

end HideProtocol.Identity
