import HideProtocol.Identity.BindingTheorems
import HideProtocol.Identity.Bookkeeping

/-!
# A pinned identity does not fork

The holders of an identity keep to one log: each of its keys signs the entries that log has and no
others, and the founder one recovery binding. Nobody else can sign for them, which is assumed of the
entries and of the binding that are shown and of nothing else. Whoever pins the root then sees no
second history. A log that is accepted is a prefix of the true one; only the signature of its last
entry may be another, since signatures are not unique and nothing after it has fixed the link yet.

The induction goes along the accepted log. Who may sign an entry is settled by the entries before
it, which are those of the true log; so its signer is a key of the true log, and what that key has
signed names the link before it.
-/

namespace HideProtocol.Identity

open Lib Sign

variable {sha256 : Bytes → Hash} {P : Primitives}

/-! ## The keys of a log -/

/-- The event adds the device that has this key. -/
def Event.Carries (event : Event) (key : VerifyingIdentity P) : Prop :=
  ∃ device label, (event = .create device label ∨ event = .enrol device label ∨
      event = .recover device label) ∧ VerifyingIdentity.fromBytes P device = .ok key

/-- The recovery key of a log and the keys of the devices it ever added. -/
def IdentityLog.Names (log : IdentityLog P) (key : VerifyingIdentity P) : Prop :=
  key = log.recovery ∨ ∃ entry ∈ log.entries, entry.event.Carries key

/-- No entry that is shown was forged: what verifies among them under a key of the log is an entry of
the log, in its place. -/
def KeepsTo (log : IdentityLog P) (shown : List Entry) : Prop :=
  ∀ (i : ℕ) (entry : Entry) (key : VerifyingIdentity P), shown[i]? = some entry → log.Names key →
    Verifies key (linkBefore shown i) entry →
    ∃ (j : ℕ) (other : Entry), log.entries[j]? = some other ∧
      entry.signedBytes (linkBefore shown i) = other.signedBytes (linkBefore log.entries j)

/-- The binding was not forged: if it verifies under the founder's key, it binds the log's recovery
key to the log's root. -/
def BindsTo (log : IdentityLog P) (binding : RecoveryBinding P) : Prop :=
  ∀ founder, founderKey P log.entries = .ok founder →
    founder.verify recoveryBindingContext (recoveryMessage binding.root binding.recoveryKey)
      binding.signature = .ok () →
    recoveryMessage binding.root binding.recoveryKey = recoveryMessage log.root log.recovery

/-- An extension leaves the links before as they were. -/
theorem linkBefore_of_extends {xs ys : List Entry} (h : xs <+: ys) {i : ℕ} (hi : i ≤ xs.length) :
    linkBefore xs i = linkBefore ys i := by
  obtain ⟨more, rfl⟩ := h
  match i with
  | 0 => rfl
  | i + 1 => rw [linkBefore, linkBefore, List.getElem?_append_left (by omega)]

/-- Nobody has to forge anything to show an earlier state of the log. -/
theorem keepsTo_of_initial {log : IdentityLog P} {shown : List Entry} (h : shown <+: log.entries) :
    KeepsTo log shown := by
  intro i entry key hentry _ _
  have hlt := (List.getElem?_eq_some_iff.mp hentry).1
  obtain ⟨more, hmore⟩ := h
  refine ⟨i, entry, ?_, ?_⟩
  · rw [← hmore, List.getElem?_append_left hlt]
    exact hentry
  · rw [linkBefore_of_extends ⟨more, hmore⟩ hlt.le]

/-- A device of the membership after an entry was there before it, or the entry carries its key. -/
theorem update_get {membership membership' : Membership P} {entry : Entry} {id : DeviceId}
    {device : Device P} (h : update sha256 membership entry = .ok membership')
    (hget : membership'.get id = some device) :
    membership.get id = some device ∨ entry.event.Carries device.key := by
  -- the three adding events put one device under its own id
  have hinsert : ∀ (devices : Std.ExtTreeMap DeviceId (Device P)) (key : VerifyingIdentity P)
      (bytes : Bytes) (label : String), parseKey P bytes entry.sequence = .ok key →
      (entry.event = .create bytes label ∨ entry.event = .enrol bytes label ∨
        entry.event = .recover bytes label) →
      (devices.insert (deviceId sha256 key) (newDevice sha256 key label entry.sequence))[id]? =
        some device →
      devices[id]? = some device ∨ entry.event.Carries device.key := by
    intro devices key bytes label hkey hevent hfound
    rw [Std.ExtTreeMap.getElem?_insert] at hfound
    split at hfound
    · right
      rw [← Option.some.inj hfound]
      exact ⟨bytes, label, hevent, (parseKey_eq_ok.mp hkey).2⟩
    · left
      exact hfound
  rw [update_eq_ok] at h
  unfold Membership.get at hget ⊢
  rcases hevent : entry.event with ⟨bytes, label⟩ | ⟨bytes, label⟩ | removed | ⟨bytes, label⟩ <;>
    rw [hevent] at h
  · obtain ⟨key, hkey, rfl⟩ := h
    rw [← hevent]
    exact hinsert _ key bytes label hkey (Or.inl hevent) hget
  · obtain ⟨key, hkey, -, rfl⟩ := h
    rw [← hevent]
    exact hinsert _ key bytes label hkey (Or.inr (Or.inl hevent)) hget
  · obtain ⟨-, -, rfl⟩ := h
    simp only at hget
    rw [Std.ExtTreeMap.getElem?_erase] at hget
    split at hget
    · cases hget
    · left
      exact hget
  · obtain ⟨key, hkey, rfl⟩ := h
    rcases hinsert _ key bytes label hkey (Or.inr (Or.inr hevent)) hget with hempty | hcarries
    · simp at hempty
    · right
      rw [← hevent]
      exact hcarries

/-- Every key of the membership stands in an entry. -/
theorem carries_of_get {entries : List Entry} {recovery : VerifyingIdentity P}
    {state : Membership P × Hash} (h : replayLoop sha256 recovery entries = .ok state)
    {id : DeviceId} {device : Device P} (hget : state.1.get id = some device) :
    ∃ entry ∈ entries, entry.event.Carries device.key := by
  induction entries using List.reverseRecOn generalizing state with
  | nil =>
    have hstate : state = ({}, zeroLink) := by simpa [replayLoop] using h
    rw [hstate] at hget
    simp [Membership.get] at hget
  | append_singleton entries entry ih =>
    obtain ⟨before, hbefore, -, happly, -⟩ := replayLoop_snoc.mp h
    obtain ⟨-, -, -, -, hupdate⟩ := apply_eq_ok.mp happly
    rcases update_get hupdate hget with hold | hcarries
    · obtain ⟨found, hfound, hkey⟩ := ih hbefore hold
      exact ⟨found, List.mem_append_left _ hfound, hkey⟩
    · exact ⟨entry, List.mem_append_right _ List.mem_cons_self, hcarries⟩

/-- Who signed an entry after the root: the recovery key, or a key that an entry before carries. -/
theorem author_of_replay {entries : List Entry} {recovery : VerifyingIdentity P}
    {final : Membership P} (h : replay sha256 entries recovery = .ok final) {i : ℕ} {entry : Entry}
    (hentry : entries[i]? = some entry) (hi : 0 < i) :
    ∃ key, Verifies key (linkBefore entries i) entry ∧
      (key = recovery ∨ ∃ j found, j < i ∧ entries[j]? = some found ∧ found.event.Carries key) := by
  have hdevice : ∀ membership (device : Device P),
      replay sha256 (entries.take i) recovery = .ok membership →
      membership.get entry.signer = some device →
      ∃ j found, j < i ∧ entries[j]? = some found ∧ found.event.Carries device.key := by
    intro membership device hreplay hget
    obtain ⟨-, -, link, hloop⟩ := replay_eq_ok.mp hreplay
    obtain ⟨found, hfound, hcarries⟩ := carries_of_get hloop hget
    obtain ⟨j, hj⟩ := List.getElem?_of_mem hfound
    have hlt : j < i := by
      have hlen := (List.getElem?_eq_some_iff.mp hj).1
      rw [List.length_take] at hlen
      omega
    rw [List.getElem?_take_of_lt hlt] at hj
    exact ⟨j, found, hlt, hj, hcarries⟩
  have hauth := authorisedAt_of_replay h hentry
  unfold AuthorisedAt at hauth
  rcases hevent : entry.event with ⟨bytes, label⟩ | _ | _ | _ <;> rw [hevent] at hauth
  · exact absurd hauth.1 (by omega)
  · obtain ⟨membership, device, hreplay, hget, hverify⟩ := hauth
    exact ⟨device.key, hverify, Or.inr (hdevice membership device hreplay hget)⟩
  · obtain ⟨membership, device, hreplay, hget, hverify⟩ := hauth
    exact ⟨device.key, hverify, Or.inr (hdevice membership device hreplay hget)⟩
  · exact ⟨recovery, hauth.2, Or.inl rfl⟩

/-! ## Along an accepted log -/

/-- Two entries do the same in the same place by the same signer. -/
def Entry.ActsAs (entry other : Entry) : Prop :=
  entry.sequence = other.sequence ∧ entry.event = other.event ∧ entry.signer = other.signer

section Fork
variable {log : IdentityLog P} {entries : List Entry} {final trueFinal : Membership P}
  {inputs : List Bytes}

/-- An entry of the true log stands behind each entry of an accepted one, and the two logs are equal
before it. -/
theorem entry_of_pinned (hlog : replay sha256 log.entries log.recovery = .ok trueFinal)
    (hkeeps : KeepsTo log entries) (h : replay sha256 entries log.recovery = .ok final)
    (hfirst : entries.head? = log.entries.head?) (hxs : linkInputs entries ⊆ inputs)
    (hys : linkInputs log.entries ⊆ inputs) {i : ℕ} {entry : Entry}
    (hentry : entries[i]? = some entry) :
    (∃ other, log.entries[i]? = some other ∧ entry.ActsAs other ∧
      entries.take i = log.entries.take i) ∨ Collides sha256 inputs := by
  induction i using Nat.strongRecOn generalizing entry with
  | ind i ih =>
    by_cases hzero : i = 0
    · subst hzero
      rw [← List.head?_eq_getElem?, hfirst, List.head?_eq_getElem?] at hentry
      exact Or.inl ⟨entry, hentry, ⟨rfl, rfl, rfl⟩, rfl⟩
    · obtain ⟨key, hverify, hnamed⟩ := author_of_replay h hentry (by omega)
      have hnames : log.Names key ∨ Collides sha256 inputs := by
        rcases hnamed with hrecovery | ⟨j, found, hj, hfound, hcarries⟩
        · exact Or.inl (Or.inl hrecovery)
        · rcases ih j hj hfound with ⟨other, hother, ⟨-, hevent, -⟩, -⟩ | hc
          · rw [hevent] at hcarries
            exact Or.inl (Or.inr ⟨other, List.mem_of_getElem? hother, hcarries⟩)
          · exact Or.inr hc
      rcases hnames with hnames | hc
      · obtain ⟨k, other, hother, hmessage⟩ := hkeeps i entry key hentry hnames hverify
        obtain ⟨hsized, -, hseq, -⟩ := entry_of_replay h hentry
        obtain ⟨hsized', -, hseq', -⟩ := entry_of_replay hlog hother
        have ⟨hbefore, hsequence, hevent, hsigner⟩ := signedBytes_inj hsized hsized' hmessage
        have hplace : i = k := by
          have hlen := (List.getElem?_eq_some_iff.mp hentry).1
          have hlen' := (List.getElem?_eq_some_iff.mp hother).1
          have hmax := (replay_eq_ok.mp h).2.1
          have hmax' := (replay_eq_ok.mp hlog).2.1
          exact index_of_sequence (by omega) (by omega)
            (hseq.symm.trans (hsequence.trans hseq'))
        subst hplace
        -- the link that was signed is that of the entry before, in both logs
        obtain ⟨j, rfl⟩ := Nat.exists_eq_add_one_of_ne_zero hzero
        have hlt : j < entries.length := by
          have hlen := (List.getElem?_eq_some_iff.mp hentry).1
          omega
        have hlt' : j < log.entries.length := by
          have hlen := (List.getElem?_eq_some_iff.mp hother).1
          omega
        have hx : entries[j]? = some entries[j] := List.getElem?_eq_getElem hlt
        have hy : log.entries[j]? = some log.entries[j] := List.getElem?_eq_getElem hlt'
        simp only [linkBefore, hx, hy, Option.elim_some] at hbefore
        rcases take_of_link h hlog hxs hys hx hy hbefore with htake | hc
        · exact Or.inl ⟨other, hother, ⟨hsequence, hevent, hsigner⟩, htake⟩
        · exact Or.inr hc
      · exact Or.inr hc

/-- What an entry does to the membership does not depend on its signature. -/
theorem update_congr {membership : Membership P} {entry other : Entry} (h : entry.ActsAs other) :
    update sha256 membership entry = update sha256 membership other := by
  unfold update
  rw [h.1, h.2.1]

/-- The same for all entries at once. -/
theorem entries_of_pinned (hlog : replay sha256 log.entries log.recovery = .ok trueFinal)
    (hkeeps : KeepsTo log entries) (h : replay sha256 entries log.recovery = .ok final)
    (hfirst : entries.head? = log.entries.head?) (hxs : linkInputs entries ⊆ inputs)
    (hys : linkInputs log.entries ⊆ inputs) :
    (∀ (i : ℕ) (entry : Entry), entries[i]? = some entry →
      ∃ other, log.entries[i]? = some other ∧ entry.ActsAs other) ∨ Collides sha256 inputs := by
  by_cases hc : Collides sha256 inputs
  · exact Or.inr hc
  · left
    intro i entry hentry
    obtain ⟨other, hother, hacts, -⟩ :=
      (entry_of_pinned hlog hkeeps h hfirst hxs hys hentry).resolve_right hc
    exact ⟨other, hother, hacts⟩

/-- Where an accepted log ends, its membership is that of the true log at this point. -/
theorem membership_of_pinned (hlog : replay sha256 log.entries log.recovery = .ok trueFinal)
    (hkeeps : KeepsTo log entries) (h : replay sha256 entries log.recovery = .ok final)
    (hfirst : entries.head? = log.entries.head?) (hxs : linkInputs entries ⊆ inputs)
    (hys : linkInputs log.entries ⊆ inputs) :
    (entries.length ≤ log.entries.length ∧
      entries.dropLast = log.entries.take (entries.length - 1) ∧
      replay sha256 (log.entries.take entries.length) log.recovery = .ok final) ∨
    Collides sha256 inputs := by
  rcases List.eq_nil_or_concat entries with rfl | ⟨init, last, rfl⟩
  · cases h
  · rw [List.concat_eq_append] at *
    have hlast : (init ++ [last])[init.length]? = some last := List.getElem?_concat_length
    rcases entry_of_pinned hlog hkeeps h hfirst hxs hys hlast with ⟨other, hother, hacts, htake⟩ | hc
    · left
      rw [List.take_left] at htake
      have hlen := (List.getElem?_eq_some_iff.mp hother).1
      obtain ⟨-, -, link, hloop⟩ := replay_eq_ok.mp h
      obtain ⟨-, -, link', hloop'⟩ := replay_eq_ok.mp hlog
      obtain ⟨before, hbefore, -, happly, -⟩ := replayLoop_snoc.mp hloop
      obtain ⟨before', after, hbefore', -, happly', hafter⟩ := replayLoop_step hloop' hother
      obtain ⟨-, -, -, -, hupdate⟩ := apply_eq_ok.mp happly
      obtain ⟨-, -, -, -, hupdate'⟩ := apply_eq_ok.mp happly'
      rw [htake, hbefore', Except.ok.injEq] at hbefore
      rw [← hbefore, update_congr hacts, hupdate', Except.ok.injEq] at hupdate
      have hreplay := replay_take_of_loop hlog (Nat.succ_pos _) hafter
      rw [List.length_append, List.length_singleton, Nat.add_sub_cancel, List.dropLast_concat]
      refine ⟨hlen, htake, ?_⟩
      rw [hreplay]
      exact congrArg Except.ok hupdate
    · exact Or.inr hc

end Fork

/-! ## Under a pinned root -/

/-- **A pinned identity does not fork.** Where the holders keep to one log, whatever is accepted
under its root has its recovery key and is a prefix of it: entry by entry it does the same, all but
its last entry are those of the true log, and it shows the devices the true log had there. -/
theorem pinned_log_never_forks (sha256 : Bytes → Hash) (P : Primitives) (log seen : IdentityLog P)
    (trueFinal : Membership P) (binding : RecoveryBinding P) (entries : List Entry)
    (hlog : replay sha256 log.entries log.recovery = .ok trueFinal) (hkeeps : KeepsTo log entries)
    (hbinds : BindsTo log binding)
    (h : binding.verifyPinned sha256 entries log.root = .ok seen) :
    (seen.recovery = log.recovery ∧ seen.entries.length ≤ log.entries.length ∧
      (∀ (i : ℕ) (entry : Entry), seen.entries[i]? = some entry →
        ∃ other, log.entries[i]? = some other ∧ entry.ActsAs other) ∧
      seen.entries.dropLast = log.entries.take (seen.entries.length - 1) ∧
      replay sha256 (log.entries.take seen.entries.length) log.recovery =
        .ok (seen.membership sha256)) ∨
    Collides sha256 (linkInputs seen.entries ++ linkInputs log.entries) := by
  obtain ⟨hroot, hverify⟩ := RecoveryBinding.verifyPinned_eq_ok.mp h
  obtain ⟨⟨founder, hfounder, hsignature⟩, hlink, ⟨final, hreplay⟩, rfl⟩ :=
    RecoveryBinding.verify_eq_ok.mp hverify
  obtain ⟨first, hfirst, hfirstLink⟩ := Option.map_eq_some_iff.mp hlink
  obtain ⟨⟨trueFirst, _, _, htrueFirst, -⟩, -⟩ := replay_eq_ok.mp hlog
  have htrueLink : trueFirst.link = log.root := by
    simp [IdentityLog.root, htrueFirst]
  -- the pinned root is the link of the first entry of both logs
  rcases entry_of_link hreplay hlog (List.subset_append_left _ (linkInputs log.entries))
    (List.subset_append_right (linkInputs entries) _) (List.head?_eq_getElem? ▸ hfirst)
    (List.head?_eq_getElem? ▸ htrueFirst) (by rw [hfirstLink, htrueLink, hroot])
    with ⟨-, heq, -⟩ | hc
  · have hhead : entries.head? = log.entries.head? := by rw [hfirst, htrueFirst, heq]
    have hkey : founderKey P log.entries = .ok founder := by
      rw [founderKey_eq_ok, ← hhead, ← founderKey_eq_ok]
      exact hfounder
    have hbound := hbinds founder hkey hsignature
    rw [hroot] at hbound
    have hrecovery : binding.recoveryKey = log.recovery :=
      VerifyingIdentity.toBytes_inj (Vector.toList_inj.mp (List.append_cancel_left hbound))
    rw [hrecovery] at hreplay ⊢
    have hxs := List.subset_append_left (linkInputs entries) (linkInputs log.entries)
    have hys := List.subset_append_right (linkInputs entries) (linkInputs log.entries)
    rcases entries_of_pinned hlog hkeeps hreplay hhead hxs hys with hentries | hc
    · rcases membership_of_pinned hlog hkeeps hreplay hhead hxs hys
        with ⟨hlen, htake, hmembership⟩ | hc
      · left
        refine ⟨rfl, hlen, hentries, htake, ?_⟩
        rw [IdentityLog.membership_of_replay hreplay]
        exact hmembership
      · exact Or.inr hc
    · exact Or.inr hc
  · exact Or.inr hc

namespace Sample

/-- The digest tells apart all that is hashed for the links of the sample log. -/
theorem not_collides_log {n : ℕ} (hn : n ≤ 6) :
    ¬Collides digest (linkInputs (log n).entries ++ linkInputs (log 6).entries) := by
  -- each input stands at some place of the whole log
  have hplace : ∀ {k : ℕ}, k ≤ 6 → ∀ input ∈ linkInputs (log k).entries,
      ∃ (i : ℕ) (entry : Entry), (log 6).entries[i]? = some entry ∧
        input = linkInputAt (log 6).entries i entry := by
    intro k hk input hinput
    obtain ⟨⟨entry, i⟩, hindexed, rfl⟩ := List.mem_map.mp hinput
    have hentry : (log k).entries[i]? = some entry := List.mem_zipIdx_iff_getElem?.mp hindexed
    have hlt := (List.getElem?_eq_some_iff.mp hentry).1
    have hextends := prefix_log hk
    refine ⟨i, entry, ?_, ?_⟩
    · obtain ⟨more, hmore⟩ := hextends
      rw [← hmore, List.getElem?_append_left hlt]
      exact hentry
    · rw [linkInputAt, linkInputAt, linkBefore_of_extends hextends hlt.le]
  rintro ⟨x, hx, y, hy, hne, hdigest⟩
  have hinputs : ∀ input ∈ linkInputs (log n).entries ++ linkInputs (log 6).entries,
      ∃ (i : ℕ) (entry : Entry), (log 6).entries[i]? = some entry ∧
        input = linkInputAt (log 6).entries i entry := by
    intro input hinput
    rcases List.mem_append.mp hinput with h | h
    · exact hplace hn input h
    · exact hplace (le_refl 6) input h
  obtain ⟨i, entry, hentry, rfl⟩ := hinputs x hx
  obtain ⟨j, other, hother, rfl⟩ := hinputs y hy
  have hlink : ∀ {k : ℕ} {found : Entry}, (log 6).entries[k]? = some found →
      k < 7 ∧ digest (linkInputAt (log 6).entries k found) = device (UInt8.ofNat k) := by
    intro k found hfound
    have hlt := (List.getElem?_eq_some_iff.mp hfound).1
    rw [length_log (le_refl 6)] at hlt
    rw [← (entry_of_replay (replay_log 6) hfound).2.2.2]
    exact ⟨hlt, link_of_replay (replay_log 6) hfound⟩
  have ⟨hi, hlinki⟩ := hlink hentry
  have ⟨hj, hlinkj⟩ := hlink hother
  rw [hlinki, hlinkj, device_inj] at hdigest
  have hnat := congrArg UInt8.toNat hdigest
  rw [UInt8.toNat_ofNat', UInt8.toNat_ofNat'] at hnat
  obtain rfl : i = j := by omega
  rw [hentry, Option.some.injEq] at hother
  rw [hother] at hne
  exact hne rfl

theorem log_zero : log 0 = founded := by
  rw [log_eq]
  rfl

theorem root_log : (log 6).root = founded.root := by
  have hne : (log 0).entries ≠ [] := List.ne_nil_of_length_pos (by rw [length_log] <;> omega)
  rw [← log_zero, IdentityLog.root, IdentityLog.root,
    IdentityLog.head?_of_prefix (prefix_log (Nat.zero_le 6)) hne]

/-- What the founder signs is never a forgery. -/
theorem bindsTo {binding : RecoveryBinding Primitives.keyed}
    (h : RecoveryBinding.create founded (identity 1) = .ok binding) : BindsTo (log 6) binding := by
  intro founder _ _
  rw [(RecoveryBinding.create_eq_ok.mp h).2, root_log, recovery_log]
  rfl

end Sample

/-- The theorem at the sample identity: under the root, the binding of its founder and what the log was
after any of the calls, a relying party sees the true log as it was then. -/
theorem pinned_log_never_forks_grown :
    ∃ binding, RecoveryBinding.create Sample.founded (Sample.identity 1) = .ok binding ∧
      ∀ n ≤ 6,
        binding.verifyPinned Sample.digest (Sample.log n).entries (Sample.log 6).root =
          .ok (Sample.log n) ∧
        (Sample.log n).entries.length ≤ (Sample.log 6).entries.length ∧
        (∀ (i : ℕ) (entry : Entry), (Sample.log n).entries[i]? = some entry →
          ∃ other, (Sample.log 6).entries[i]? = some other ∧ entry.ActsAs other) ∧
        (Sample.log n).entries.dropLast = (Sample.log 6).entries.take n ∧
        replay Sample.digest ((Sample.log 6).entries.take (n + 1)) (Sample.key 9) =
          .ok ((Sample.log n).membership Sample.digest) := by
  obtain ⟨binding, hcreate⟩ := Sample.binding_founded
  refine ⟨binding, hcreate, ?_⟩
  intro n hn
  have hverify := RecoveryBinding.verifyPinned_performAll Primitives.keyed_correct
    (.create Sample.create_founded) hcreate (Sample.calls.take n)
  rw [← Sample.log_eq, ← Sample.root_log] at hverify
  have hlog : replay Sample.digest (Sample.log 6).entries (Sample.log 6).recovery =
      .ok ((Sample.log 6).membership Sample.digest) := by
    rw [Sample.recovery_log]
    exact Sample.replay_log 6
  obtain ⟨-, hlen, hacts, htake, hmembership⟩ := (pinned_log_never_forks Sample.digest
    Primitives.keyed (Sample.log 6) (Sample.log n) _ binding (Sample.log n).entries hlog
    (keepsTo_of_initial (Sample.prefix_log hn)) (Sample.bindsTo hcreate) hverify).resolve_right
      (Sample.not_collides_log hn)
  rw [Sample.length_log hn, Nat.add_sub_cancel] at htake
  rw [Sample.length_log hn, Sample.recovery_log] at hmembership
  exact ⟨hverify, hlen, hacts, htake, hmembership⟩

end HideProtocol.Identity
