import Mathlib.Data.List.GetD
import HideProtocol.Identity.Calls

/-!
# Local appends agree with a stranger's replay

What calls do to the trusted devices is said without maps: a log shows a function from ids to
devices, a permitted call changes it in one place (`shows_perform`), and so does each of a run of
them (`shows_performAll`). A log that was built by calls is the one a stranger accepts, and its
`membership()` never takes its fallback.
-/

namespace HideProtocol.Identity

open Lib Sign

variable {sha256 : Bytes → Hash} {P : Primitives}

/-! ## The trusted devices -/

variable (sha256) in
/-- The author is trusted under its own key. -/
def Standing.Trusts (standing : Standing P) (author : SigningIdentity) : Prop :=
  ∃ device, standing (deviceId sha256 (author.verifyingKey P)) = some device ∧
    device.key = author.verifyingKey P

namespace Call
variable (sha256)

/-- Who may make a call: a device that is trusted, for a device that is not enrolled yet or that is
not the last one, or the recovery key. -/
def Permitted (recovery : VerifyingIdentity P) (standing : Standing P) : Call P → Prop
  | enrol author device label => (utf8 label).length ≤ maxLabelBytes ∧
      standing.Trusts sha256 author ∧ standing (deviceId sha256 device) = none
  | revoke author device => standing.Trusts sha256 author ∧
      (standing device).isSome ∧ ∃ other, other ≠ device ∧ (standing other).isSome
  | recover recoveryKey _ label => (utf8 label).length ≤ maxLabelBytes ∧
      recoveryKey.verifyingKey P = recovery

/-- Who may not: a device that is not trusted, or a key with another id than the recovery key. -/
def Barred (recovery : VerifyingIdentity P) (standing : Standing P) (call : Call P) : Prop :=
  match call with
  | enrol author _ _ | revoke author _ => standing (deviceId sha256 (author.verifyingKey P)) = none
  | recover recoveryKey _ _ =>
      deviceId sha256 recovery ≠ deviceId sha256 (recoveryKey.verifyingKey P)

/-- What a permitted call does to the trusted devices. -/
def effect (sequence : Sequence) (standing : Standing P) : Call P → Standing P
  | enrol _ device label => Function.update standing (deviceId sha256 device)
      (some (newDevice sha256 device label sequence))
  | revoke _ device => Function.update standing device none
  | recover _ device label => Function.update (fun _ => none) (deviceId sha256 device)
      (some (newDevice sha256 device label sequence))

/-- Each call of a run is permitted when its turn comes; `n` entries stand before the run. -/
def AllPermitted (recovery : VerifyingIdentity P) : ℕ → Standing P → List (Call P) → Prop
  | _, _, [] => True
  | n, standing, call :: calls => call.Permitted sha256 recovery standing ∧
      AllPermitted recovery (n + 1) (call.effect sha256 (UInt64.ofNat n) standing) calls

def effects : ℕ → Standing P → List (Call P) → Standing P
  | _, standing, [] => standing
  | n, standing, call :: calls =>
      effects (n + 1) (call.effect sha256 (UInt64.ofNat n) standing) calls

end Call

theorem Call.AllPermitted.take {recovery : VerifyingIdentity P} {n : ℕ} {standing : Standing P}
    {calls : List (Call P)} (h : Call.AllPermitted sha256 recovery n standing calls) (k : ℕ) :
    Call.AllPermitted sha256 recovery n standing (calls.take k) := by
  induction calls generalizing n standing k with
  | nil => simpa using h
  | cons call calls ih =>
    cases k with
    | zero => trivial
    | succ k => exact ⟨h.1, ih h.2 k⟩

/-! ## Calls -/

/-- Two members are more than one. -/
theorem len_ne_one {membership : Membership P} {id other : DeviceId}
    (hid : membership.contains id = true) (hother : membership.contains other = true)
    (hne : other ≠ id) : membership.len ≠ 1 := by
  intro hlen
  rw [Membership.len, ← Std.ExtTreeMap.length_keys, List.length_eq_one_iff] at hlen
  obtain ⟨sole, hkeys⟩ := hlen
  have hmem : ∀ d, membership.contains d = true → d = sole := by
    intro d hd
    have : d ∈ membership.devices.keys := Std.ExtTreeMap.mem_keys.mpr hd
    rwa [hkeys, List.mem_singleton] at this
  exact hne ((hmem other hother).trans (hmem id hid).symm)

theorem contains_eq_isSome {membership : Membership P} (id : DeviceId) :
    membership.contains id = (membership.get id).isSome :=
  Std.ExtTreeMap.contains_eq_isSome_getElem?

namespace IdentityLog
variable {log : IdentityLog P} {standing : Standing P}

/-- A signed candidate is accepted if its author is the one the entry needs. -/
theorem replay_candidate (hP : P.Correct) {before after : Membership P}
    (h : replay sha256 log.entries log.recovery = .ok before) (hlen : log.entries.length < maxEntries)
    {author : SigningIdentity} {event : Event}
    (hlabel : ∀ label, event.label = some label → (utf8 label).length ≤ maxLabelBytes)
    (hauthor : authorOf sha256 before (log.candidate sha256 author event) log.recovery =
      .ok (author.verifyingKey P))
    (hupdate : update sha256 before (log.candidate sha256 author event) = .ok after) :
    replay sha256 (log.entries ++ [log.candidate sha256 author event]) log.recovery = .ok after :=
  (replay_snoc h).mpr ⟨hlen, rfl, apply_eq_ok.mpr
    ⟨hlabel, rfl, Vector.length_toList, ⟨_, hauthor, verify_sign hP _ _ _⟩, hupdate⟩⟩

/-- The entry of a permitted call is accepted, and has its effect. -/
theorem shows_candidate (hP : P.Correct) (h : log.Shows sha256 standing)
    (hlen : log.entries.length < maxEntries) {call : Call P}
    (hcall : call.Permitted sha256 log.recovery standing) :
    Shows sha256
      { log with entries := log.entries ++ [log.candidate sha256 call.author call.event] }
      (call.effect sha256 (UInt64.ofNat log.entries.length) standing) := by
  obtain ⟨before, hbefore, hget⟩ := h
  have hkey : ∀ (device : VerifyingIdentity P) sequence,
      parseKey P device.toBytes.toList sequence = .ok device := by
    intro device sequence
    exact parseKey_eq_ok.mpr ⟨Vector.length_toList, VerifyingIdentity.fromBytes_toBytes device⟩
  cases call with
  | enrol author device label =>
    obtain ⟨hlabel, ⟨trusted, htrusted, hsame⟩, hnew⟩ := hcall
    have hout : before.contains (deviceId sha256 device) = false := by
      rw [contains_eq_isSome, hget, hnew]
      rfl
    refine ⟨_, replay_candidate hP hbefore hlen ?_
      (authorOf_eq_ok.mpr ⟨trusted, (hget _).trans htrusted, hsame.symm⟩)
      (update_eq_ok.mpr ⟨device, hkey device _, hout, rfl⟩), ?_⟩
    · intro label' hlabel'
      rw [← Option.some.inj hlabel']
      exact hlabel
    · intro id
      show (before.devices.insert _ _)[id]? = _
      rw [lookup_insert, Call.effect, Function.update_apply, ← hget]
      rfl
  | revoke author device =>
    obtain ⟨⟨trusted, htrusted, hsame⟩, hmember, other, hne, hother⟩ := hcall
    have hin : before.contains device = true := by
      rw [contains_eq_isSome, hget, hmember]
    have hin' : before.contains other = true := by
      rw [contains_eq_isSome, hget, hother]
    refine ⟨_, replay_candidate hP hbefore hlen ?_
      (authorOf_eq_ok.mpr ⟨trusted, (hget _).trans htrusted, hsame.symm⟩)
      (update_eq_ok.mpr ⟨hin, len_ne_one hin hin' hne, rfl⟩), ?_⟩
    · intro label' hlabel'
      cases hlabel'
    · intro id
      show (before.devices.erase device)[id]? = _
      rw [lookup_erase, Call.effect, Function.update_apply, ← hget]
      rfl
  | recover recoveryKey device label =>
    obtain ⟨hlabel, hrecovery⟩ := hcall
    refine ⟨_, replay_candidate hP hbefore hlen ?_
      (authorOf_eq_ok.mpr ⟨by rw [← hrecovery]; rfl, hrecovery⟩)
      (update_eq_ok.mpr ⟨device, hkey device _, rfl⟩), ?_⟩
    · intro label' hlabel'
      rw [← Option.some.inj hlabel']
      exact hlabel
    · intro id
      show ((∅ : Std.ExtTreeMap DeviceId (Device P)).insert _ _)[id]? = _
      rw [lookup_insert, Call.effect, Function.update_apply, Std.ExtTreeMap.getElem?_empty]
      rfl

theorem perform_of_shows {after : Standing P} (h : log.Shows sha256 standing) {call : Call P}
    (hafter : Shows sha256
      { log with entries := log.entries ++ [log.candidate sha256 call.author call.event] } after) :
    ∃ sequence, log.perform sha256 call =
      ({ log with entries := log.entries ++ [log.candidate sha256 call.author call.event] },
        .ok sequence) := by
  obtain ⟨before, hbefore, -⟩ := h
  obtain ⟨membership, hmembership, -⟩ := hafter
  rcases perform_cases log call with ⟨sequence, hperform, -⟩ | ⟨e, -, herror⟩
  · exact ⟨sequence, hperform⟩
  · obtain ⟨result, hok⟩ := (append_iff_replay hbefore).mpr ⟨membership, hmembership⟩
    rw [herror] at hok
    cases hok

/-- **One call.** A permitted call on an accepted log succeeds and has its effect on the trusted
devices. -/
theorem shows_perform (hP : P.Correct) (h : log.Shows sha256 standing)
    (hlen : log.entries.length < maxEntries) {call : Call P}
    (hcall : call.Permitted sha256 log.recovery standing) :
    ∃ sequence, log.perform sha256 call =
        ({ log with entries := log.entries ++ [log.candidate sha256 call.author call.event] },
          .ok sequence) ∧
      (log.perform sha256 call).1.Shows sha256
        (call.effect sha256 (UInt64.ofNat log.entries.length) standing) := by
  have hafter := shows_candidate hP h hlen hcall
  obtain ⟨sequence, hperform⟩ := perform_of_shows h hafter
  refine ⟨sequence, hperform, ?_⟩
  rw [hperform]
  exact hafter

/-- Whoever is not entitled to a call is no author. -/
theorem authorOf_of_barred {membership : Membership P}
    (hget : ∀ id, membership.get id = standing id) {call : Call P}
    (hbarred : call.Barred sha256 log.recovery standing) :
    authorOf sha256 membership (log.candidate sha256 call.author call.event) log.recovery =
      .error (.unauthorised (UInt64.ofNat log.entries.length)) := by
  cases call with
  | enrol author device label =>
    have hnone : standing (deviceId sha256 (author.verifyingKey P)) = none := hbarred
    show (okOr (membership.get (deviceId sha256 (author.verifyingKey P))) _ >>= _) = _
    rw [hget, hnone]
    rfl
  | revoke author device =>
    have hnone : standing (deviceId sha256 (author.verifyingKey P)) = none := hbarred
    show (okOr (membership.get (deviceId sha256 (author.verifyingKey P))) _ >>= _) = _
    rw [hget, hnone]
    rfl
  | recover recoveryKey device label =>
    have hother : deviceId sha256 log.recovery ≠
        deviceId sha256 (recoveryKey.verifyingKey P) := hbarred
    show (failIf (deviceId sha256 log.recovery ≠ deviceId sha256 (recoveryKey.verifyingKey P)) _
      >>= _) = _
    rw [failIf_pos _ hother]
    rfl

/-- The checks before a candidate's author pass, so the refusal of the author is the answer. -/
theorem apply_candidate_of_author {membership : Membership P} {author : SigningIdentity}
    {event : Event} {e : IdentityError}
    (hlabel : ∀ label, event.label = some label → ¬(utf8 label).length > maxLabelBytes)
    (hauthor : authorOf sha256 membership (log.candidate sha256 author event) log.recovery =
      .error e) :
    apply sha256 membership (log.candidate sha256 author event) log.recovery log.head =
      .error e := by
  have hlink : ¬linkFor sha256 (signedBytes log.head (log.candidate sha256 author event).sequence
      (log.candidate sha256 author event).event (log.candidate sha256 author event).signer)
      (log.candidate sha256 author event).signature ≠
        (log.candidate sha256 author event).link := not_not.mpr rfl
  have hsignature : ¬(log.candidate sha256 author event).signature.length ≠ signatureLength :=
    not_not.mpr Vector.length_toList
  unfold apply
  rcases hevent : event.label with _ | label
  · have hnone : (log.candidate sha256 author event).event.label = none := hevent
    simp only [hnone]
    rw [failIf_neg _ hlink, ok_bind, failIf_neg _ hsignature, ok_bind, hauthor]
    rfl
  · have hsome : (log.candidate sha256 author event).event.label = some label := hevent
    simp only [hsome]
    rw [failIf_neg _ (hlabel label hevent), ok_bind, failIf_neg _ hlink, ok_bind,
      failIf_neg _ hsignature, ok_bind, hauthor]
    rfl

/-- Whoever is not entitled to a call is told so, and the log is what it was. -/
theorem perform_of_barred (h : log.Shows sha256 standing) (hlen : log.entries.length < maxEntries)
    {call : Call P} (hbarred : call.Barred sha256 log.recovery standing)
    (hlabel : ∀ label, call.event.label = some label → (utf8 label).length ≤ maxLabelBytes) :
    log.perform sha256 call = (log, .error (.unauthorised (UInt64.ofNat log.entries.length))) := by
  obtain ⟨membership, hmembership, hget⟩ := h
  have hshort : ∀ label, call.event.label = some label → ¬(utf8 label).length > maxLabelBytes :=
    fun label heq => not_lt.mpr (hlabel label heq)
  have hroom : ¬log.entries.length ≥ maxEntries := not_le.mpr hlen
  have happly := apply_candidate_of_author hshort (authorOf_of_barred hget hbarred)
  rw [← membership_of_replay hmembership] at happly
  have happend : log.append sha256 call.author call.event =
      .error (.unauthorised (UInt64.ofNat log.entries.length)) := by
    unfold append checkLabel
    rw [failIf_neg _ hroom, ok_bind]
    rcases hevent : call.event.label with _ | label
    · exact congrArg (· >>= _) happly
    · simp only [failIf_neg _ (hshort label hevent), ok_bind]
      exact congrArg (· >>= _) happly
  unfold perform
  rw [Call.run_eq_append, happend]

/-- **A run of calls.** Permitted calls succeed one after the other, and have their effects. -/
theorem shows_performAll (hP : P.Correct) {calls : List (Call P)}
    (h : log.Shows sha256 standing) (hlen : log.entries.length + calls.length ≤ maxEntries)
    (hcalls : Call.AllPermitted sha256 log.recovery log.entries.length standing calls) :
    (log.performAll sha256 calls).Shows sha256
        (Call.effects sha256 log.entries.length standing calls) ∧
      (log.performAll sha256 calls).entries.map (fun entry => (entry.event, entry.signer)) =
        log.entries.map (fun entry => (entry.event, entry.signer)) ++
          calls.map fun call => (call.event, deviceId sha256 (call.author.verifyingKey P)) := by
  induction calls generalizing log standing with
  | nil => exact ⟨h, (List.append_nil _).symm⟩
  | cons call calls ih =>
    obtain ⟨hcall, hcalls⟩ := hcalls
    rw [List.length_cons] at hlen
    obtain ⟨sequence, hperform, hshows⟩ := shows_perform hP h (by omega) hcall
    rw [hperform] at hshows
    have hcount : (log.entries ++ [log.candidate sha256 call.author call.event]).length =
        log.entries.length + 1 := List.length_append
    have hrun : log.performAll sha256 (call :: calls) =
        ({ log with entries := log.entries ++
          [log.candidate sha256 call.author call.event] } : IdentityLog P).performAll sha256
            calls := by
      rw [performAll, List.foldl_cons, hperform]
      rfl
    have ⟨hshown, hentries⟩ := ih hshows (by rw [hcount]; omega) (by rw [hcount]; exact hcalls)
    rw [hrun]
    refine ⟨?_, ?_⟩
    · rw [hcount] at hshown
      exact hshown
    · rw [hentries, List.map_append, List.append_assoc]
      rfl

end IdentityLog

/-! ## A sample identity -/

namespace Sample

/-- A digest that tells the entries of a log apart by their place and keys by the byte they
repeat. -/
def digest (bytes : Bytes) : Hash := Vector.replicate 32 (bytes.getD 69 0)

def identity (n : UInt8) : SigningIdentity := ⟨Vector.replicate 32 n⟩

def key (n : UInt8) : VerifyingIdentity Primitives.keyed := (identity n).verifyingKey _

def device (n : UInt8) : DeviceId := Vector.replicate 32 n

theorem device_inj {n m : UInt8} : device n = device m ↔ n = m := by
  constructor
  · intro h
    have := congrArg (fun v : DeviceId => v[0]) h
    simpa [device] using this
  · intro h
    rw [h]

theorem length_use : (utf8 "HIDE/0.6 device id").length = 18 := by decide

theorem length_linkUse : (utf8 "HIDE/0.6 identity link").length = 22 := by decide

@[simp] theorem deviceId_key (n : UInt8) : deviceId digest (key n) = device n := by
  have hed : (key n).ed25519.toList.length = 32 := Vector.length_toList
  have hml : (key n).mlDsa.toList.getD 19 0 = n := by
    show (keyedTag mlDsaPublicLen (Vector.replicate 32 n).toList []).toList.getD 19 0 = n
    unfold keyedTag mlDsaPublicLen
    simp [List.getD_eq_getElem?_getD]
  unfold deviceId digest
  rw [List.getD_append_right _ _ _ _ (by rw [length_use]; omega), length_use,
    VerifyingIdentity.toList_toBytes, List.getD_append_right _ _ _ _ (by rw [hed]; omega), hed, hml]
  rfl

theorem link_eq (previous : Hash) (sequence : Sequence) (event : Event) (signer : DeviceId)
    (signature : Bytes) :
    linkFor digest (signedBytes previous sequence event signer) signature =
      Vector.replicate 32 (UInt8.ofNat sequence.toNat) := by
  have hprevious : previous.toList.length = 32 := Vector.length_toList
  have hbytes : beBytes 8 sequence.toNat =
      beBytes 7 (sequence.toNat / 256) ++ [UInt8.ofNat sequence.toNat] := rfl
  unfold linkFor digest lenPrefixed signedBytes
  rw [hbytes]
  simp only [List.append_assoc]
  rw [List.getD_append_right _ _ _ _ (by rw [length_linkUse]; omega), length_linkUse,
    List.getD_append_right _ _ _ _ (by rw [length_beBytes]; omega), length_beBytes,
    List.getD_append_right _ _ _ _ (by rw [hprevious]; omega), hprevious,
    List.getD_append_right _ _ _ _ (by rw [length_beBytes]), length_beBytes]
  rfl

theorem key_eq (n : UInt8) : (identity n).verifyingKey Primitives.keyed = key n := rfl

/-- A founder enrols a phone, revokes it and enrols it again; the phone enrols a tablet and revokes
itself; then the recovery key replaces both devices that are left. -/
def calls : List (Call Primitives.keyed) :=
  [.enrol (identity 1) (key 2) "phone", .revoke (identity 1) (device 2),
    .enrol (identity 1) (key 2) "phone", .enrol (identity 2) (key 3) "tablet",
    .revoke (identity 2) (device 2), .recover (identity 9) (key 4) "desktop"]

def founded : IdentityLog Primitives.keyed :=
  { entries := [IdentityLog.candidate digest { entries := [], recovery := key 9 } (identity 1)
      (.create (key 1).toBytes.toList "laptop")]
    recovery := key 9 }

/-- The log after the first `n` calls. -/
def log (n : ℕ) : IdentityLog Primitives.keyed := founded.performAll digest (calls.take n)

/-- The devices it shows. -/
def standing (n : ℕ) : Standing Primitives.keyed :=
  Call.effects digest 1 (.founded digest (identity 1) "laptop") (calls.take n)

theorem create_founded :
    IdentityLog.create digest (identity 1) "laptop" (key 9) = .ok founded :=
  create_eq_ok.mpr ⟨by decide, rfl⟩

@[simp] theorem deviceId_identity (n : UInt8) :
    deviceId digest ((identity n).verifyingKey Primitives.keyed) = device n := deviceId_key n

theorem allPermitted :
    Call.AllPermitted digest (key 9) 1 (.founded digest (identity 1) "laptop") calls := by
  have hphone : (utf8 "phone").length ≤ maxLabelBytes := by decide
  have htablet : (utf8 "tablet").length ≤ maxLabelBytes := by decide
  have hdesktop : (utf8 "desktop").length ≤ maxLabelBytes := by decide
  -- the laptop is trusted throughout, the phone after its second enrolment
  refine ⟨⟨hphone, ⟨newDevice digest (key 1) "laptop" 0, ?_, rfl⟩, ?_⟩,
    ⟨⟨newDevice digest (key 1) "laptop" 0, ?_, rfl⟩, ?_, device 1, ?_, ?_⟩,
    ⟨hphone, ⟨newDevice digest (key 1) "laptop" 0, ?_, rfl⟩, ?_⟩,
    ⟨htablet, ⟨newDevice digest (key 2) "phone" 3, ?_, rfl⟩, ?_⟩,
    ⟨⟨newDevice digest (key 2) "phone" 3, ?_, rfl⟩, ?_, device 1, ?_, ?_⟩,
    ⟨hdesktop, rfl⟩, trivial⟩
  all_goals
    simp [Call.effect, Standing.founded, Function.update_apply, device_inj, key_eq]

theorem length_calls : calls.length = 6 := rfl

theorem recovery_log (n : ℕ) : (log n).recovery = key 9 :=
  (@IdentityLog.performAll_extends digest _ founded (calls.take n)).2

theorem reachable_log (n : ℕ) : IdentityLog.Reachable digest (log n) :=
  IdentityLog.reachable_performAll (.create create_founded) _

/-- What its entries do, and who signed them. -/
def acts (n : ℕ) : List (Event × DeviceId) :=
  (.create (key 1).toBytes.toList "laptop", device 1) ::
    (calls.take n).map fun call =>
      (call.event, deviceId digest (call.author.verifyingKey Primitives.keyed))

/-- The run of the first `n` calls. -/
theorem run_log (n : ℕ) : (log n).Shows digest (standing n) ∧
    (log n).entries.map (fun entry => (entry.event, entry.signer)) = acts n := by
  have hlen : (calls.take n).length ≤ 6 := by
    rw [List.length_take, length_calls]
    omega
  have hrun := IdentityLog.shows_performAll Primitives.keyed_correct
    (shows_create Primitives.keyed_correct create_founded)
    (show 1 + (calls.take n).length ≤ maxEntries by unfold maxEntries; omega)
    (allPermitted.take n)
  exact ⟨hrun.1, hrun.2.trans (by simp [founded, acts, IdentityLog.candidate])⟩

theorem length_log {n : ℕ} (hn : n ≤ 6) : (log n).entries.length = n + 1 := by
  have hlen := congrArg List.length (run_log n).2
  rw [acts, List.length_map, List.length_cons, List.length_map, List.length_take, length_calls]
    at hlen
  omega

/-- Each call of the run succeeds. -/
theorem run_call {n : ℕ} {call : Call Primitives.keyed} (h : calls[n]? = some call) :
    ∃ sequence, call.run digest (log n) = .ok (log (n + 1), sequence) := by
  have hn : n < 6 := (List.getElem?_eq_some_iff.mp h).1
  have hnext : log (n + 1) = ((log n).perform digest call).1 := by
    unfold log
    rw [List.take_add_one, h, IdentityLog.performAll, List.foldl_append]
    rfl
  have hlen := length_log (show n + 1 ≤ 6 by omega)
  rw [hnext]
  unfold IdentityLog.perform at hnext ⊢
  cases hrun : call.run digest (log n) with
  | error e =>
    -- a refused call would leave the log as it was
    rw [hrun] at hnext
    rw [hnext, length_log (show n ≤ 6 by omega)] at hlen
    omega
  | ok result => exact ⟨result.2, rfl⟩

theorem entry_log {n i : ℕ} {act : Event × DeviceId} (h : (acts n)[i]? = some act) :
    ∃ entry, (log n).entries[i]? = some entry ∧ entry.event = act.1 ∧ entry.signer = act.2 := by
  rw [← (run_log n).2, List.getElem?_map, Option.map_eq_some_iff] at h
  obtain ⟨entry, hentry, rfl⟩ := h
  exact ⟨entry, hentry, rfl, rfl⟩

theorem replay_log (n : ℕ) :
    replay digest (log n).entries (key 9) = .ok ((log n).membership digest) := by
  obtain ⟨⟨membership, hreplay, -⟩, -⟩ := run_log n
  rw [IdentityLog.membership_of_replay hreplay, ← recovery_log n]
  exact hreplay

theorem get_log (n : ℕ) (id : DeviceId) : ((log n).membership digest).get id = standing n id := by
  obtain ⟨⟨membership, hreplay, hget⟩, -⟩ := run_log n
  rw [IdentityLog.membership_of_replay hreplay, hget]

/-- Whoever is trusted under an id of the sample has the key of that id. -/
theorem key_of_get {n : ℕ} (hn : n ≤ 6) {m : UInt8} {other : Device Primitives.keyed}
    (h : ((log n).membership digest).get (device m) = some other) : other.key = key m := by
  rw [get_log] at h
  obtain rfl | rfl | rfl | rfl | rfl | rfl | rfl :
      n = 0 ∨ n = 1 ∨ n = 2 ∨ n = 3 ∨ n = 4 ∨ n = 5 ∨ n = 6 := by omega
  all_goals
    simp only [standing, calls, List.take_succ_cons, List.take_zero, List.take_nil, Call.effects,
      Call.effect, Standing.founded, Function.update_apply, deviceId_key, deviceId_identity,
      device_inj] at h
    split_ifs at h
  all_goals
    cases h
    subst_vars
    rfl

/-- The phone is trusted after its enrolment, until it is revoked, and after its second one, until it
revokes itself. -/
theorem contains_phone {n : ℕ} (hn : n ≤ 6) :
    ((log n).membership digest).contains (device 2) = true ↔ n = 1 ∨ n = 3 ∨ n = 4 := by
  rw [contains_eq_isSome, get_log]
  obtain rfl | rfl | rfl | rfl | rfl | rfl | rfl :
      n = 0 ∨ n = 1 ∨ n = 2 ∨ n = 3 ∨ n = 4 ∨ n = 5 ∨ n = 6 := by omega
  all_goals
    simp [standing, calls, Call.effects, Call.effect, Standing.founded, Function.update_apply,
      device_inj]

theorem prefix_log {n m : ℕ} (h : n ≤ m) : (log n).entries <+: (log m).entries := by
  have hsplit : log m = (log n).performAll digest ((calls.take m).drop n) := by
    have htake : calls.take n = (calls.take m).take n := by rw [List.take_take, min_eq_left h]
    rw [log, log, htake, IdentityLog.performAll, IdentityLog.performAll, IdentityLog.performAll,
      ← List.foldl_append, List.take_append_drop]
  rw [hsplit]
  exact (@IdentityLog.performAll_extends digest _ (log n) _).1

theorem take_log {n m : ℕ} (h : n ≤ m) (hm : m ≤ 6) :
    (log m).entries.take (n + 1) = (log n).entries := by
  rw [← length_log (h.trans hm)]
  exact (List.prefix_iff_eq_take.mp (prefix_log h)).symm

theorem log_eq (n : ℕ) : log n = founded.performAll digest (calls.take n) := rfl

-- from here on a log is what the lemmas above say of it
attribute [irreducible] log

/-- The phone revoked itself. -/
theorem barred_phone : Call.Barred digest (log 6).recovery (standing 6)
    (.enrol (identity 2) (key 8) "stolen") := by
  show standing 6 (deviceId digest ((identity 2).verifyingKey Primitives.keyed)) = none
  simp [standing, calls, Call.effects, Call.effect, Standing.founded, device_inj]

/-- The phone revoked itself, and is refused. -/
theorem perform_refused :
    (log 6).perform digest (.enrol (identity 2) (key 8) "stolen") =
      (log 6, .error (.unauthorised 7)) := by
  have hlen := length_log (le_refl 6)
  have hroom : (log 6).entries.length < maxEntries := by
    rw [hlen]
    decide
  have hstolen : (utf8 "stolen").length ≤ maxLabelBytes := by decide
  have hlabel : ∀ label, (Event.enrol (key 8).toBytes.toList "stolen").label = some label →
      (utf8 label).length ≤ maxLabelBytes := by
    intro label hlabel
    rw [← Option.some.inj hlabel]
    exact hstolen
  rw [IdentityLog.perform_of_barred (run_log 6).1 hroom barred_phone hlabel, hlen]
  rfl

/-- The recovery key takes the phone back. -/
theorem perform_next : ∃ sequence,
    (log 6).perform digest (.recover (identity 9) (key 2) "phone") =
      ({ log 6 with
          entries := (log 6).entries ++ [(log 6).candidate digest (identity 9)
            (.recover (key 2).toBytes.toList "phone")] }, .ok sequence) := by
  have hlen := length_log (le_refl 6)
  have hroom : (log 6).entries.length < maxEntries := by
    rw [hlen]
    decide
  have hphone : (utf8 "phone").length ≤ maxLabelBytes := by decide
  have hpermitted : Call.Permitted digest (log 6).recovery (standing 6)
      (.recover (identity 9) (key 2) "phone") := ⟨hphone, (recovery_log 6).symm⟩
  obtain ⟨sequence, hperform, -⟩ :=
    IdentityLog.shows_perform Primitives.keyed_correct (run_log 6).1 hroom hpermitted
  exact ⟨sequence, hperform⟩

end Sample

namespace IdentityLog
variable {log : IdentityLog P}

/-- **Local appends agree with a stranger's replay.** Every log reached from `create` or
`from_entries` by any calls verifies, as does each non-empty prefix of it, and its membership is
what verification returns. A further call returns `Ok` exactly when the log extended by the entry
it signs verifies; that is then the log it leaves, and otherwise the log is unchanged. -/
theorem local_agrees_with_replay (sha256 : Bytes → Hash) (P : Primitives) (hP : P.Correct)
    (log : IdentityLog P) (hlog : Reachable sha256 log) :
    IdentityLog.verify sha256 log.entries log.recovery = .ok (log.membership sha256) ∧
    (∀ n, 0 < n → n ≤ log.entries.length → ∃ membership,
      IdentityLog.verify sha256 (log.entries.take n) log.recovery = .ok membership) ∧
    ∀ call : Call P,
      ((∃ sequence, (log.perform sha256 call).2 = .ok sequence) ↔ ∃ membership,
        IdentityLog.verify sha256
          (log.entries ++ [log.candidate sha256 call.author call.event]) log.recovery =
          .ok membership) ∧
      (∀ sequence, (log.perform sha256 call).2 = .ok sequence →
        (log.perform sha256 call).1.entries =
          log.entries ++ [log.candidate sha256 call.author call.event]) ∧
      (∀ e, (log.perform sha256 call).2 = .error e →
        (log.perform sha256 call).1.entries = log.entries) := by
  obtain ⟨membership, hreplay⟩ := replay_of_reachable hP hlog
  refine ⟨?_, ?_, ?_⟩
  · rw [membership_of_replay hreplay]
    exact hreplay
  · intro n hn hle
    exact replay_take hreplay hn hle
  · intro call
    unfold IdentityLog.verify
    rw [← append_iff_replay hreplay]
    rcases perform_cases log call with ⟨sequence, hperform, happend⟩ | ⟨e, hperform, happend⟩
    · rw [hperform]
      refine ⟨⟨fun _ => happend, fun _ => ⟨sequence, rfl⟩⟩, fun _ _ => rfl, ?_⟩
      intro e herror
      cases herror
    · rw [hperform, happend]
      refine ⟨⟨?_, ?_⟩, ?_, fun _ _ => rfl⟩
      · intro ⟨_, hok⟩
        cases hok
      · intro ⟨_, hok⟩
        cases hok
      · intro _ hok
        cases hok

/-- The theorem at the sample identity, after all its calls and one that was refused: the phone that
revoked itself is refused again, and the recovery key is not. -/
theorem local_agrees_with_replay_grown :
    let refused : Call Primitives.keyed := .enrol (Sample.identity 2) (Sample.key 8) "stolen"
    let next : Call Primitives.keyed := .recover (Sample.identity 9) (Sample.key 2) "phone"
    let log := ((Sample.log 6).perform Sample.digest refused).1
    log.entries.length = 7 ∧
    (log.perform Sample.digest refused).2 = .error (.unauthorised 7) ∧
    IdentityLog.verify Sample.digest log.entries log.recovery =
      .ok (log.membership Sample.digest) ∧
    (∀ n, 0 < n → n ≤ 7 → ∃ membership,
      IdentityLog.verify Sample.digest (log.entries.take n) log.recovery = .ok membership) ∧
    (¬∃ membership, IdentityLog.verify Sample.digest
      (log.entries ++ [log.candidate Sample.digest refused.author refused.event]) log.recovery =
        .ok membership) ∧
    (log.perform Sample.digest refused).1.entries = log.entries ∧
    (∃ membership, IdentityLog.verify Sample.digest
      (log.entries ++ [log.candidate Sample.digest next.author next.event]) log.recovery =
        .ok membership) ∧
    (log.perform Sample.digest next).1.entries =
      log.entries ++ [log.candidate Sample.digest next.author next.event] := by
  intro refused next log
  have hreach : Reachable Sample.digest log := .perform refused (Sample.reachable_log 6)
  have ⟨hverify, htakes, hcalls⟩ := local_agrees_with_replay Sample.digest Primitives.keyed
    Primitives.keyed_correct log hreach
  have ⟨hiff, _, hunchanged⟩ := hcalls refused
  have ⟨hiff', hgrown, _⟩ := hcalls next
  have hlog : log = Sample.log 6 := by
    show ((Sample.log 6).perform Sample.digest refused).1 = _
    rw [Sample.perform_refused]
  have hlen : log.entries.length = 7 := by
    rw [hlog]
    exact Sample.length_log (le_refl 6)
  have herror : (log.perform Sample.digest refused).2 = .error (.unauthorised 7) := by
    rw [hlog, Sample.perform_refused]
  have haccepted : ∃ sequence, (log.perform Sample.digest next).2 = .ok sequence := by
    obtain ⟨sequence, hperform⟩ := Sample.perform_next
    rw [hlog, hperform]
    exact ⟨sequence, rfl⟩
  refine ⟨hlen, herror, hverify, ?_, ?_, hunchanged _ herror, hiff'.mp haccepted, ?_⟩
  · intro n hn hle
    exact htakes n hn (by omega)
  · intro hstranger
    obtain ⟨sequence, hok⟩ := hiff.mpr hstranger
    rw [herror] at hok
    cases hok
  · obtain ⟨sequence, hok⟩ := haccepted
    exact hgrown sequence hok

end IdentityLog

end HideProtocol.Identity
