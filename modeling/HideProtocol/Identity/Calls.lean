import HideProtocol.Identity.Replay
import HideProtocol.Lib.Lookup

/-!
# Calls on a log

A device that holds a log appends to it by checking one candidate against the membership it
recomputes; a stranger replays the whole log. An append succeeds exactly when the extended log
would be accepted by anyone, so every log that `create` or `from_entries` starts and any calls
extend is an accepted one.
-/

namespace HideProtocol.Identity

open Lib Sign

variable {sha256 : Bytes → Hash} {P : Primitives}

/-! ## Calls -/

/-- A call that extends a log, by whoever makes it. -/
inductive Call (P : Primitives) where
  | enrol (author : SigningIdentity) (device : VerifyingIdentity P) (label : String)
  | revoke (author : SigningIdentity) (device : DeviceId)
  | recover (recoveryKey : SigningIdentity) (device : VerifyingIdentity P) (label : String)

namespace Call

def author : Call P → SigningIdentity
  | enrol author _ _ => author
  | revoke author _ => author
  | recover recoveryKey _ _ => recoveryKey

def event : Call P → Event
  | enrol _ device label => .enrol device.toBytes.toList label
  | revoke _ device => .revoke device
  | recover _ device label => .recover device.toBytes.toList label

variable (sha256) in
def run (call : Call P) (log : IdentityLog P) : Except IdentityError (IdentityLog P × Sequence) :=
  match call with
  | enrol author device label => log.enrol sha256 author device label
  | revoke author device => log.revoke sha256 author device
  | recover recoveryKey device label => log.recover sha256 recoveryKey device label

theorem run_eq_append (call : Call P) (log : IdentityLog P) :
    call.run sha256 log = log.append sha256 call.author call.event := by
  cases call <;> rfl

end Call

namespace IdentityLog

variable (sha256) in
/-- The log its holder is left with, beside what the call returned: the entry is pushed last,
after everything that can fail. -/
def perform (self : IdentityLog P) (call : Call P) : IdentityLog P × Except IdentityError Sequence :=
  match call.run sha256 self with
  | .ok (log, sequence) => (log, .ok sequence)
  | .error e => (self, .error e)

variable (sha256) in
/-- The entry that `append` signs. -/
def candidate (self : IdentityLog P) (author : SigningIdentity) (event : Event) : Entry :=
  let sequence := UInt64.ofNat self.entries.length
  let signer := deviceId sha256 (author.verifyingKey P)
  let signed := signedBytes self.head sequence event signer
  let signature := (author.sign P entryContext signed).toList
  { sequence, link := linkFor sha256 signed signature, event, signer, signature }

variable (sha256) in
/-- The logs a holder can have: started by `create` or `from_entries`, extended by calls. -/
inductive Reachable : IdentityLog P → Prop
  | create {founder : SigningIdentity} {label : String} {recovery : VerifyingIdentity P}
      {log : IdentityLog P} (h : IdentityLog.create sha256 founder label recovery = .ok log) :
      Reachable log
  | fromEntries {entries : List Entry} {recovery : VerifyingIdentity P} {log : IdentityLog P}
      (h : IdentityLog.fromEntries sha256 entries recovery = .ok log) : Reachable log
  | perform {log : IdentityLog P} (call : Call P) (h : Reachable log) :
      Reachable (log.perform sha256 call).1

end IdentityLog

/-! ## Creating -/

/-- The devices trusted at some point, under their ids. -/
abbrev Standing (P : Primitives) := DeviceId → Option (Device P)

variable (sha256) in
/-- Whoever replays the log trusts these devices. -/
def IdentityLog.Shows (self : IdentityLog P) (standing : Standing P) : Prop :=
  ∃ membership, replay sha256 self.entries self.recovery = .ok membership ∧
    ∀ id, membership.get id = standing id

variable (sha256) in
/-- The devices of a log that was just created. -/
def Standing.founded (founder : SigningIdentity) (label : String) : Standing P :=
  Function.update (fun _ => none) (deviceId sha256 (founder.verifyingKey P))
    (some (newDevice sha256 (founder.verifyingKey P) label 0))

/-- Creating a log fails on a label that is too long and on nothing else. -/
theorem create_eq_ok {founder : SigningIdentity} {label : String} {recovery : VerifyingIdentity P}
    {log : IdentityLog P} :
    IdentityLog.create sha256 founder label recovery = .ok log ↔
      (utf8 label).length ≤ maxLabelBytes ∧
        log = { entries := [IdentityLog.candidate sha256 ({ entries := [], recovery } : IdentityLog P)
                  founder (.create (founder.verifyingKey P).toBytes.toList label)]
                recovery } := by
  unfold IdentityLog.create checkLabel
  simp only [bind_eq_ok, failIf_eq_ok, pure_eq_ok, not_lt, exists_const]
  rfl

/-- A freshly created log is accepted, with its founder as the one device: the founder signed its
own creation. -/
theorem shows_create (hP : P.Correct) {founder : SigningIdentity} {label : String}
    {recovery : VerifyingIdentity P} {log : IdentityLog P}
    (h : IdentityLog.create sha256 founder label recovery = .ok log) :
    log.Shows sha256 (.founded sha256 founder label) := by
  obtain ⟨hlabel, rfl⟩ := create_eq_ok.mp h
  have hkey : ∀ sequence, parseKey P (founder.verifyingKey P).toBytes.toList sequence =
      .ok (founder.verifyingKey P) := by
    intro sequence
    exact parseKey_eq_ok.mpr ⟨Vector.length_toList, VerifyingIdentity.fromBytes_toBytes _⟩
  refine ⟨_, replay_singleton rfl rfl (apply_eq_ok.mpr ⟨?_, rfl, Vector.length_toList,
    ⟨founder.verifyingKey P, authorOf_eq_ok.mpr ⟨rfl, hkey 0, rfl⟩, verify_sign hP _ _ _⟩,
    update_eq_ok.mpr ⟨founder.verifyingKey P, hkey 0, rfl⟩⟩), ?_⟩
  · intro label' hlabel'
    rw [← Option.some.inj hlabel']
    exact hlabel
  · intro id
    show ((∅ : Std.ExtTreeMap DeviceId (Device P)).insert _ _)[id]? = _
    rw [lookup_insert, Standing.founded, Function.update_apply, Std.ExtTreeMap.getElem?_empty]
    rfl

/-! ## Appending -/

namespace IdentityLog
variable {log log' : IdentityLog P}

theorem append_eq_ok {author : SigningIdentity} {event : Event} {sequence : Sequence} :
    log.append sha256 author event = .ok (log', sequence) ↔
      log.entries.length < maxEntries ∧
      (∃ membership, apply sha256 (log.membership sha256) (log.candidate sha256 author event)
        log.recovery log.head = .ok membership) ∧
      log' = { log with entries := log.entries ++ [log.candidate sha256 author event] } ∧
      sequence = UInt64.ofNat log.entries.length := by
  unfold append
  rcases hevent : event.label with _ | label
  · simp only [bind_eq_ok, failIf_eq_ok, pure_eq_ok, ge_iff_le, not_le, Prod.mk.injEq]
    constructor
    · rintro ⟨_, hlen, membership, happly, hlog, hseq⟩
      exact ⟨hlen, ⟨membership, happly⟩, hlog, hseq⟩
    · rintro ⟨hlen, ⟨membership, happly⟩, hlog, hseq⟩
      exact ⟨(), hlen, membership, happly, hlog, hseq⟩
  · simp only [bind_eq_ok, failIf_eq_ok, pure_eq_ok, ge_iff_le, not_le, Prod.mk.injEq]
    constructor
    · rintro ⟨_, hlen, _, _, membership, happly, hlog, hseq⟩
      exact ⟨hlen, ⟨membership, happly⟩, hlog, hseq⟩
    · rintro ⟨hlen, ⟨membership, happly⟩, hlog, hseq⟩
      -- `apply` checks the label a second time
      have hlabel : checkLabel label = .ok () :=
        failIf_neg _ (by simpa using (apply_eq_ok.mp happly).1 label hevent)
      exact ⟨(), hlen, (), hlabel, membership, happly, hlog, hseq⟩

theorem membership_of_replay {membership : Membership P}
    (h : replay sha256 log.entries log.recovery = .ok membership) :
    log.membership sha256 = membership := by
  rw [IdentityLog.membership, h]

/-- On an accepted log, an append succeeds exactly when a stranger accepts the extended log. -/
theorem append_iff_replay {author : SigningIdentity} {event : Event} {membership : Membership P}
    (h : replay sha256 log.entries log.recovery = .ok membership) :
    (∃ result, log.append sha256 author event = .ok result) ↔
      ∃ after, replay sha256 (log.entries ++ [log.candidate sha256 author event]) log.recovery =
        .ok after := by
  constructor
  · intro ⟨⟨log', sequence⟩, happend⟩
    obtain ⟨hlen, ⟨after, happly⟩, -, -⟩ := append_eq_ok.mp happend
    rw [membership_of_replay h] at happly
    exact ⟨after, (replay_snoc h).mpr ⟨hlen, rfl, happly⟩⟩
  · intro ⟨after, hafter⟩
    obtain ⟨hlen, -, happly⟩ := (replay_snoc h).mp hafter
    rw [← membership_of_replay h] at happly
    exact ⟨_, append_eq_ok.mpr ⟨hlen, ⟨after, happly⟩, rfl, rfl⟩⟩

/-- What a call leaves behind: the log with the entry it signed, or the log as it was. -/
theorem perform_cases (log : IdentityLog P) (call : Call P) :
    (∃ sequence, log.perform sha256 call =
      ({ log with entries := log.entries ++ [log.candidate sha256 call.author call.event] },
        .ok sequence) ∧
      ∃ result, log.append sha256 call.author call.event = .ok result) ∨
    (∃ e, log.perform sha256 call = (log, .error e) ∧
      log.append sha256 call.author call.event = .error e) := by
  unfold perform
  rw [Call.run_eq_append]
  rcases hresult : log.append sha256 call.author call.event with e | ⟨log', sequence⟩
  · right
    exact ⟨e, rfl, rfl⟩
  · left
    obtain ⟨-, -, hlog, -⟩ := append_eq_ok.mp hresult
    rw [hlog]
    exact ⟨sequence, rfl, _, rfl⟩

/-- Every log a holder can have is one that a stranger accepts. -/
theorem replay_of_reachable (hP : P.Correct) (h : Reachable sha256 log) :
    ∃ membership, replay sha256 log.entries log.recovery = .ok membership := by
  induction h with
  | create h =>
    obtain ⟨membership, hreplay, -⟩ := shows_create hP h
    exact ⟨membership, hreplay⟩
  | fromEntries h =>
    unfold IdentityLog.fromEntries at h
    obtain ⟨membership, hreplay, h⟩ := bind_eq_ok.mp h
    rw [pure_eq_ok] at h
    rw [h]
    exact ⟨membership, hreplay⟩
  | @perform log call _ ih =>
    obtain ⟨membership, hreplay⟩ := ih
    rcases perform_cases log call with ⟨sequence, hperform, happend⟩ | ⟨e, hperform, -⟩
    · rw [hperform]
      exact (append_iff_replay hreplay).mp happend
    · rw [hperform]
      exact ⟨membership, hreplay⟩

/-! ## Runs of calls -/

variable (sha256) in
/-- The log after a sequence of calls. -/
def performAll (self : IdentityLog P) (calls : List (Call P)) : IdentityLog P :=
  calls.foldl (fun log call => (log.perform sha256 call).1) self

/-- Calls only ever add entries at the end, and keep the recovery key. -/
theorem performAll_extends (log : IdentityLog P) (calls : List (Call P)) :
    log.entries <+: (log.performAll sha256 calls).entries ∧
      (log.performAll sha256 calls).recovery = log.recovery := by
  induction calls generalizing log with
  | nil => exact ⟨List.prefix_refl _, rfl⟩
  | cons call calls ih =>
    have ⟨hentries, hrecovery⟩ := ih (log.perform sha256 call).1
    show log.entries <+: ((log.perform sha256 call).1.performAll sha256 calls).entries ∧
      ((log.perform sha256 call).1.performAll sha256 calls).recovery = log.recovery
    rcases @perform_cases sha256 P log call with ⟨_, hperform, -⟩ | ⟨_, hperform, -⟩
    · rw [hperform] at hentries hrecovery ⊢
      exact ⟨(List.prefix_append _ _).trans hentries, hrecovery⟩
    · rw [hperform] at hentries hrecovery ⊢
      exact ⟨hentries, hrecovery⟩

theorem reachable_performAll {log : IdentityLog P} (h : Reachable sha256 log)
    (calls : List (Call P)) : Reachable sha256 (log.performAll sha256 calls) := by
  induction calls generalizing log with
  | nil => exact h
  | cons call calls ih => exact ih (h.perform call)

/-- A non-empty log and its extensions have one first entry. -/
theorem head?_of_prefix {xs ys : List Entry} (h : xs <+: ys) (hne : xs ≠ []) :
    ys.head? = xs.head? := by
  obtain ⟨more, rfl⟩ := h
  rw [List.head?_append, List.head?_eq_some_head hne]
  rfl

theorem entries_ne_nil {log : IdentityLog P} {membership : Membership P}
    (h : replay sha256 log.entries log.recovery = .ok membership) : log.entries ≠ [] := by
  intro hnil
  obtain ⟨⟨_, _, _, hhead, _⟩, -⟩ := replay_eq_ok.mp h
  rw [hnil] at hhead
  cases hhead

theorem fromEntries_eq_ok {entries : List Entry} {recovery : VerifyingIdentity P}
    {log : IdentityLog P} :
    fromEntries sha256 entries recovery = .ok log ↔
      (∃ membership, replay sha256 entries recovery = .ok membership) ∧
        log = { entries, recovery } := by
  unfold fromEntries
  simp only [bind_eq_ok, pure_eq_ok]
  constructor
  · rintro ⟨membership, hreplay, hlog⟩
    exact ⟨⟨membership, hreplay⟩, hlog⟩
  · rintro ⟨⟨membership, hreplay⟩, hlog⟩
    exact ⟨membership, hreplay, hlog⟩

end IdentityLog

end HideProtocol.Identity
