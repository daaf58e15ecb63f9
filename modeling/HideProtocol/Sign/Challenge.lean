import HideProtocol.Sign.Hybrid

/-!
# Challenges

Proving possession of an identity to a live verifier. The verifier states a nonce, an audience and
a window of time; the prover signs all of it; the verifier keeps the nonces already spent, and
drops each one when the clock has passed its expiry.

The main result is about whole runs of the verifier: with a clock that does not go back, a
challenge is accepted at most once, although the record of it is dropped meanwhile.
-/

namespace HideProtocol.Sign

open Lib

def challengeContext : Bytes := utf8 "HIDE/0.5 challenge"

def nonceLength : ℕ := 32

/-- `u64::saturating_add`. -/
def saturatingAdd (a b : UInt64) : UInt64 :=
  if a.toNat + b.toNat < UInt64.size then a + b else UInt64.ofNat (UInt64.size - 1)

/-- A verifier's demand: prove you hold the key, to me, now. An audience is a string in memory,
so its length fits the eight bytes it is signed behind. -/
structure Challenge where
  nonce : Vector UInt8 nonceLength
  audience : String
  issuedAt : UInt64
  validFor : UInt64
  audience_lt : (utf8 audience).length < 2 ^ 64
deriving DecidableEq

namespace Challenge

def expiresAt (self : Challenge) : UInt64 := saturatingAdd self.issuedAt self.validFor

/-- What both sides sign. -/
def toSignedBytes (self : Challenge) : Bytes :=
  self.nonce.toList ++ lenPrefixed 8 (utf8 self.audience) ++ beBytes 8 self.issuedAt.toNat ++
    beBytes 8 self.validFor.toNat

/-- No two challenges have the same bytes: the audience is the only field of varying length and
stands behind its length. -/
theorem toSignedBytes_inj {challenge challenge' : Challenge}
    (h : challenge.toSignedBytes = challenge'.toSignedBytes) : challenge = challenge' := by
  obtain ⟨nonce, audience, issuedAt, validFor, hlt⟩ := challenge
  obtain ⟨nonce', audience', issuedAt', validFor', hlt'⟩ := challenge'
  simp only [toSignedBytes, List.append_assoc] at h
  obtain ⟨hnonce, h⟩ := selfDelimiting_vector nonceLength _ _ _ _ trivial trivial h
  obtain ⟨haudience, h⟩ := selfDelimiting_lenPrefixed 8 _ _ _ _ (by simpa using hlt)
    (by simpa using hlt') h
  obtain ⟨hissued, hvalid⟩ := selfDelimiting_beBytes 8 _ _ _ _ issuedAt.toNat_lt
    issuedAt'.toNat_lt h
  have hvalid := beBytes_inj validFor.toNat_lt validFor'.toNat_lt hvalid
  cases hnonce
  cases utf8_inj haudience
  cases UInt64.toNat_inj.mp hissued
  cases UInt64.toNat_inj.mp hvalid
  rfl

/-- Answers the challenge as the verifier stated it. -/
def answer (P : Primitives) (self : Challenge) (identity : SigningIdentity) :
    Vector UInt8 signatureLength :=
  identity.sign P challengeContext self.toSignedBytes

end Challenge

/-- Why an answer was not accepted. -/
inductive ChallengeError where
  | notSigned
  | expired
  | replayed
deriving DecidableEq, Repr

/-- The nonces already spent, each with the time its challenge expires at. -/
structure SpentNonces where
  seen : List (Vector UInt8 nonceLength × UInt64)
deriving DecidableEq

namespace SpentNonces

def new : SpentNonces := ⟨[]⟩

def forgetExpired (self : SpentNonces) (now : UInt64) : SpentNonces :=
  ⟨self.seen.filter fun spent => decide (spent.2 ≥ now)⟩

section
variable {P : Primitives}

/-- Accepts an answer once. Returns the verdict and the record it leaves. -/
def accept (self : SpentNonces) (challenge : Challenge) (signature : Bytes)
    (prover : VerifyingIdentity P) (now : UInt64) : Except ChallengeError Unit × SpentNonces :=
  -- freshness first, so that an expired answer does not spend the nonce
  if now > challenge.expiresAt then (.error .expired, self)
  else
    match prover.verify challengeContext challenge.toSignedBytes signature with
    | .error _ => (.error .notSigned, self)
    | .ok () =>
      let self := self.forgetExpired now
      if self.seen.any fun spent => spent.1 == challenge.nonce then (.error .replayed, self)
      else (.ok (), ⟨self.seen ++ [(challenge.nonce, challenge.expiresAt)]⟩)

end

end SpentNonces

/-- The arguments of one call of `accept`. -/
structure Call (P : Primitives) where
  challenge : Challenge
  signature : Bytes
  prover : VerifyingIdentity P
  now : UInt64

section
variable {P : Primitives}

namespace Call

def Signed (call : Call P) : Prop :=
  call.prover.verify challengeContext call.challenge.toSignedBytes call.signature = .ok ()

/-- The call on a record: its verdict and the record it leaves. -/
def on (call : Call P) (spent : SpentNonces) : Except ChallengeError Unit × SpentNonces :=
  spent.accept call.challenge call.signature call.prover call.now

/-- The call that hands in an identity's own answer. -/
def answered (P : Primitives) (challenge : Challenge) (identity : SigningIdentity)
    (now : UInt64) : Call P :=
  ⟨challenge, (challenge.answer P identity).toList, identity.verifyingKey P, now⟩

theorem signed_answered (hP : P.Correct) (challenge : Challenge) (identity : SigningIdentity)
    (now : UInt64) : (answered P challenge identity now).Signed :=
  verify_sign hP identity challengeContext challenge.toSignedBytes

/-- The entry an accepted call leaves. -/
def entry (call : Call P) : Vector UInt8 nonceLength × UInt64 :=
  (call.challenge.nonce, call.challenge.expiresAt)

end Call

/-- The record after a sequence of calls on a new one. -/
def recordAfter (calls : List (Call P)) : SpentNonces :=
  calls.foldl (fun spent call => (call.on spent).2) .new

/-- The record the `i`-th call finds. -/
def recordAt (calls : List (Call P)) (i : ℕ) : SpentNonces := recordAfter (calls.take i)

/-- The `i`-th call of a sequence is `call`, and it is accepted. -/
def AcceptedAt (calls : List (Call P)) (i : ℕ) (call : Call P) : Prop :=
  calls[i]? = some call ∧ (call.on (recordAt calls i)).1 = .ok ()

/-- The clock does not go back between calls. -/
def ClockMonotone (calls : List (Call P)) : Prop := calls.Pairwise (·.now ≤ ·.now)

/-! ## What one call does -/

variable {call : Call P} {spent : SpentNonces}

theorem mem_forgetExpired {now : UInt64} {e : Vector UInt8 nonceLength × UInt64} :
    e ∈ (spent.forgetExpired now).seen ↔ e ∈ spent.seen ∧ now ≤ e.2 := by
  simp [SpentNonces.forgetExpired]

/-- No entry that is still live has the nonce. -/
def Fresh (spent : SpentNonces) (nonce : Vector UInt8 nonceLength) (now : UInt64) : Prop :=
  ∀ e ∈ spent.seen, e.1 = nonce → e.2 < now

theorem any_forgetExpired {nonce : Vector UInt8 nonceLength} {now : UInt64} :
    ((spent.forgetExpired now).seen.any fun e => e.1 == nonce) = true ↔ ¬Fresh spent nonce now := by
  simp only [List.any_eq_true, mem_forgetExpired, beq_iff_eq, Fresh, not_forall, UInt64.not_lt,
    exists_prop, and_assoc, and_comm]

/-- The four ways a call ends, each with the record it leaves. -/
theorem on_cases (call : Call P) (spent : SpentNonces) :
    (call.challenge.expiresAt < call.now ∧ call.on spent = (.error .expired, spent)) ∨
    (call.now ≤ call.challenge.expiresAt ∧ ¬call.Signed ∧
      call.on spent = (.error .notSigned, spent)) ∨
    (call.now ≤ call.challenge.expiresAt ∧ call.Signed ∧
      ¬Fresh spent call.challenge.nonce call.now ∧
      call.on spent = (.error .replayed, spent.forgetExpired call.now)) ∨
    (call.now ≤ call.challenge.expiresAt ∧ call.Signed ∧
      Fresh spent call.challenge.nonce call.now ∧
      call.on spent = (.ok (), ⟨(spent.forgetExpired call.now).seen ++ [call.entry]⟩)) := by
  unfold Call.on SpentNonces.accept
  by_cases hnow : call.now > call.challenge.expiresAt
  · left
    exact ⟨hnow, if_pos hnow⟩
  · have hle : call.now ≤ call.challenge.expiresAt := UInt64.not_lt.mp hnow
    rw [if_neg hnow]
    cases hsig : call.prover.verify challengeContext call.challenge.toSignedBytes
        call.signature with
    | error e =>
      right; left
      exact ⟨hle, by simp [Call.Signed, hsig], rfl⟩
    | ok u =>
      by_cases hfresh : Fresh spent call.challenge.nonce call.now
      · have hany := mt any_forgetExpired.mp (not_not.mpr hfresh)
        right; right; right
        exact ⟨hle, hsig, hfresh, if_neg hany⟩
      · right; right; left
        exact ⟨hle, hsig, hfresh, if_pos (any_forgetExpired.mpr hfresh)⟩

/-- A signed call in time is accepted exactly when no live entry has its nonce. -/
theorem on_eq_ok_iff (hsigned : call.Signed) (hlive : call.now ≤ call.challenge.expiresAt) :
    (call.on spent).1 = .ok () ↔ Fresh spent call.challenge.nonce call.now := by
  have hnow : ¬call.challenge.expiresAt < call.now := UInt64.not_lt.mpr hlive
  rcases on_cases call spent with h | h | h | h
  · exact absurd h.1 hnow
  · exact absurd hsigned h.2.1
  · simp [h.2.2.2, h.2.2.1]
  · simp [h.2.2.2, h.2.2.1]

theorem live_of_on_eq_ok (h : (call.on spent).1 = .ok ()) :
    call.now ≤ call.challenge.expiresAt ∧ call.Signed ∧
      Fresh spent call.challenge.nonce call.now ∧
      (call.on spent).2 = ⟨(spent.forgetExpired call.now).seen ++ [call.entry]⟩ := by
  rcases on_cases call spent with hc | hc | hc | hc
  · simp [hc.2] at h
  · simp [hc.2.2] at h
  · simp [hc.2.2.2] at h
  · exact ⟨hc.1, hc.2.1, hc.2.2.1, by rw [hc.2.2.2]⟩

theorem record_of_error {e : ChallengeError} (he : e ≠ .replayed)
    (h : (call.on spent).1 = .error e) : (call.on spent).2 = spent := by
  rcases on_cases call spent with hc | hc | hc | hc
  · rw [hc.2]
  · rw [hc.2.2]
  · rw [hc.2.2.2] at h
    exact absurd (Except.error.inj h).symm he
  · rw [hc.2.2.2] at h
    cases h

theorem record_of_replayed (h : (call.on spent).1 = .error .replayed) :
    (call.on spent).2.seen = spent.seen.filter fun e => decide (call.now ≤ e.2) := by
  rcases on_cases call spent with hc | hc | hc | hc
  · simp [hc.2] at h
  · simp [hc.2.2] at h
  · rw [hc.2.2.2]
    rfl
  · simp [hc.2.2.2] at h

/-- A refused call leaves the record, or what is live of it. -/
theorem record_of_refused (h : (call.on spent).1 ≠ .ok ()) :
    (call.on spent).2 = spent ∨ (call.on spent).2 = spent.forgetExpired call.now := by
  rcases on_cases call spent with hc | hc | hc | hc
  · left; rw [hc.2]
  · left; rw [hc.2.2]
  · right; rw [hc.2.2.2]
  · exact absurd (by rw [hc.2.2.2]) h

/-! ## What a run does -/

variable {calls : List (Call P)}

theorem recordAfter_append (calls : List (Call P)) (call : Call P) :
    recordAfter (calls ++ [call]) = (call.on (recordAfter calls)).2 := by
  simp [recordAfter, List.foldl_append]

/-- What a record knows of the calls that led to it: one entry for each accepted call that the
clock has not passed, and no other. -/
structure Tracks (calls : List (Call P)) (spent : SpentNonces) : Prop where
  nodup : (spent.seen.map Prod.fst).Nodup
  sound : ∀ e ∈ spent.seen, ∃ i call, AcceptedAt calls i call ∧ call.entry = e
  complete : ∀ i call, AcceptedAt calls i call →
    call.entry ∈ spent.seen ∨ ∃ later ∈ calls, call.challenge.expiresAt < later.now

theorem acceptedAt_append_left {i : ℕ} {call : Call P} (h : AcceptedAt calls i call)
    (more : List (Call P)) : AcceptedAt (calls ++ more) i call := by
  obtain ⟨hget, hok⟩ := h
  have hlt : i < calls.length := (List.getElem?_eq_some_iff.mp hget).1
  refine ⟨by rw [List.getElem?_append_left hlt, hget], ?_⟩
  rwa [recordAt, List.take_append_of_le_length hlt.le]

/-- The accepted calls of a longer run are those of the shorter one and, perhaps, the last. -/
theorem acceptedAt_append {i : ℕ} {last call : Call P} (h : AcceptedAt (calls ++ [last]) i call) :
    AcceptedAt calls i call ∨ call = last ∧ (last.on (recordAfter calls)).1 = .ok () := by
  obtain ⟨hget, hok⟩ := h
  by_cases hlt : i < calls.length
  · left
    rw [List.getElem?_append_left hlt] at hget
    rw [recordAt, List.take_append_of_le_length hlt.le] at hok
    exact ⟨hget, hok⟩
  · right
    have hi : i = calls.length := by
      have := (List.getElem?_eq_some_iff.mp hget).1
      rw [List.length_append, List.length_singleton] at this
      omega
    rw [hi, List.getElem?_concat_length] at hget
    cases hget
    rw [recordAt, hi, List.take_left] at hok
    exact ⟨rfl, hok⟩

theorem acceptedAt_last {last : Call P} (h : (last.on (recordAfter calls)).1 = .ok ()) :
    AcceptedAt (calls ++ [last]) calls.length last :=
  ⟨List.getElem?_concat_length, by rwa [recordAt, List.take_left]⟩

/-- A call that is not accepted adds no accepted call. -/
theorem acceptedAt_of_refused {i : ℕ} {last call : Call P}
    (hrefused : (last.on (recordAfter calls)).1 ≠ .ok ())
    (h : AcceptedAt (calls ++ [last]) i call) : AcceptedAt calls i call := by
  rcases acceptedAt_append h with hcall | ⟨-, hok⟩
  · exact hcall
  · exact absurd hok hrefused

/-- What forgetting keeps of a record. -/
theorem Tracks.mem_or_passed {i : ℕ} {call : Call P} (h : Tracks calls spent)
    (hcall : AcceptedAt calls i call) (last : Call P) :
    call.entry ∈ (spent.forgetExpired last.now).seen ∨
      ∃ later ∈ calls ++ [last], call.challenge.expiresAt < later.now := by
  rcases h.complete i call hcall with hmem | ⟨later, hlater, hlt⟩
  · by_cases hlive : last.now ≤ call.challenge.expiresAt
    · left
      exact mem_forgetExpired.mpr ⟨hmem, hlive⟩
    · right
      exact ⟨last, by simp, UInt64.not_le.mp hlive⟩
  · right
    exact ⟨later, List.mem_append_left _ hlater, hlt⟩

theorem Tracks.sound_append {e : Vector UInt8 nonceLength × UInt64} (h : Tracks calls spent)
    (more : List (Call P)) (he : e ∈ spent.seen) :
    ∃ i call, AcceptedAt (calls ++ more) i call ∧ call.entry = e := by
  obtain ⟨i, call, hcall, heq⟩ := h.sound e he
  exact ⟨i, call, acceptedAt_append_left hcall more, heq⟩

theorem tracks_refused {last : Call P} (h : Tracks calls (recordAfter calls))
    (hrefused : (last.on (recordAfter calls)).1 ≠ .ok ()) :
    Tracks (calls ++ [last]) (last.on (recordAfter calls)).2 := by
  rcases record_of_refused hrefused with heq | heq
  · rw [heq]
    refine ⟨h.nodup, fun e he => h.sound_append _ he, ?_⟩
    intro i call hcall
    have hold := acceptedAt_of_refused hrefused hcall
    rcases h.complete i call hold with hmem | ⟨later, hlater, hlt⟩
    · exact .inl hmem
    · exact .inr ⟨later, List.mem_append_left _ hlater, hlt⟩
  · rw [heq]
    refine ⟨h.nodup.sublist (List.filter_sublist.map _), ?_, ?_⟩
    · intro e he
      exact h.sound_append _ (mem_forgetExpired.mp he).1
    · intro i call hcall
      exact h.mem_or_passed (acceptedAt_of_refused hrefused hcall) last

theorem tracks_accepted {last : Call P} (h : Tracks calls (recordAfter calls))
    (hok : (last.on (recordAfter calls)).1 = .ok ()) :
    Tracks (calls ++ [last]) (last.on (recordAfter calls)).2 := by
  obtain ⟨hlive, -, hfresh, heq⟩ := live_of_on_eq_ok hok
  rw [heq]
  refine ⟨?_, ?_, ?_⟩
  · rw [List.map_append, List.nodup_append]
    refine ⟨h.nodup.sublist (List.filter_sublist.map _), by simp, ?_⟩
    intro nonce hnonce nonce' hnonce' hsame
    -- an entry with the nonce survives the forgetting only if it is live, and none is
    obtain ⟨e, he, rfl⟩ := List.mem_map.mp hnonce
    have hnonce'' : nonce' = last.challenge.nonce := List.mem_singleton.mp hnonce'
    obtain ⟨hmem, hle⟩ := mem_forgetExpired.mp he
    exact absurd (hfresh e hmem (hsame.trans hnonce'')) (UInt64.not_lt.mpr hle)
  · intro e he
    rcases List.mem_append.mp he with hold | hnew
    · exact h.sound_append _ (mem_forgetExpired.mp hold).1
    · rw [List.mem_singleton.mp hnew]
      exact ⟨_, last, acceptedAt_last hok, rfl⟩
  · intro i call hcall
    rcases acceptedAt_append hcall with hold | ⟨rfl, -⟩
    · rcases h.mem_or_passed hold last with hmem | hpassed
      · exact .inl (List.mem_append_left _ hmem)
      · exact .inr hpassed
    · exact .inl (by simp)

/-- Every record a verifier reaches tracks the calls that led to it. -/
theorem tracks_recordAfter (calls : List (Call P)) : Tracks calls (recordAfter calls) := by
  induction calls using List.reverseRecOn with
  | nil =>
    refine ⟨List.nodup_nil, by simp [recordAfter, SpentNonces.new], ?_⟩
    intro i call h
    simp [AcceptedAt] at h
  | append_singleton calls last ih =>
    rw [recordAfter_append]
    by_cases hok : (last.on (recordAfter calls)).1 = .ok ()
    · exact tracks_accepted ih hok
    · exact tracks_refused ih hok

theorem acceptedAt_take {i j : ℕ} {call : Call P} :
    AcceptedAt (calls.take j) i call ↔ i < j ∧ AcceptedAt calls i call := by
  unfold AcceptedAt recordAt
  by_cases hij : i < j
  · rw [List.getElem?_take_of_lt hij, List.take_take, min_eq_left hij.le]
    simp [hij]
  · rw [List.getElem?_eq_none (by rw [List.length_take]; omega)]
    simp [hij]

/-- With a clock that does not go back, a nonce is fresh at the `j`-th call exactly when every
earlier accepted call with that nonce has expired by then. -/
theorem fresh_recordAt_iff (hclock : ClockMonotone calls) {j : ℕ} {call : Call P}
    (hcall : calls[j]? = some call) (nonce : Vector UInt8 nonceLength) :
    Fresh (recordAt calls j) nonce call.now ↔
      ∀ i earlier, i < j → AcceptedAt calls i earlier → earlier.challenge.nonce = nonce →
        earlier.challenge.expiresAt < call.now := by
  have htracks := tracks_recordAfter (calls.take j)
  have hsplit : calls = calls.take j ++ calls.drop j := (List.take_append_drop j calls).symm
  have hmem : call ∈ calls.drop j := by
    apply List.mem_of_getElem? (i := 0)
    rw [List.getElem?_drop, Nat.add_zero, hcall]
  -- whatever the record dropped before was passed by a clock that is behind this one
  have hbehind : ∀ later ∈ calls.take j, later.now ≤ call.now := by
    intro later hlater
    rw [ClockMonotone, hsplit, List.pairwise_append] at hclock
    exact hclock.2.2 later hlater call hmem
  constructor
  · intro hfresh i earlier hij hacc hnonce
    have hearlier := acceptedAt_take.mpr ⟨hij, hacc⟩
    rcases htracks.complete i earlier hearlier with hin | ⟨later, hlater, hlt⟩
    · exact hfresh earlier.entry hin hnonce
    · exact UInt64.lt_of_lt_of_le hlt (hbehind later hlater)
  · intro hall e he hnonce
    obtain ⟨i, earlier, hacc, heq⟩ := htracks.sound e he
    obtain ⟨hij, hacc⟩ := acceptedAt_take.mp hacc
    rw [← heq] at hnonce ⊢
    exact hall i earlier hij hacc hnonce

/-- Two accepted calls are for different challenges: at the second, the entry of the first would
still be live. -/
theorem challenge_ne_of_accepted (hclock : ClockMonotone calls) {i j : ℕ} {first second : Call P}
    (hij : i < j) (hfirst : AcceptedAt calls i first) (hsecond : AcceptedAt calls j second) :
    first.challenge ≠ second.challenge := by
  intro hsame
  obtain ⟨hlive, -, hfresh, -⟩ := live_of_on_eq_ok hsecond.2
  have hexpired := (fresh_recordAt_iff hclock hsecond.1 _).mp hfresh i first hij hfirst
    (by rw [hsame])
  rw [hsame] at hexpired
  exact absurd hlive (UInt64.not_le.mpr hexpired)

/-- A run of `accept` over a clock that does not go back: each challenge is accepted at most once,
a signed answer in time is accepted unless its nonce is held by a call that has not expired, a
refused call drops at most what has expired, and no nonce is held twice. -/
theorem accepts_once (calls : List (Call P)) (hclock : ClockMonotone calls) :
    (∀ i j first second, i < j → AcceptedAt calls i first → AcceptedAt calls j second →
      first.challenge ≠ second.challenge) ∧
    (∀ j call, calls[j]? = some call →
      let before := recordAt calls j
      let verdict := (call.on before).1
      let after := (call.on before).2
      (call.Signed → call.now ≤ call.challenge.expiresAt →
        (verdict = .ok () ↔ ¬∃ i earlier, i < j ∧ AcceptedAt calls i earlier ∧
          earlier.challenge.nonce = call.challenge.nonce ∧
          earlier.challenge.expiresAt ≥ call.now)) ∧
      (verdict = .error .expired → after = before) ∧
      (verdict = .error .notSigned → after = before) ∧
      (verdict = .error .replayed →
        after.seen = before.seen.filter fun spent => decide (call.now ≤ spent.2))) ∧
    ∀ j, ((recordAt calls j).seen.map Prod.fst).Nodup := by
  refine ⟨?_, ?_, ?_⟩
  · intro i j first second hij hfirst hsecond
    exact challenge_ne_of_accepted hclock hij hfirst hsecond
  · intro j call hcall before verdict after
    refine ⟨?_, ?_, ?_, ?_⟩
    · intro hsigned hlive
      show (call.on (recordAt calls j)).1 = .ok () ↔ _
      rw [on_eq_ok_iff hsigned hlive, fresh_recordAt_iff hclock hcall]
      simp only [not_exists, not_and, ge_iff_le, UInt64.not_le]
    · exact record_of_error (by decide)
    · exact record_of_error (by decide)
    · exact record_of_replayed
  · intro j
    exact (tracks_recordAfter (calls.take j)).nodup

/-- A challenge stated at the last representable time: its expiry saturates. -/
def lastChallenge : Challenge where
  nonce := Vector.replicate 32 7
  audience := "ssh://host.example"
  issuedAt := UInt64.ofNat (UInt64.size - 1)
  validFor := 60
  audience_lt := by decide

def lastCall : Call .toy :=
  .answered .toy lastChallenge ⟨Vector.replicate 32 0⟩ (UInt64.ofNat (UInt64.size - 1))

/-- The answer to it is accepted, and the same answer given again is not. -/
theorem accepts_once_last :
    AcceptedAt [lastCall, lastCall] 0 lastCall ∧ ¬AcceptedAt [lastCall, lastCall] 1 lastCall := by
  have hsigned : lastCall.Signed := Call.signed_answered Primitives.toy_correct _ _ _
  have hlive : lastCall.now ≤ lastCall.challenge.expiresAt := by decide
  have hfirst : AcceptedAt [lastCall, lastCall] 0 lastCall := by
    refine ⟨rfl, (on_eq_ok_iff hsigned hlive).mpr ?_⟩
    intro e he
    cases he
  have hclock : ClockMonotone [lastCall, lastCall] := by simp [ClockMonotone]
  refine ⟨hfirst, ?_⟩
  intro hsecond
  exact (accepts_once _ hclock).1 0 1 _ _ (by decide) hfirst hsecond rfl

end

end HideProtocol.Sign
