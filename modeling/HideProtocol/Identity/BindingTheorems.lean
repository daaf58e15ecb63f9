import HideProtocol.Identity.Bindings
import HideProtocol.Identity.Bookkeeping

/-!
# What a binding binds

A relying party that pins a root learns two things from a recovery binding it accepts: the first
entry of the log it was shown, and with it the founder's key, is fixed by the root; and every
recovery in that log was signed by the key the founder named. Nothing later in the log can take
the binding back, not even the removal of the founder.

An epoch binding goes the other way. It names a point of the log that every extension keeps, but
is checked against the membership the log has now.
-/

namespace HideProtocol.Identity

open Lib Sign Epoch

variable {sha256 : Bytes → Hash} {P : Primitives}

/-! ## Recovery bindings -/

theorem founderKey_eq_ok {entries : List Entry} {key : VerifyingIdentity P} :
    founderKey P entries = .ok key ↔
      ∃ first device label, entries.head? = some first ∧ first.event = .create device label ∧
        VerifyingIdentity.fromBytes P device = .ok key := by
  unfold founderKey
  rcases entries.head? with _ | first
  · simp
  · rcases hevent : first.event with ⟨device, label⟩ | _ | _ | _ <;> simp [hevent]

namespace RecoveryBinding
variable {binding : RecoveryBinding P} {entries : List Entry} {log : IdentityLog P}

theorem verify_eq_ok :
    binding.verify sha256 entries = .ok log ↔
      (∃ founder, founderKey P entries = .ok founder ∧
        founder.verify recoveryBindingContext
          (recoveryMessage binding.root binding.recoveryKey) binding.signature = .ok ()) ∧
      entries.head?.map Entry.link = some binding.root ∧
      (∃ membership, replay sha256 entries binding.recoveryKey = .ok membership) ∧
      log = { entries, recovery := binding.recoveryKey } := by
  unfold verify
  simp only [bind_eq_ok, failIf_eq_ok, mapErr_eq_ok, not_not, IdentityLog.fromEntries_eq_ok,
    exists_const]
  constructor
  · rintro ⟨founder, hfounder, hroot, _, hverify, hreplay, hlog⟩
    exact ⟨⟨founder, hfounder, hverify⟩, hroot, hreplay, hlog⟩
  · rintro ⟨⟨founder, hfounder, hverify⟩, hroot, hreplay, hlog⟩
    exact ⟨founder, hfounder, hroot, (), hverify, hreplay, hlog⟩

theorem verifyPinned_eq_ok {root : Hash} :
    binding.verifyPinned sha256 entries root = .ok log ↔
      binding.root = root ∧ binding.verify sha256 entries = .ok log := by
  unfold verifyPinned
  simp only [bind_eq_ok, failIf_eq_ok, not_not, exists_const]

/-- What the founder's device signs for its log. -/
theorem create_eq_ok {founder : SigningIdentity} :
    create log founder = .ok binding ↔
      founderKey P log.entries = .ok (founder.verifyingKey P) ∧
      binding = { root := log.root, recoveryKey := log.recovery,
                  signature := (founder.sign P recoveryBindingContext
                    (recoveryMessage log.root log.recovery)).toList } := by
  unfold create
  simp only [bind_eq_ok, failIf_eq_ok, pure_eq_ok, ne_eq, not_not, exists_const]
  constructor
  · rintro ⟨key, hkey, hsame, hbinding⟩
    rw [hsame]
    exact ⟨hkey, hbinding⟩
  · rintro ⟨hkey, hbinding⟩
    exact ⟨_, hkey, rfl, hbinding⟩

/-- A binding with a signature of the right length is read back from its bytes. -/
theorem decode_encode (h : binding.signature.length = signatureLength) :
    decode P binding.encode = .ok binding := by
  have hroot : binding.root.toList.length = 32 := Vector.length_toList
  have hkey : binding.recoveryKey.toBytes.toList.length = verifyingKeyLength :=
    Vector.length_toList
  have hencode : binding.encode =
      binding.root.toList ++ (binding.recoveryKey.toBytes.toList ++ binding.signature) := by
    rw [encode, List.append_assoc]
  have hlen : binding.encode.length = recoveryBindingLength := by
    rw [hencode, List.length_append, List.length_append, hroot, hkey, h, recoveryBindingLength,
      Nat.add_assoc]
  unfold decode
  rw [failIf_neg _ (not_not.mpr hlen), ok_bind, hencode, List.take_left' hroot,
    List.drop_left' hroot, tryInto_toList, okOr_some, ok_bind, List.take_left' hkey,
    List.drop_left' hkey, VerifyingIdentity.fromBytes_toBytes]
  rfl

/-- What the founder bound once is accepted with everything that calls make of the log. -/
theorem verifyPinned_performAll (hP : P.Correct) (hlog : IdentityLog.Reachable sha256 log)
    {founder : SigningIdentity} (hcreate : create log founder = .ok binding)
    (calls : List (Call P)) :
    binding.verifyPinned sha256 (log.performAll sha256 calls).entries log.root =
      .ok (log.performAll sha256 calls) := by
  obtain ⟨hfounder, rfl⟩ := create_eq_ok.mp hcreate
  -- a log that calls were made on still begins with the log before
  obtain ⟨_, hbefore⟩ := IdentityLog.replay_of_reachable hP hlog
  obtain ⟨membership, hreplay⟩ := IdentityLog.replay_of_reachable hP
    (IdentityLog.reachable_performAll hlog calls)
  have ⟨hentries, hrecovery⟩ := @IdentityLog.performAll_extends sha256 P log calls
  have hhead := IdentityLog.head?_of_prefix hentries (IdentityLog.entries_ne_nil hbefore)
  rw [verifyPinned_eq_ok, verify_eq_ok]
  refine ⟨rfl, ⟨founder.verifyingKey P, ?_, verify_sign hP _ _ _⟩, ?_, ?_, ?_⟩
  · -- the founder's key is read off the first entry, which no call changes
    rw [founderKey_eq_ok, hhead, ← founderKey_eq_ok]
    exact hfounder
  · rw [hhead]
    obtain ⟨first, _, _, hfirst, -⟩ := founderKey_eq_ok.mp hfounder
    simp only [IdentityLog.root, hfirst]
    rfl
  · rw [hrecovery] at hreplay
    exact ⟨membership, hreplay⟩
  · rw [← hrecovery]

end RecoveryBinding

/-- **A pinned root defeats the recovery hijack.** For a root `r`:

* in a log accepted with a binding pinned to `r`, the founder named by the first entry signed `r`
  and the bound recovery key, every `recover` is signed by that key, and the log replays under
  it;
* two such logs, under any two bindings, have the same first entry, unless two byte strings among
  those hashed for their links collide;
* a binding made for a log is accepted with it and with everything that calls make of it later,
  and is read back from its bytes. -/
theorem pinned_root_defeats_hijack (sha256 : Bytes → Hash) (P : Primitives) :
    (∀ (r : Hash) (binding : RecoveryBinding P) (entries : List Entry) (log : IdentityLog P),
      binding.verifyPinned sha256 entries r = .ok log →
      (∃ first device label founder, entries.head? = some first ∧
        first.event = .create device label ∧ VerifyingIdentity.fromBytes P device = .ok founder ∧
        founder.verify recoveryBindingContext
          (r.toList ++ binding.recoveryKey.toBytes.toList) binding.signature = .ok ()) ∧
      (∀ i entry, entries[i]? = some entry →
        (∃ device label, entry.event = .recover device label) →
        entry.signer = deviceId sha256 binding.recoveryKey ∧
          Verifies binding.recoveryKey (linkBefore entries i) entry) ∧
      ∃ membership, replay sha256 entries binding.recoveryKey = .ok membership) ∧
    (∀ (r : Hash) (binding binding' : RecoveryBinding P) (entries entries' : List Entry)
      (log log' : IdentityLog P),
      binding.verifyPinned sha256 entries r = .ok log →
      binding'.verifyPinned sha256 entries' r = .ok log' →
      entries.head? = entries'.head? ∨
        Collides sha256 (linkInputs entries ++ linkInputs entries')) ∧
    (P.Correct → ∀ (log : IdentityLog P) (founder : SigningIdentity)
      (binding : RecoveryBinding P), IdentityLog.Reachable sha256 log →
      RecoveryBinding.create log founder = .ok binding →
      (∀ calls : List (Call P), binding.verifyPinned sha256
        (log.performAll sha256 calls).entries log.root = .ok (log.performAll sha256 calls)) ∧
      RecoveryBinding.decode P binding.encode = .ok binding) := by
  refine ⟨?_, ?_, ?_⟩
  · intro r binding entries log h
    obtain ⟨hroot, h⟩ := RecoveryBinding.verifyPinned_eq_ok.mp h
    obtain ⟨⟨founder, hfounder, hverify⟩, -, ⟨membership, hreplay⟩, -⟩ :=
      RecoveryBinding.verify_eq_ok.mp h
    obtain ⟨first, device, label, hfirst, hevent, hkey⟩ := founderKey_eq_ok.mp hfounder
    rw [hroot] at hverify
    refine ⟨⟨first, device, label, founder, hfirst, hevent, hkey, hverify⟩, ?_,
      membership, hreplay⟩
    intro i entry hentry ⟨_, _, hrecover⟩
    -- a `recover` is authorised by the recovery key alone
    have hauth := authorisedAt_of_replay hreplay hentry
    unfold AuthorisedAt at hauth
    rw [hrecover] at hauth
    exact ⟨hauth.1.symm, hauth.2⟩
  · intro r binding binding' entries entries' log log' h h'
    obtain ⟨hroot, h⟩ := RecoveryBinding.verifyPinned_eq_ok.mp h
    obtain ⟨hroot', h'⟩ := RecoveryBinding.verifyPinned_eq_ok.mp h'
    obtain ⟨-, hlink, ⟨_, hreplay⟩, -⟩ := RecoveryBinding.verify_eq_ok.mp h
    obtain ⟨-, hlink', ⟨_, hreplay'⟩, -⟩ := RecoveryBinding.verify_eq_ok.mp h'
    obtain ⟨first, hfirst, hlink⟩ := Option.map_eq_some_iff.mp hlink
    obtain ⟨first', hfirst', hlink'⟩ := Option.map_eq_some_iff.mp hlink'
    rw [List.head?_eq_getElem?] at hfirst hfirst'
    -- both first entries have the pinned root as their link
    rcases entry_of_link hreplay hreplay' (List.subset_append_left _ _)
      (List.subset_append_right _ _) hfirst hfirst' (by rw [hlink, hlink', hroot, hroot'])
      with ⟨-, heq, -⟩ | hc
    · left
      rw [List.head?_eq_getElem?, List.head?_eq_getElem?, hfirst, hfirst', heq]
    · right
      exact hc
  · intro hP log founder binding hlog hcreate
    refine ⟨?_, RecoveryBinding.decode_encode ?_⟩
    swap
    · rw [(RecoveryBinding.create_eq_ok.mp hcreate).2]
      exact Vector.length_toList
    intro calls
    exact RecoveryBinding.verifyPinned_performAll hP hlog hcreate calls

/-- Until a log recovers, it replays under any recovery key: this is what a thief with no key of
the log can add to. -/
theorem replay_any_recovery {entries : List Entry} (recovery recovery' : VerifyingIdentity P)
    (h : ∀ entry ∈ entries, ∀ device label, entry.event ≠ .recover device label) :
    replay sha256 entries recovery = replay sha256 entries recovery' := by
  have happly : ∀ entry ∈ entries, ∀ (membership : Membership P) (previous : Hash),
      apply sha256 membership entry recovery previous =
        apply sha256 membership entry recovery' previous := by
    intro entry hentry membership previous
    have hauthor : authorOf sha256 membership entry recovery =
        authorOf sha256 membership entry recovery' := by
      unfold authorOf
      rcases hevent : entry.event with _ | _ | _ | ⟨device, label⟩
      · rfl
      · rfl
      · rfl
      · exact absurd hevent (h entry hentry device label)
    unfold apply
    rw [hauthor]
  have hloop : replayLoop sha256 recovery entries = replayLoop sha256 recovery' entries := by
    have hrun : ∀ (indexed : List (Entry × ℕ)), (∀ pair ∈ indexed, pair.1 ∈ entries) →
        ∀ state, indexed.foldlM (replayStep sha256 recovery) state =
          indexed.foldlM (replayStep sha256 recovery') state := by
      intro indexed
      induction indexed with
      | nil => intros; rfl
      | cons pair indexed ih =>
        intro hpairs state
        have hstep : replayStep sha256 recovery state pair =
            replayStep sha256 recovery' state pair := by
          obtain ⟨entry, index⟩ := pair
          unfold replayStep
          simp only [happly entry (hpairs _ List.mem_cons_self)]
        rw [List.foldlM_cons, List.foldlM_cons, hstep]
        congr 1
        funext state'
        exact ih (fun p hp => hpairs p (List.mem_cons_of_mem _ hp)) state'
    exact hrun _ (fun pair hpair => List.fst_mem_of_mem_zipIdx hpair) _
  unfold replay
  rw [hloop]

namespace IdentityLog

/-- The same entries, under another recovery key. -/
def claim (log : IdentityLog P) (recovery : VerifyingIdentity P) : IdentityLog P :=
  { log with recovery }

theorem claim_entries (log : IdentityLog P) (recovery : VerifyingIdentity P) :
    (log.claim recovery).entries = log.entries := rfl

theorem claim_recovery (log : IdentityLog P) (recovery : VerifyingIdentity P) :
    (log.claim recovery).recovery = recovery := rfl

end IdentityLog

namespace Sample

/-- The log after five calls, under the recovery key that a thief says it has. -/
def thief : IdentityLog Primitives.keyed := (log 5).claim (key 8)

/-- The thief recovers to its own device. -/
def stolen : List Entry :=
  thief.entries ++ [thief.candidate digest (identity 8) (.recover (key 8).toBytes.toList "thief")]

theorem length_thief : thief.entries.length = 6 := by
  rw [thief, IdentityLog.claim_entries]
  exact length_log (by omega)

theorem getElem?_stolen : stolen[6]? =
    some (thief.candidate digest (identity 8) (.recover (key 8).toBytes.toList "thief")) := by
  rw [stolen, show 6 = thief.entries.length from length_thief.symm]
  exact List.getElem?_concat_length

theorem shows_thief : thief.Shows digest (standing 5) := by
  have hnone : ∀ entry ∈ (log 5).entries, ∀ device label, entry.event ≠ .recover device label := by
    intro entry hentry device label hevent
    have hact : (entry.event, entry.signer) ∈ acts 5 := by
      rw [← (run_log 5).2]
      exact List.mem_map_of_mem hentry
    rw [hevent] at hact
    simp [acts, calls, Call.event] at hact
  refine ⟨(log 5).membership digest, ?_, get_log 5⟩
  rw [thief, IdentityLog.claim_entries, IdentityLog.claim_recovery,
    replay_any_recovery (key 8) (key 9) hnone]
  exact replay_log 5

/-- Taken alone, what the thief shows is a log that verifies. -/
theorem replay_stolen : ∃ final, replay digest stolen (key 8) = .ok final ∧
    final.contains (device 8) = true ∧ final.contains (device 1) = false := by
  have hroom : thief.entries.length < maxEntries := by
    rw [length_thief]
    decide
  have hlabel : (utf8 "thief").length ≤ maxLabelBytes := by decide
  have hpermitted : Call.Permitted digest thief.recovery (standing 5)
      (.recover (identity 8) (key 8) "thief") := ⟨hlabel, rfl⟩
  obtain ⟨final, hfinal, hget⟩ :=
    IdentityLog.shows_candidate Primitives.keyed_correct shows_thief hroom hpermitted
  refine ⟨final, hfinal, ?_, ?_⟩
  · rw [contains_eq_isSome, hget]
    simp [Call.effect]
  · rw [contains_eq_isSome, hget]
    simp [Call.effect, device_inj]

theorem binding_founded : ∃ binding, RecoveryBinding.create founded (identity 1) = .ok binding := by
  refine ⟨_, RecoveryBinding.create_eq_ok.mpr ⟨founderKey_eq_ok.mpr ⟨_, _, _, rfl, rfl, ?_⟩, rfl⟩⟩
  exact VerifyingIdentity.fromBytes_toBytes _

end Sample

/-- The theorem at the sample identity: the binding its founder made at the start is accepted with
the log after every call, in which the founder is replaced, and is refused with the log of a thief
that verifies by itself. -/
theorem pinned_root_defeats_hijack_thief :
    ∃ binding, RecoveryBinding.create Sample.founded (Sample.identity 1) = .ok binding ∧
      binding.verifyPinned Sample.digest (Sample.log 6).entries Sample.founded.root =
        .ok (Sample.log 6) ∧
      ((Sample.log 6).membership Sample.digest).contains (Sample.device 1) = false ∧
      RecoveryBinding.decode Primitives.keyed binding.encode = .ok binding ∧
      (∃ final, replay Sample.digest Sample.stolen (Sample.key 8) = .ok final ∧
        final.contains (Sample.device 8) = true ∧ final.contains (Sample.device 1) = false) ∧
      ∀ log, binding.verifyPinned Sample.digest Sample.stolen Sample.founded.root ≠ .ok log := by
  obtain ⟨binding, hcreate⟩ := Sample.binding_founded
  obtain ⟨hsound, -, hcomplete⟩ := pinned_root_defeats_hijack Sample.digest Primitives.keyed
  obtain ⟨hverify, hdecode⟩ := hcomplete Primitives.keyed_correct _ _ _
    (.create Sample.create_founded) hcreate
  have hgrown := hverify (Sample.calls.take 6)
  rw [← Sample.log_eq] at hgrown
  refine ⟨binding, hcreate, hgrown, ?_, hdecode, Sample.replay_stolen, ?_⟩
  · rw [contains_eq_isSome, Sample.get_log]
    simp [Sample.standing, Sample.calls, Call.effects, Call.effect, Sample.device_inj]
  · intro log hok
    -- the recovery in it would have to be signed by the bound key
    obtain ⟨-, hrecover, -⟩ := hsound _ _ _ _ hok
    obtain ⟨hsigner, -⟩ := hrecover 6 _ Sample.getElem?_stolen ⟨_, _, rfl⟩
    have hkey : binding.recoveryKey = Sample.key 9 := by
      rw [(RecoveryBinding.create_eq_ok.mp hcreate).2]
      rfl
    rw [hkey, Sample.deviceId_key] at hsigner
    have hthief : Sample.device 8 = Sample.device 9 := (Sample.deviceId_identity 8).symm.trans hsigner
    rw [Sample.device_inj] at hthief
    exact absurd hthief (by decide)

/-! ## Epoch bindings -/

namespace EpochBinding
variable {binding : EpochBinding} {log : IdentityLog P} {records : List EpochRecord}

/-- Where the fields stand in the bytes of a binding. -/
theorem encode_fields (binding : EpochBinding) :
    binding.encode.take 32 = binding.identityRoot.toList ∧
    (binding.encode.drop 32).take 32 = binding.identityHead.toList ∧
    (binding.encode.drop 64).take 32 = binding.chainHead.toList ∧
    (binding.encode.drop 96).take 8 = beBytes 8 binding.epochs.toNat ∧
    (binding.encode.drop 104).take 32 = binding.signer.toList ∧
    binding.encode.take 136 = binding.message ∧ binding.encode.drop 136 = binding.signature := by
  have hfield : ∀ before field after : Bytes, binding.encode = before ++ (field ++ after) →
      (binding.encode.drop before.length).take field.length = field := by
    intro before field after h
    rw [h, List.drop_left, List.take_left]
  have hmessage : binding.message.length = 136 := by
    simp only [message, List.length_append, Vector.length_toList, length_beBytes]
  have hroot := hfield [] binding.identityRoot.toList
    (binding.identityHead.toList ++ binding.chainHead.toList ++ beBytes 8 binding.epochs.toNat ++
      binding.signer.toList ++ binding.signature) (by simp [encode, message])
  have hhead := hfield binding.identityRoot.toList binding.identityHead.toList
    (binding.chainHead.toList ++ beBytes 8 binding.epochs.toNat ++ binding.signer.toList ++
      binding.signature) (by simp [encode, message])
  have hchain := hfield (binding.identityRoot.toList ++ binding.identityHead.toList)
    binding.chainHead.toList
    (beBytes 8 binding.epochs.toNat ++ binding.signer.toList ++ binding.signature)
    (by simp [encode, message])
  have hepochs := hfield
    (binding.identityRoot.toList ++ binding.identityHead.toList ++ binding.chainHead.toList)
    (beBytes 8 binding.epochs.toNat) (binding.signer.toList ++ binding.signature)
    (by simp [encode, message])
  have hsigner := hfield
    (binding.identityRoot.toList ++ binding.identityHead.toList ++ binding.chainHead.toList ++
      beBytes 8 binding.epochs.toNat) binding.signer.toList binding.signature
    (by simp [encode, message])
  simp only [List.length_append, Vector.length_toList, length_beBytes]
    at hroot hhead hchain hepochs hsigner
  exact ⟨hroot, hhead, hchain, hepochs, hsigner, List.take_left' hmessage, List.drop_left' hmessage⟩

/-- A binding with a signature of the right length is read back from its bytes. -/
theorem decode_encode (h : binding.signature.length = signatureLength) :
    decode binding.encode = .ok binding := by
  obtain ⟨hroot, hhead, hchain, hepochs, hsigner, -, hsignature⟩ := encode_fields binding
  have hlen : binding.encode.length = epochBindingLength := by
    simp only [encode, message, List.length_append, Vector.length_toList, length_beBytes, h]
    rfl
  have hnumber : ofBe (beBytes 8 binding.epochs.toNat) = binding.epochs.toNat :=
    ofBe_beBytes binding.epochs.toNat_lt
  unfold decode
  rw [failIf_neg _ (not_not.mpr hlen), ok_bind]
  simp only [List.drop_zero, hroot, hhead, hchain, hepochs, hsigner, hsignature, hnumber,
    tryInto_toList, okOr_some, ok_bind, UInt64.ofNat_toNat]
  rfl

/-- Any string of the right length is the bytes of a binding. -/
theorem decode_of_length {bytes : Bytes} (h : bytes.length = epochBindingLength) :
    ∃ binding, decode bytes = .ok binding ∧ bytes = binding.encode := by
  have hlen : bytes.length = 32 + (32 + (32 + (8 + (32 + signatureLength)))) := h
  obtain ⟨root, hroot⟩ := @exists_vector 32 (bytes.take 32) (by rw [List.length_take]; omega)
  obtain ⟨head, hhead⟩ := @exists_vector 32 ((bytes.drop 32).take 32)
    (by rw [List.length_take, List.length_drop]; omega)
  obtain ⟨chainHead, hchain⟩ := @exists_vector 32 ((bytes.drop 64).take 32)
    (by rw [List.length_take, List.length_drop]; omega)
  obtain ⟨signer, hsigner⟩ := @exists_vector 32 ((bytes.drop 104).take 32)
    (by rw [List.length_take, List.length_drop]; omega)
  have hcount : ((bytes.drop 96).take 8).length = 8 := by
    rw [List.length_take, List.length_drop]
    omega
  have hlt := ofBe_lt ((bytes.drop 96).take 8)
  rw [hcount] at hlt
  let binding : EpochBinding :=
    { identityRoot := root, identityHead := head, chainHead
      epochs := UInt64.ofNat (ofBe ((bytes.drop 96).take 8)), signer, signature := bytes.drop 136 }
  have hencode : bytes = binding.encode := by
    have hjoin : ∀ i j : ℕ, bytes.take i ++ (bytes.drop i).take j = bytes.take (i + j) :=
      fun i j => List.take_add.symm
    show bytes = root.toList ++ head.toList ++ chainHead.toList ++ beBytes 8 _ ++ signer.toList ++
      bytes.drop 136
    rw [UInt64.toNat_ofNat_of_lt' hlt, beBytes_ofBe hcount, hroot, hhead, hchain, hsigner,
      (hjoin 32 32 : _ = bytes.take 64), (hjoin 64 32 : _ = bytes.take 96),
      (hjoin 96 8 : _ = bytes.take 104), (hjoin 104 32 : _ = bytes.take 136),
      List.take_append_drop]
  refine ⟨binding, ?_, hencode⟩
  rw [hencode]
  apply decode_encode
  show (bytes.drop 136).length = signatureLength
  rw [List.length_drop]
  omega

theorem verify_eq_ok :
    binding.verify sha256 log records = .ok () ↔
      log.root = binding.identityRoot ∧
      (∃ entry ∈ log.entries, entry.link = binding.identityHead) ∧
      Epoch.verify sha256 records = .ok () ∧
      (records ≠ [] ∧ UInt64.ofNat records.length = binding.epochs ∧
        Epoch.chainHead records = binding.chainHead) ∧
      ∃ device, (log.membership sha256).get binding.signer = some device ∧
        device.key.verify epochBindingContext binding.message binding.signature = .ok () := by
  unfold verify verifyByMember
  simp only [bind_eq_ok, failIf_eq_ok, mapErr_eq_ok, okOr_eq_ok, not_not, not_or, ne_eq,
    exists_const, Bool.not_eq_true', Bool.not_eq_false, List.any_eq_true, beq_iff_eq]
  constructor
  · rintro ⟨hroot, hhead, _, hchain, hbound, hdevice⟩
    exact ⟨hroot, hhead, hchain, hbound, hdevice⟩
  · rintro ⟨hroot, hhead, hchain, hbound, hdevice⟩
    exact ⟨hroot, hhead, (), hchain, hbound, hdevice⟩

/-- What a device signs for its chain. -/
theorem create_eq_ok {device : SigningIdentity} :
    create sha256 log device records = .ok binding ↔
      (log.membership sha256).contains (deviceId sha256 (device.verifyingKey P)) = true ∧
      Epoch.verify sha256 records = .ok () ∧ records ≠ [] ∧
      binding.identityRoot = log.root ∧ binding.identityHead = log.head ∧
      binding.chainHead = Epoch.chainHead records ∧
      binding.epochs = UInt64.ofNat records.length ∧
      binding.signer = deviceId sha256 (device.verifyingKey P) ∧
      binding.signature = (device.sign P epochBindingContext binding.message).toList := by
  unfold create
  simp only [bind_eq_ok, failIf_eq_ok, mapErr_eq_ok, pure_eq_ok, exists_const,
    Bool.not_eq_true', Bool.not_eq_false]
  constructor
  · rintro ⟨hmember, _, hchain, hne, hbinding⟩
    rw [hbinding]
    exact ⟨hmember, hchain, hne, rfl, rfl, rfl, rfl, rfl, rfl⟩
  · rintro ⟨hmember, hchain, hne, hroot, hhead, hchainHead, hepochs, hsigner, hsignature⟩
    refine ⟨hmember, (), hchain, hne, ?_⟩
    rcases binding with ⟨_, _, _, _, _, _⟩
    simp only at hroot hhead hchainHead hepochs hsigner hsignature
    subst hroot hhead hchainHead hepochs hsigner
    rw [hsignature]
    rfl

end EpochBinding

/-- The bound head is a link of every extension. -/
theorem head_mem_of_prefix {log : IdentityLog P} {entries : List Entry} (hne : log.entries ≠ [])
    (h : log.entries <+: entries) : ∃ entry ∈ entries, entry.link = log.head := by
  refine ⟨log.entries.getLast hne, h.subset (List.getLast_mem hne), ?_⟩
  rw [IdentityLog.head, List.getLast?_eq_some_getLast hne]
  rfl

/-- With an extension of the log it was made for, a binding is accepted while its device is
listed. -/
theorem verify_of_extension {sha256 : Bytes → Hash} {P : Primitives} (hP : P.Correct)
    {log log' : IdentityLog P} {device : SigningIdentity} {records : List EpochRecord}
    {binding : EpochBinding}
    (hlog : ∃ membership, replay sha256 log.entries log.recovery = .ok membership)
    (hcreate : EpochBinding.create sha256 log device records = .ok binding)
    (hlog' : IdentityLog.fromEntries sha256 log'.entries log.recovery = .ok log')
    (hextends : log.entries <+: log'.entries) :
    (binding.verify sha256 log' records = .ok () ↔
      (log'.membership sha256).contains (deviceId sha256 (device.verifyingKey P)) = true) ∨
    ∃ other, (log'.membership sha256).get binding.signer = some other ∧
      Collides sha256 [deviceIdInput other.key, deviceIdInput (device.verifyingKey P)] := by
  obtain ⟨membership, hreplay⟩ := hlog
  have hne := IdentityLog.entries_ne_nil hreplay
  obtain ⟨-, hchain, hrecords, hroot, hhead, hchainHead, hepochs, hsigner, hsignature⟩ :=
    EpochBinding.create_eq_ok.mp hcreate
  obtain ⟨⟨final, hfinal⟩, hrecovery⟩ := IdentityLog.fromEntries_eq_ok.mp hlog'
  have hmembership : log'.membership sha256 = final := by
    apply IdentityLog.membership_of_replay
    rw [hrecovery]
    exact hfinal
  rw [hmembership]
  rcases hget : final.get binding.signer with _ | other
  · -- not a member: there is no key to verify with
    left
    have hnot : final.contains (deviceId sha256 (device.verifyingKey P)) = false := by
      rw [← hsigner, Membership.contains, Std.ExtTreeMap.contains_eq_isSome_getElem?]
      exact Option.isSome_eq_false_iff.mpr (Option.isNone_iff_eq_none.mpr hget)
    rw [EpochBinding.verify_eq_ok, hmembership, hget, hnot]
    simp
  · -- a member under this id: its key has the same id
    obtain ⟨hbooks, _⟩ := books_of_accepted hfinal
    obtain ⟨hid, hkey, -⟩ := hbooks.enrolled binding.signer other hget
    have hdigest : sha256 (deviceIdInput other.key) =
        sha256 (deviceIdInput (device.verifyingKey P)) := by
      show deviceId sha256 other.key = deviceId sha256 (device.verifyingKey P)
      rw [← hkey, hid, hsigner]
    rcases @eq_or_collides _ _ sha256 [deviceIdInput other.key,
      deviceIdInput (device.verifyingKey P)] _ _ List.mem_cons_self
      (List.mem_cons_of_mem _ List.mem_cons_self) hdigest with hinput | hc
    · left
      have hsame : other.key = device.verifyingKey P := deviceIdInput_inj hinput
      have hin : final.contains (deviceId sha256 (device.verifyingKey P)) = true := by
        rw [← hsigner, Membership.contains, Std.ExtTreeMap.contains_eq_isSome_getElem?]
        exact Option.isSome_iff_exists.mpr ⟨other, hget⟩
      rw [EpochBinding.verify_eq_ok, hmembership, hget, hin]
      refine ⟨fun _ => rfl, fun _ => ⟨?_, ?_, hchain, ⟨hrecords, hepochs.symm, hchainHead.symm⟩,
        other, rfl, ?_⟩⟩
      · rw [hroot, IdentityLog.root, IdentityLog.root, IdentityLog.head?_of_prefix hextends hne]
      · rw [hhead]
        exact head_mem_of_prefix hne hextends
      · rw [hsame, hsignature]
        exact verify_sign hP _ _ _
    · right
      exact ⟨other, rfl, hc⟩

/-- **An epoch binding follows the device's standing.** Made for an accepted log, a device of it
and a chain, a binding is accepted with an extension of that log exactly when the device is a
member there, unless the device listed under its id has another key with the same id; and it is
refused with every log that has another root, and with every log that does not contain the bound
head. -/
theorem epoch_binding_follows_standing (sha256 : Bytes → Hash) (P : Primitives) (hP : P.Correct)
    (log : IdentityLog P) (device : SigningIdentity) (records : List EpochRecord)
    (binding : EpochBinding)
    (hlog : ∃ membership, replay sha256 log.entries log.recovery = .ok membership)
    (hcreate : EpochBinding.create sha256 log device records = .ok binding) :
    (∀ log' : IdentityLog P,
      IdentityLog.fromEntries sha256 log'.entries log.recovery = .ok log' →
      log.entries <+: log'.entries →
      (binding.verify sha256 log' records = .ok () ↔
        (log'.membership sha256).contains (deviceId sha256 (device.verifyingKey P)) = true) ∨
      ∃ other, (log'.membership sha256).get binding.signer = some other ∧
        Collides sha256 [deviceIdInput other.key, deviceIdInput (device.verifyingKey P)]) ∧
    (∀ (other : IdentityLog P) (chain : List EpochRecord), other.root ≠ log.root →
      ∃ e, binding.verify sha256 other chain = .error e) ∧
    (∀ (other : IdentityLog P) (chain : List EpochRecord),
      (∀ entry ∈ other.entries, entry.link ≠ log.head) →
      ∃ e, binding.verify sha256 other chain = .error e) := by
  obtain ⟨-, -, -, hroot, hhead, -⟩ := EpochBinding.create_eq_ok.mp hcreate
  -- a binding is accepted or refused
  have hrefused : ∀ (other : IdentityLog P) (chain : List EpochRecord),
      binding.verify sha256 other chain ≠ .ok () →
      ∃ e, binding.verify sha256 other chain = .error e := by
    intro other chain hnot
    rcases hresult : binding.verify sha256 other chain with e | ⟨⟩
    · exact ⟨e, rfl⟩
    · exact absurd hresult hnot
  refine ⟨fun log' => verify_of_extension hP hlog hcreate, ?_, ?_⟩
  · -- another root
    intro other chain hother
    apply hrefused
    intro hok
    exact hother ((EpochBinding.verify_eq_ok.mp hok).1.trans hroot)
  · intro other chain hother
    apply hrefused
    intro hok
    obtain ⟨entry, hentry, hlink⟩ := (EpochBinding.verify_eq_ok.mp hok).2.1
    exact hother entry hentry (hlink.trans hhead)

namespace Sample

theorem fromEntries_log (n : ℕ) :
    IdentityLog.fromEntries digest (log n).entries (log n).recovery = .ok (log n) := by
  rw [recovery_log]
  exact IdentityLog.fromEntries_eq_ok.mpr ⟨⟨_, replay_log n⟩, by rw [← recovery_log n]⟩

theorem replay_recovery (n : ℕ) : ∃ membership,
    replay digest (log n).entries (log n).recovery = .ok membership := by
  rw [recovery_log n]
  exact ⟨_, replay_log n⟩

section
variable {records : List EpochRecord} {binding : EpochBinding}

/-- The phone can vouch for a chain when it is enrolled first. -/
theorem create_binding (hchain : Epoch.verify digest records = .ok ()) (hne : records ≠ []) :
    ∃ binding, EpochBinding.create digest (log 1) (identity 2) records = .ok binding := by
  have hmember := (@contains_phone 1 (by omega)).mpr (Or.inl rfl)
  rw [← deviceId_identity] at hmember
  unfold EpochBinding.create
  simp only [hmember, hchain, Bool.not_true]
  rw [failIf_neg _ Bool.false_ne_true, ok_bind]
  exact ⟨_, by rw [mapErr_ok, ok_bind, failIf_neg _ hne]; rfl⟩

theorem signer_binding
    (hcreate : EpochBinding.create digest (log 1) (identity 2) records = .ok binding) :
    binding.signer = device 2 := by
  obtain ⟨-, -, -, -, -, -, -, hsigner, -⟩ := EpochBinding.create_eq_ok.mp hcreate
  rw [hsigner, deviceId_identity]

/-- Whoever is listed under the id of the phone has its key. -/
theorem not_collides_phone {n : ℕ} (hn : n ≤ 6) {other : Device Primitives.keyed}
    (h : ((log n).membership digest).get (device 2) = some other) :
    ¬Collides digest [deviceIdInput other.key,
      deviceIdInput ((identity 2).verifyingKey Primitives.keyed)] := by
  rw [key_of_get hn h]
  exact not_collides_self

end

end Sample

/-- The theorem at the sample identity: the phone vouches for a chain of two epochs when it is
enrolled first. The binding is refused while the phone is revoked, holds again when it is
re-enrolled and while it enrols a tablet, and is refused when it has revoked itself and after the
recovery; and the log before the phone was enrolled lacks the bound head. -/
theorem epoch_binding_follows_standing_revoked :
    ∃ binding, EpochBinding.create Sample.digest (Sample.log 1) (Sample.identity 2)
        (Epoch.sampleRecords Sample.digest 2) = .ok binding ∧
      (∀ n, 0 < n → n ≤ 6 →
        (binding.verify Sample.digest (Sample.log n) (Epoch.sampleRecords Sample.digest 2) = .ok () ↔
          n = 1 ∨ n = 3 ∨ n = 4)) ∧
      (∀ chain, ∃ e, binding.verify Sample.digest (Sample.log 0) chain = .error e) ∧
      ∀ chain, ∃ e, binding.verify Sample.digest
        { Sample.log 6 with entries := (Sample.log 6).entries.drop 1 } chain = .error e := by
  have hchain : 2 ≤ Epoch.maxChainEntries := by decide
  obtain ⟨binding, hcreate⟩ := Sample.create_binding (Epoch.verify_sampleRecords hchain)
    (List.ne_nil_of_length_pos (by rw [Epoch.length_sampleRecords]; omega))
  have ⟨hgrown, hroot, hhead⟩ := epoch_binding_follows_standing Sample.digest Primitives.keyed
    Primitives.keyed_correct (Sample.log 1) (Sample.identity 2)
    (Epoch.sampleRecords Sample.digest 2) binding (Sample.replay_recovery 1) hcreate
  -- the digest makes the link of an entry of its position
  have hlink : ∀ {n i : ℕ} {entry : Entry}, (Sample.log n).entries[i]? = some entry →
      entry.link = Sample.device (UInt8.ofNat i) :=
    fun hentry => Sample.link_of_replay (Sample.replay_log _) hentry
  refine ⟨binding, hcreate, ?_, ?_, ?_⟩
  · intro n hpos hn
    have hlog : IdentityLog.fromEntries Sample.digest (Sample.log n).entries
        (Sample.log 1).recovery = .ok (Sample.log n) := by
      rw [Sample.recovery_log 1, ← Sample.recovery_log n]
      exact Sample.fromEntries_log n
    rcases hgrown (Sample.log n) hlog (Sample.prefix_log hpos) with hiff | ⟨other, hother, hc⟩
    · rw [hiff, Sample.deviceId_identity]
      exact Sample.contains_phone hn
    · rw [Sample.signer_binding hcreate] at hother
      exact absurd hc (Sample.not_collides_phone hn hother)
  · intro chain
    refine hhead (Sample.log 0) chain ?_
    intro entry hentry heq
    obtain ⟨i, hi, hget⟩ := List.mem_iff_getElem.mp hentry
    rw [Sample.length_log (by omega)] at hi
    obtain rfl : i = 0 := by omega
    obtain ⟨last, hlast, -⟩ := @Sample.entry_log 1 1 _ rfl
    have hlen : (Sample.log 1).entries.length = 2 := Sample.length_log (by omega)
    rw [hlink (List.getElem?_eq_some_iff.mpr ⟨_, hget⟩), IdentityLog.head,
      List.getLast?_eq_getElem?, hlen, hlast] at heq
    exact absurd (Sample.device_inj.mp (heq.trans (hlink hlast))) (by decide)
  · intro chain
    refine hroot _ chain ?_
    intro heq
    obtain ⟨first, hfirst, -⟩ := @Sample.entry_log 1 0 _ rfl
    obtain ⟨second, hsecond, -⟩ := @Sample.entry_log 6 1 _ rfl
    rw [IdentityLog.root, IdentityLog.root, List.head?_eq_getElem?, List.head?_eq_getElem?,
      List.getElem?_drop, hfirst, hsecond] at heq
    exact absurd (Sample.device_inj.mp ((hlink hsecond).symm.trans (heq.trans (hlink hfirst))))
      (by decide)

end HideProtocol.Identity
