import HideProtocol.Conformance.EpochAgreement
import HideProtocol.Conformance.IdentityAgreement
import HideProtocol.Identity.BindingTheorems

/-!
# Two readers of bindings

What a relying party does with a pinned root: it reads a recovery binding and a log, and then,
under the identity these give it, an epoch chain and the binding of that chain. The two sides order
their checks differently, and only one of them parses the keys it is shown.
-/

namespace HideProtocol.Conformance.Subsystems

open Lib

variable {sha256 : Bytes → Hash} {P : Sign.Primitives}

/-! ## Pinned identities -/

variable (sha256 P) in
/-- Reads a binding and a log, and verifies both against a pinned root. -/
def readPinned (b binding : Bytes) (pinned : Hash) :
    Except Identity.IdentityError (Identity.IdentityLog P) := do
  let binding ← Identity.RecoveryBinding.decode P binding
  let entries ← Identity.decode b
  binding.verifyPinned sha256 entries pinned

variable (sha256 P) in
/-- The same with the independent reader, which returns the entries too. -/
def readPinnedIdentity (b binding pinned : Bytes) :
    Except Refusal (List Entry × Bytes × Replayed) := do
  let (entries, _) ← mapErr .thrown (decodeIdentity b)
  let verified ← verifyRecoveryBinding sha256 P binding entries pinned
  pure (entries, verified)

/-- The three fields of a recovery binding. -/
def boundRoot (binding : Bytes) : Bytes := binding.take 32

def boundKey (binding : Bytes) : Bytes := (binding.drop 32).take verifyingKeyLen

def boundSignature (binding : Bytes) : Bytes := binding.drop (32 + verifyingKeyLen)

section Pinned
variable {b binding : Bytes} {pinned : Hash}

theorem recoveryBinding_decode_eq_ok {found : Identity.RecoveryBinding P} :
    Identity.RecoveryBinding.decode P binding = .ok found ↔
      binding.length = recoveryBindingLen ∧ boundRoot binding = found.root.toList ∧
      Sign.VerifyingIdentity.fromBytes P (boundKey binding) = .ok found.recoveryKey ∧
      boundSignature binding = found.signature := by
  have hdrop : (binding.drop 32).drop Sign.verifyingKeyLength = boundSignature binding := by
    rw [List.drop_drop]
    rfl
  have hroot : ∀ root : Hash, tryInto 32 (binding.take 32) = some root ↔
      boundRoot binding = root.toList := by
    intro root
    constructor
    · intro h
      exact tryInto_eq_some h
    · intro h
      show tryInto 32 (boundRoot binding) = some root
      rw [h, tryInto_toList]
  unfold Identity.RecoveryBinding.decode
  simp only [bind_eq_ok, failIf_eq_ok, okOr_eq_ok, mapErr_eq_ok, pure_eq_ok, ne_eq, not_not,
    exists_const, hroot]
  rw [hdrop]
  constructor
  · intro h
    obtain ⟨hlen, root, hroot, key, hkey, rfl⟩ := h
    exact ⟨hlen, hroot, hkey, rfl⟩
  · intro h
    obtain ⟨hlen, hroot, hkey, hsignature⟩ := h
    refine ⟨hlen, found.root, hroot, found.recoveryKey, hkey, ?_⟩
    rw [hsignature]

/-- What the Rust side accepts. -/
theorem readPinned_eq_ok {log : Identity.IdentityLog P} :
    readPinned sha256 P b binding pinned = .ok log ↔
      binding.length = recoveryBindingLen ∧ boundRoot binding = pinned.toList ∧
      Sign.VerifyingIdentity.fromBytes P (boundKey binding) = .ok log.recovery ∧
      Identity.decode b = .ok log.entries ∧
      (∃ founder, Identity.founderKey P log.entries = .ok founder ∧
        founder.verify recoveryBindingContext (boundRoot binding ++ boundKey binding)
          (boundSignature binding) = .ok ()) ∧
      log.entries.head?.map Identity.Entry.link = some pinned ∧
      ∃ membership, Identity.replay sha256 log.entries log.recovery = .ok membership := by
  unfold readPinned
  simp only [bind_eq_ok, recoveryBinding_decode_eq_ok, Identity.RecoveryBinding.verifyPinned_eq_ok,
    Identity.RecoveryBinding.verify_eq_ok]
  constructor
  · intro h
    obtain ⟨found, ⟨hlen, hroot, hkey, hsignature⟩, entries, hdecode, hpinned, hfounder, hhead,
      hreplay, rfl⟩ := h
    rw [hpinned] at hroot hhead
    refine ⟨hlen, hroot, hkey, hdecode, ?_, hhead, hreplay⟩
    obtain ⟨founder, hfounder, hverify⟩ := hfounder
    refine ⟨founder, hfounder, ?_⟩
    rw [hroot, hsignature, ← Sign.VerifyingIdentity.toBytes_fromBytes hkey, ← hpinned]
    exact hverify
  · intro h
    obtain ⟨hlen, hroot, hkey, hdecode, ⟨founder, hfounder, hverify⟩, hhead, hreplay⟩ := h
    refine ⟨⟨pinned, log.recovery, boundSignature binding⟩, ⟨hlen, hroot, hkey, rfl⟩, log.entries,
      hdecode, rfl, ⟨founder, hfounder, ?_⟩, hhead, hreplay, rfl⟩
    rw [hroot, ← Sign.VerifyingIdentity.toBytes_fromBytes hkey] at hverify
    exact hverify

/-- What the independent side accepts. -/
theorem verifyRecoveryBinding_eq_ok {entries : List Entry} {verified : Bytes × Replayed} :
    verifyRecoveryBinding sha256 P binding entries pinned.toList = .ok verified ↔
      binding.length = recoveryBindingLen ∧ boundRoot binding = pinned.toList ∧
      verified.1 = boundKey binding ∧
      (∃ first, entries.head? = some first ∧ first.link = pinned.toList ∧ first.tag = 1 ∧
        verifyHybrid P first.payload recoveryBindingContext (boundRoot binding ++ boundKey binding)
          (boundSignature binding) = .ok true) ∧
      replayIdentity sha256 P entries (boundKey binding) = .ok verified.2 := by
  unfold verifyRecoveryBinding
  simp only [bind_eq_ok, failIf_eq_ok, okOr_eq_ok, mapErr_eq_ok, pure_eq_ok, ne_eq, not_not,
    exists_const, Bool.not_eq_true', Bool.not_eq_false]
  constructor
  · intro h
    obtain ⟨hlen, hroot, first, hfirst, hlink, htag, ok, hverify, rfl, replayed, hreplay, rfl⟩ := h
    exact ⟨hlen, hroot, rfl, ⟨first, hfirst, hlink.trans hroot, htag, hverify⟩, hreplay⟩
  · intro h
    obtain ⟨hlen, hroot, hkey, ⟨first, hfirst, hlink, htag, hverify⟩, hreplay⟩ := h
    exact ⟨hlen, hroot, first, hfirst, hlink.trans hroot.symm, htag, true, hverify, rfl,
      verified.2, hreplay, Prod.ext hkey rfl⟩

theorem readLog_of_pinned {log : Identity.IdentityLog P}
    (h : readPinned sha256 P b binding pinned = .ok log) :
    ∃ state, readLog sha256 b log.recovery = .ok state := by
  obtain ⟨-, -, -, hdecode, -, -, membership, hreplay⟩ := readPinned_eq_ok.mp h
  refine ⟨(membership, Identity.IdentityLog.head ⟨log.entries, log.recovery⟩), ?_⟩
  unfold readLog Identity.IdentityLog.verify
  rw [hdecode, ok_bind, hreplay]
  rfl

theorem readIdentity_of_pinned {seen : List Entry × Bytes × Replayed}
    (h : readPinnedIdentity sha256 P b binding pinned.toList = .ok seen) :
    (∃ header, decodeIdentity b = .ok (seen.1, header)) ∧
      verifyRecoveryBinding sha256 P binding seen.1 pinned.toList = .ok seen.2 ∧
      readIdentity sha256 P b (boundKey binding) = .ok seen.2.2 := by
  unfold readPinnedIdentity at h
  simp only [bind_eq_ok, mapErr_eq_ok, pure_eq_ok] at h
  obtain ⟨⟨entries, header⟩, hdecode, verified, hverify, rfl⟩ := h
  refine ⟨⟨header, hdecode⟩, hverify, ?_⟩
  unfold readIdentity
  rw [hdecode, ok_bind]
  exact (verifyRecoveryBinding_eq_ok.mp hverify).2.2.2.2

end Pinned

variable (sha256) in
/-- The same entries under the same recovery key, with the same devices, revocations and head. -/
structure SamePinned (log : Identity.IdentityLog P) (seen : List Entry × Bytes × Replayed) :
    Prop where
  entries : seen.1 = log.entries.map view
  key : seen.2.1 = log.recovery.toBytes.toList
  state : Mirrors (log.membership sha256, log.head) seen.2.2

section Pinned
variable {b binding : Bytes} {pinned : Hash} {entries : List Identity.Entry}

/-- Both sides on the encoding of a plain log, with a binding whose key parses. -/
theorem pinned_match (h : Encodes entries b)
    (hplain : ∀ entry ∈ entries, ¬Marked entry ∧ KeyParses P entry)
    {key : Sign.VerifyingIdentity P}
    (hkey : Sign.VerifyingIdentity.fromBytes P (boundKey binding) = .ok key) :
    Matches (SamePinned sha256) (readPinned sha256 P b binding pinned)
      (readPinnedIdentity sha256 P b binding pinned.toList) := by
  have hbytes := Sign.VerifyingIdentity.toBytes_fromBytes hkey
  have hdecode := decode_of_encodes h
  obtain ⟨header, hdecoded⟩ := (decodeIdentity_eq_ok h).mpr
    ⟨rfl, fun entry hentry => (hplain entry hentry).1⟩
  have hreplays := @replays_mirror sha256 P entries h.2.1 hplain key
  apply Matches.of_ok
  · intro log hlog
    obtain ⟨hlen, hroot, hrecovery, hentries, ⟨founder, hfounder, hverify⟩, hhead, membership,
      hreplay⟩ := readPinned_eq_ok.mp hlog
    obtain rfl : entries = log.entries := Except.ok.inj (hdecode.symm.trans hentries)
    obtain rfl : key = log.recovery := Except.ok.inj (hkey.symm.trans hrecovery)
    obtain ⟨seen, hseen, hmirrors⟩ := hreplays.ok_right (by rw [hreplay]; rfl)
    obtain ⟨first, device, label, hfirst, hevent, hdevice⟩ :=
      Identity.founderKey_eq_ok.mp hfounder
    -- the payload of the first entry is the founder's key
    have hpayload : (view first).payload = founder.toBytes.toList := by
      rw [Sign.VerifyingIdentity.toBytes_fromBytes hdevice]
      show first.event.payload = device
      rw [hevent]
      rfl
    obtain ⟨verified, hverified, hiff⟩ := verifyHybrid_toBytes founder recoveryBindingContext
      (boundRoot binding ++ boundKey binding) (boundSignature binding)
    rw [hfirst, Option.map_some, Option.some.injEq] at hhead
    have haccepted : verifyRecoveryBinding sha256 P binding (log.entries.map view) pinned.toList =
        .ok (boundKey binding, seen) := by
      refine verifyRecoveryBinding_eq_ok.mpr ⟨hlen, hroot, rfl, ⟨view first, ?_, ?_, ?_, ?_⟩, ?_⟩
      · rw [List.head?_map, hfirst]
        rfl
      · show first.link.toList = pinned.toList
        rw [hhead]
      · show first.event.tag.toNat = 1
        rw [hevent]
        rfl
      · rw [hpayload, hverified, hiff.mpr hverify]
      · rw [← hbytes]
        exact hseen
    refine ⟨(log.entries.map view, boundKey binding, seen), ?_, rfl, hbytes.symm, ?_⟩
    · unfold readPinnedIdentity
      rw [hdecoded, mapErr_ok, ok_bind]
      simp only [haccepted, ok_bind]
      rfl
    · rw [Identity.IdentityLog.membership_of_replay hreplay]
      exact hmirrors
  · intro seen hseen
    obtain ⟨⟨header', hdecoded'⟩, haccepted, -⟩ := readIdentity_of_pinned hseen
    obtain ⟨hlen, hroot, -, ⟨first, hfirst, hlink, htag, hverified⟩, hreplayed⟩ :=
      verifyRecoveryBinding_eq_ok.mp haccepted
    have hentries : seen.1 = entries.map view :=
      (Prod.mk.inj (Except.ok.inj (hdecoded'.symm.trans hdecoded))).1
    rw [hentries] at hfirst hreplayed
    rw [← hbytes] at hreplayed
    obtain ⟨state, hstate, -⟩ := hreplays.ok_left hreplayed
    obtain ⟨membership, hreplay, -⟩ := bind_eq_ok.mp hstate
    rw [List.head?_map, Option.map_eq_some_iff] at hfirst
    obtain ⟨original, horiginal, rfl⟩ := hfirst
    obtain ⟨device, label, hevent⟩ := create_of_tag htag
    have hpayload : original.event.payload = device := by rw [hevent]; rfl
    obtain ⟨founder, hfounder⟩ := (hplain original (List.mem_of_mem_head? horiginal)).2
      (by rw [hevent]; exact (by decide : (1 : UInt8) ≠ 3))
    have hfounderBytes := Sign.VerifyingIdentity.toBytes_fromBytes hfounder
    obtain ⟨verified, hverify, hiff⟩ := verifyHybrid_toBytes founder recoveryBindingContext
      (boundRoot binding ++ boundKey binding) (boundSignature binding)
    refine ⟨⟨entries, key⟩, readPinned_eq_ok.mpr ⟨hlen, hroot, hkey, hdecode,
      ⟨founder, Identity.founderKey_eq_ok.mpr ⟨original, device, label, horiginal, hevent, ?_⟩, ?_⟩,
      ?_, membership, hreplay⟩⟩
    · rw [← hpayload]
      exact hfounder
    · apply hiff.mp
      have hsame : (view original).payload = founder.toBytes.toList := hfounderBytes.symm
      rw [hsame, hverify] at hverified
      exact Except.ok.inj hverified
    · rw [horiginal, Option.map_some, Option.some.injEq]
      exact Vector.toList_inj.mp hlink

theorem pinned_match_of_plain (hplain : Plain P b)
    (hkey : ∃ key, Sign.VerifyingIdentity.fromBytes P (boundKey binding) = .ok key) :
    Matches (SamePinned sha256) (readPinned sha256 P b binding pinned)
      (readPinnedIdentity sha256 P b binding pinned.toList) := by
  obtain ⟨key, hkey⟩ := hkey
  apply Matches.of_ok
  · intro log hlog
    obtain ⟨state, hstate⟩ := readLog_of_pinned hlog
    obtain ⟨entries, hentries, -⟩ := encodes_of_readLog hstate
    exact (pinned_match hentries (hplain entries hentries) hkey).ok_right hlog
  · intro seen hseen
    obtain ⟨-, -, hread⟩ := readIdentity_of_pinned hseen
    obtain ⟨entries, hentries, -⟩ := encodes_of_readIdentity hread
    obtain ⟨log, hlog, -⟩ := (pinned_match hentries (hplain entries hentries) hkey).ok_left hseen
    exact ⟨log, hlog⟩

/-- One side parses the keys, the other refuses the marks. -/
theorem plain_of_both {log : Identity.IdentityLog P} {seen : List Entry × Bytes × Replayed}
    (hlog : readPinned sha256 P b binding pinned = .ok log)
    (hseen : readPinnedIdentity sha256 P b binding pinned.toList = .ok seen) :
    Plain P b ∧ ∃ key, Sign.VerifyingIdentity.fromBytes P (boundKey binding) = .ok key := by
  obtain ⟨state, hstate⟩ := readLog_of_pinned hlog
  obtain ⟨parsed, hparsed, hkeys⟩ := encodes_of_readLog hstate
  obtain ⟨-, -, hread⟩ := readIdentity_of_pinned hseen
  obtain ⟨unmarked, hunmarked, hlabels⟩ := encodes_of_readIdentity hread
  refine ⟨?_, log.recovery, (readPinned_eq_ok.mp hlog).2.2.1⟩
  intro entries hentries entry hentry
  constructor
  · exact hlabels entry (hentries.unique hunmarked ▸ hentry)
  · exact hkeys entry (hentries.unique hparsed ▸ hentry)

/-- **When the two checks of a pinned identity agree.** For every log, recovery binding and pinned
root they accept together, with the same entries, recovery key, devices, revocations and head,
except where one of them accepts and a label starts with a byte order mark, or an added key or the
bound key is no key: there they differ. -/
theorem pinned_readers_agree_iff (sha256 : Bytes → Hash) (P : Sign.Primitives) (b binding : Bytes)
    (pinned : Hash) :
    Matches (SamePinned sha256) (readPinned sha256 P b binding pinned)
        (readPinnedIdentity sha256 P b binding pinned.toList) ↔
      ((∃ log, readPinned sha256 P b binding pinned = .ok log) ∨
          (∃ seen, readPinnedIdentity sha256 P b binding pinned.toList = .ok seen) →
        Plain P b ∧ ∃ key, Sign.VerifyingIdentity.fromBytes P (boundKey binding) = .ok key) := by
  constructor
  · intro hmatch haccepted
    rcases haccepted with ⟨log, hlog⟩ | ⟨seen, hseen⟩
    · obtain ⟨seen, hseen, -⟩ := hmatch.ok_right hlog
      exact plain_of_both hlog hseen
    · obtain ⟨log, hlog, -⟩ := hmatch.ok_left hseen
      exact plain_of_both hlog hseen
  · intro hplain
    apply Matches.of_ok
    · intro log hlog
      obtain ⟨hplain, hkey⟩ := hplain (Or.inl ⟨log, hlog⟩)
      exact (pinned_match_of_plain hplain hkey).ok_right hlog
    · intro seen hseen
      obtain ⟨hplain, hkey⟩ := hplain (Or.inr ⟨seen, hseen⟩)
      obtain ⟨log, hlog, -⟩ := (pinned_match_of_plain hplain hkey).ok_left hseen
      exact ⟨log, hlog⟩

end Pinned

/-! ## Bound epoch chains -/

/-- The fields of an epoch binding, each where its bytes stand. -/
theorem epochBinding_decode {bytes : Bytes} (h : bytes.length = epochBindingLen) :
    ∃ found, Identity.EpochBinding.decode bytes = .ok found ∧
      found.identityRoot.toList = bytes.take 32 ∧
      found.identityHead.toList = (bytes.drop 32).take 32 ∧
      found.chainHead.toList = (bytes.drop 64).take 32 ∧
      found.epochs.toNat = ofBe ((bytes.drop 96).take 8) ∧
      found.signer.toList = (bytes.drop 104).take 32 ∧
      found.message = bytes.take 136 ∧ found.signature = bytes.drop 136 := by
  obtain ⟨found, hdecode, rfl⟩ := Identity.EpochBinding.decode_of_length h
  obtain ⟨hroot, hhead, hchain, hepochs, hsigner, hmessage, hsignature⟩ := found.encode_fields
  refine ⟨found, hdecode, hroot.symm, hhead.symm, hchain.symm, ?_, hsigner.symm, hmessage.symm,
    hsignature.symm⟩
  rw [hepochs, ofBe_beBytes found.epochs.toNat_lt]

/-- Both sides look a device up and verify under its key. -/
theorem verifyByMember_match {membership : Identity.Membership P} {seen : Replayed}
    (h : Renamed Vector.toList viewDevice membership.devices seen.devices) (signer : Hash)
    (message signature : Bytes) :
    Matches (fun _ _ => True) (Identity.verifyByMember membership signer message signature)
      (do
        let device ← okOr seen.devices[signer.toList]? (Refusal.code .unauthorised)
        let verified ← mapErr Refusal.thrown
          (verifyHybrid P device.key epochBindingContext message signature)
        failIf (!verified) Refusal.badBinding) := by
  unfold Identity.verifyByMember Identity.Membership.get
  rw [h.lookup]
  cases membership.devices[signer]? with
  | none => trivial
  | some device =>
    obtain ⟨verified, hverified, hiff⟩ :=
      verifyHybrid_toBytes device.key epochBindingContext message signature
    have hkey : (viewDevice device).key = device.key.toBytes.toList := rfl
    rw [Option.map_some, okOr_some, okOr_some, ok_bind, ok_bind, hkey, hverified, mapErr_ok,
      ok_bind]
    have hcontext : Identity.epochBindingContext = epochBindingContext := rfl
    rw [hcontext]
    apply Matches.of_ok
    · intro u hu
      refine ⟨(), failIf_eq_ok.mpr ?_, trivial⟩
      rw [hiff.mpr (mapErr_eq_ok.mp hu)]
      decide
    · intro u hu
      have htrue : verified = true := by simpa using failIf_eq_ok.mp hu
      exact ⟨(), mapErr_eq_ok.mpr (hiff.mp htrue)⟩

/-- The check of an epoch binding, under an identity that both sides have verified. -/
theorem verifyEpochBinding_match {log : Identity.IdentityLog P} (hne : log.entries ≠ [])
    {seen : List Entry × Bytes × Replayed} (h : SamePinned sha256 log seen)
    (records : List Epoch.EpochRecord) (bytes : Bytes) :
    Matches (fun _ _ => True)
      (do
        let found ← Identity.EpochBinding.decode bytes
        found.verify sha256 log records)
      (verifyEpochBinding sha256 P bytes seen.2.2 seen.1 (records.map viewEpoch)) := by
  by_cases hlen : bytes.length = epochBindingLen
  · obtain ⟨found, hdecode, hroot, hhead, hchain, hepochs, hsigner, hmessage, hsignature⟩ :=
      epochBinding_decode hlen
    obtain ⟨first, rest, hentries⟩ := List.exists_cons_of_ne_nil hne
    have hfirst : seen.1.head? = some (view first) := by
      rw [h.entries, hentries]
      rfl
    rw [hdecode, ok_bind]
    unfold Identity.EpochBinding.verify verifyEpochBinding
    rw [failIf_neg _ (not_not.mpr hlen), ok_bind, hfirst, okOr_some, ok_bind]
    simp only [← hroot, ← hhead, ← hchain, ← hepochs, ← hsigner, ← hmessage, ← hsignature]
    have hname : log.root ≠ found.identityRoot ↔ found.identityRoot.toList ≠ (view first).link := by
      have hlink : log.root = first.link := by
        unfold Identity.IdentityLog.root
        rw [hentries]
        rfl
      rw [hlink, ne_eq, ne_eq, eq_comm, ← Vector.toList_inj]
      rfl
    apply Matches.check hname
    intro _
    have hany : (log.entries.any fun entry => entry.link == found.identityHead) =
        seen.1.any fun entry => entry.link == found.identityHead.toList := by
      rw [h.entries, List.any_map]
      apply List.any_congr rfl
      intro entry
      rw [Bool.eq_iff_iff, Function.comp_apply, beq_iff_eq, beq_iff_eq]
      exact Vector.toList_inj.symm
    apply Matches.check (by rw [hany])
    intro _
    -- the chain, whose verification the Rust side reports as a stale binding
    cases hverify : Epoch.verify sha256 records with
    | error e =>
      have halike := @verifyEpochs_alike sha256 records
      rw [hverify] at halike
      cases hseen : verifyEpochs sha256 (records.map viewEpoch) with
      | ok head =>
        rw [hseen] at halike
        exact halike.elim
      | error refusal => trivial
    | ok u =>
      obtain ⟨head, hcomputed, hsame⟩ :=
        (@verifyEpochs_alike sha256 records).toMatches.ok_right hverify
      have hmax : Epoch.maxChainEntries < 2 ^ 64 := by decide
      have hcount := (Epoch.verify_eq_ok.mp hverify).1
      rw [hcomputed, mapErr_ok, ok_bind, ok_bind]
      apply Matches.check
      · have hnumber : UInt64.ofNat records.length = found.epochs ↔
            records.length = found.epochs.toNat := by
          rw [← UInt64.toNat_inj, UInt64.toNat_ofNat_of_lt' (by show _ < 2 ^ 64; omega)]
        rw [List.length_map, hsame, List.length_eq_zero_iff, ne_eq, ne_eq, ne_eq, ne_eq, hnumber,
          Vector.toList_inj]
        exact or_left_comm
      · intro _
        exact verifyByMember_match h.state.devices _ _ _
  · unfold Identity.EpochBinding.decode verifyEpochBinding
    rw [failIf_pos _ (show bytes.length ≠ Identity.epochBindingLength from hlen), failIf_pos _ hlen]
    trivial

variable (sha256 P) in
/-- Reads an epoch chain and its binding under a pinned identity. -/
def readBound (b binding chain epochBinding : Bytes) (pinned : Hash) :
    Except Identity.IdentityError (Identity.IdentityLog P × List Epoch.EpochRecord) := do
  let log ← readPinned sha256 P b binding pinned
  let records ← mapErr (fun _ => .malformed) (Epoch.decodeRecords chain)
  let found ← Identity.EpochBinding.decode epochBinding
  found.verify sha256 log records
  pure (log, records)

variable (sha256 P) in
/-- The same with the independent readers. -/
def readBoundEpochs (b binding chain epochBinding pinned : Bytes) :
    Except Refusal ((List Entry × Bytes × Replayed) × List EpochRecord) := do
  let seen ← readPinnedIdentity sha256 P b binding pinned
  let records ← mapErr .thrown (decodeEpochs chain)
  verifyEpochBinding sha256 P epochBinding seen.2.2 seen.1 records
  pure (seen, records)

section Bound
variable {b binding chain epochBinding : Bytes} {pinned : Hash}

theorem pinned_of_readBound {read : Identity.IdentityLog P × List Epoch.EpochRecord}
    (h : readBound sha256 P b binding chain epochBinding pinned = .ok read) :
    readPinned sha256 P b binding pinned = .ok read.1 := by
  obtain ⟨log, hlog, h⟩ := bind_eq_ok.mp h
  obtain ⟨records, -, h⟩ := bind_eq_ok.mp h
  obtain ⟨found, -, h⟩ := bind_eq_ok.mp h
  obtain ⟨_, -, h⟩ := bind_eq_ok.mp h
  rw [pure_eq_ok.mp h]
  exact hlog

theorem pinned_of_readBoundEpochs {read : (List Entry × Bytes × Replayed) × List EpochRecord}
    (h : readBoundEpochs sha256 P b binding chain epochBinding pinned.toList = .ok read) :
    readPinnedIdentity sha256 P b binding pinned.toList = .ok read.1 := by
  obtain ⟨seen, hseen, h⟩ := bind_eq_ok.mp h
  obtain ⟨records, -, h⟩ := bind_eq_ok.mp h
  obtain ⟨_, -, h⟩ := bind_eq_ok.mp h
  rw [pure_eq_ok.mp h]
  exact hseen

theorem bound_match_of_plain (hplain : Plain P b)
    (hkey : ∃ key, Sign.VerifyingIdentity.fromBytes P (boundKey binding) = .ok key) :
    Matches (fun read seen => SamePinned sha256 read.1 seen.1 ∧ seen.2 = read.2.map viewEpoch)
      (readBound sha256 P b binding chain epochBinding pinned)
      (readBoundEpochs sha256 P b binding chain epochBinding pinned.toList) := by
  have hpinned := @pinned_match_of_plain sha256 P b binding pinned hplain hkey
  unfold readBound readBoundEpochs
  cases hlog : readPinned sha256 P b binding pinned with
  | error e =>
    rw [hlog] at hpinned
    cases hseen : readPinnedIdentity sha256 P b binding pinned.toList with
    | ok seen =>
      rw [hseen] at hpinned
      exact hpinned.elim
    | error refusal => trivial
  | ok log =>
    obtain ⟨seen, hseen, hsame⟩ := hpinned.ok_right hlog
    obtain ⟨-, -, -, -, -, -, membership, hreplay⟩ := readPinned_eq_ok.mp hlog
    have hne := Identity.IdentityLog.entries_ne_nil hreplay
    have hdecoders : Matches (fun records read => read = records.map viewEpoch)
        (mapErr (fun _ => Identity.IdentityError.malformed) (Epoch.decodeRecords chain))
        (mapErr Refusal.thrown (decodeEpochs chain)) := (decoders_match chain).mapErr
    rw [hseen, ok_bind, ok_bind]
    apply hdecoders.bind
    intro records read hread
    subst hread
    rw [← bind_assoc]
    apply (verifyEpochBinding_match hne hsame records epochBinding).bind
    intro _ _ _
    exact ⟨hsame, rfl⟩

/-- **When the two checks of a bound epoch chain agree.** For every log, recovery binding, pinned
root, epoch chain and epoch binding both sides accept together, under the same identity and with the
same epochs, except where they differ about the identity already. -/
theorem bound_readers_agree_iff (sha256 : Bytes → Hash) (P : Sign.Primitives)
    (b binding chain epochBinding : Bytes) (pinned : Hash) :
    Matches (fun read seen => SamePinned sha256 read.1 seen.1 ∧ seen.2 = read.2.map viewEpoch)
        (readBound sha256 P b binding chain epochBinding pinned)
        (readBoundEpochs sha256 P b binding chain epochBinding pinned.toList) ↔
      ((∃ read, readBound sha256 P b binding chain epochBinding pinned = .ok read) ∨
          (∃ seen, readBoundEpochs sha256 P b binding chain epochBinding pinned.toList = .ok seen) →
        Plain P b ∧ ∃ key, Sign.VerifyingIdentity.fromBytes P (boundKey binding) = .ok key) := by
  constructor
  · intro hmatch haccepted
    rcases haccepted with ⟨read, hread⟩ | ⟨seen, hseen⟩
    · obtain ⟨seen, hseen, -⟩ := hmatch.ok_right hread
      exact plain_of_both (pinned_of_readBound hread) (pinned_of_readBoundEpochs hseen)
    · obtain ⟨read, hread, -⟩ := hmatch.ok_left hseen
      exact plain_of_both (pinned_of_readBound hread) (pinned_of_readBoundEpochs hseen)
  · intro hplain
    apply Matches.of_ok
    · intro read hread
      obtain ⟨hplain, hkey⟩ := hplain (Or.inl ⟨read, hread⟩)
      exact (bound_match_of_plain hplain hkey).ok_right hread
    · intro seen hseen
      obtain ⟨hplain, hkey⟩ := hplain (Or.inr ⟨seen, hseen⟩)
      obtain ⟨read, hread, -⟩ := (bound_match_of_plain hplain hkey).ok_left hseen
      exact ⟨read, hread⟩

end Bound

end HideProtocol.Conformance.Subsystems
