import HideProtocol.Epoch.Lookups
import HideProtocol.Identity.BindingTheorems

/-!
# The key of a bound epoch

A sender takes an identity log, an epoch binding and a chain from whoever hands them out, and
encrypts to one of the epochs. The device behind the binding mints and erases epochs all the while.
Whatever the sender has accepted is a part of the device's own chain, so the key it uses is one the
device has made, and the device either still holds the secret of that key or has erased it.
-/

namespace HideProtocol.Epoch

open Lib Crypto

variable {sha256 : Bytes → Hash} {records more : List EpochRecord}

theorem linkInputs_of_append : linkInputs records ⊆ linkInputs (records ++ more) := by
  induction more using List.reverseRecOn with
  | nil => simp
  | append_singleton more record ih =>
    rw [← List.append_assoc, linkInputs_append]
    exact List.Subset.trans ih (List.subset_append_left _ _)

namespace EpochChain

variable {P : Primitives} {chain : EpochChain}

/-- No call takes a record back. -/
theorem records_apply (chain : EpochChain) (operation : Operation) :
    chain.records <+: (chain.apply P operation).records := by
  cases operation with
  | advance generated =>
    show chain.records <+: (chain.advance P generated).2.records
    rcases advance_cases (P := P) chain generated with ⟨e, heq⟩ | ⟨secret, -, -, heq⟩
    · rw [heq]
    · rw [heq]
      exact List.prefix_append _ _
  | erase number =>
    show chain.records <+: (chain.erase 64 number).2.records
    rw [(erase_frame chain number).1]
  | eraseBefore keepFrom => exact List.prefix_rfl

theorem records_run (chain : EpochChain) (operations : List Operation) :
    chain.records <+: (chain.run P operations).records := by
  induction operations generalizing chain with
  | nil => exact List.prefix_rfl
  | cons operation operations ih => exact (records_apply chain operation).trans (ih _)

theorem records_run_take (chain : EpochChain) (operations : List Operation) (n : ℕ) :
    (chain.run P (operations.take n)).records <+: (chain.run P operations).records := by
  have hsplit : chain.run P operations =
      (chain.run P (operations.take n)).run P (operations.drop n) := by
    rw [run, run, run, ← List.foldl_append, List.take_append_drop]
  rw [hsplit]
  exact records_run _ _

/-- Under the number of an epoch, the chain has its secret or none. -/
theorem secret_cases (h : Coherent P chain) {number : EpochNumber} {record : EpochRecord}
    (hrecord : chain.records[number.toNat]? = some record) :
    (∃ secret, chain.secret 64 number = .ok secret ∧
      publicKeyBytes P secret = record.publicKey) ∨
    chain.secret 64 number = .error (.erased number) := by
  have hlt : number.toNat < chain.secrets.length := by
    rw [h.length]
    exact (List.getElem?_eq_some_iff.mp hrecord).1
  have hslot : chain.secrets[number.toNat]? = some chain.secrets[number.toNat] :=
    List.getElem?_eq_getElem hlt
  unfold secret
  rw [asUsize_64, hslot, okOr_some, ok_bind]
  rcases hsecret : (chain.secrets[number.toNat]).secret with _ | secret
  · right
    rfl
  · left
    exact ⟨secret, rfl, h.matching _ _ secret record hslot hsecret hrecord⟩

end EpochChain

end HideProtocol.Epoch

namespace HideProtocol.Identity

open Lib Sign
open Epoch (EpochRecord EpochNumber EpochChain)

/-- The binding was not forged: if it verifies under the key of a device, it names the chain of the
device as it stood after some of the calls. -/
def BindsOwn {S : Primitives} (P : Crypto.Primitives) (key : VerifyingIdentity S)
    (binding : EpochBinding) (chain : EpochChain) (operations : List EpochChain.Operation) : Prop :=
  key.verify epochBindingContext binding.message binding.signature = .ok () →
    ∃ n : ℕ, let records := (chain.run P (operations.take n)).records
      binding.chainHead = Epoch.chainHead records ∧
        binding.epochs = UInt64.ofNat records.length

section
variable {P : Crypto.Primitives} {S : Primitives} {log : IdentityLog S} {device : Device S}
  {binding : EpochBinding} {records : List EpochRecord} {chain : EpochChain}
  {operations : List EpochChain.Operation}

/-- What is accepted with a binding of the device is a beginning of its chain. -/
theorem records_of_binding (hstart : EpochChain.Started P chain)
    (hbinds : BindsOwn P device.key binding chain operations)
    (hdevice : (log.membership P.sha256).get binding.signer = some device)
    (h : binding.verify P.sha256 log records = .ok ()) :
    records <+: (chain.run P operations).records ∨
      Collides P.sha256 (Epoch.linkInputs records ++
        Epoch.linkInputs (chain.run P operations).records) := by
  obtain ⟨-, -, hverified, ⟨-, hepochs, hhead⟩, found, hfound, hsignature⟩ :=
    EpochBinding.verify_eq_ok.mp h
  rw [hdevice, Option.some.injEq] at hfound
  subst hfound
  obtain ⟨n, hchainHead, hcount⟩ := hbinds hsignature
  have hcoherent := hstart.coherent.run (operations.take n)
  have hpre := EpochChain.records_run_take (P := P) chain operations n
  -- the bound chain has the length and the head of the one that was shown
  have hlen : records.length = (chain.run P (operations.take n)).records.length := by
    have hmax := Epoch.length_of_verify hverified
    have hmax' := Epoch.length_of_verify hcoherent.verified
    have hsize : Epoch.maxChainEntries < UInt64.size := by decide
    have hcounts : UInt64.ofNat records.length =
        UInt64.ofNat (chain.run P (operations.take n)).records.length := by
      rw [hepochs, hcount]
    rw [← UInt64.toNat_ofNat_of_lt' (show records.length < UInt64.size by omega), hcounts,
      UInt64.toNat_ofNat_of_lt' (by omega)]
  obtain ⟨more, hmore⟩ := hpre
  have hinputs : Epoch.linkInputs (chain.run P (operations.take n)).records ⊆
      Epoch.linkInputs (chain.run P operations).records := by
    rw [← hmore]
    exact Epoch.linkInputs_of_append
  rcases Epoch.eq_of_chainHead hverified hcoherent.verified
    (List.subset_append_left _ (Epoch.linkInputs (chain.run P operations).records))
    (List.subset_append_of_subset_right _ hinputs) hlen
    (hhead.trans hchainHead) with heq | hc
  · left
    rw [heq]
    exact ⟨more, hmore⟩
  · exact Or.inr hc

end

/-- **The key of a bound epoch is the device's.** Whatever epoch of an accepted chain a sender
resolves to a key, the device has minted this epoch with this key; it holds the secret of the key,
or has erased it. -/
theorem bound_epoch_keys_are_the_devices (P : Crypto.Primitives) (S : Primitives)
    (log : IdentityLog S) (device : Device S) (binding : EpochBinding) (records : List EpochRecord)
    (chain : EpochChain) (operations : List EpochChain.Operation)
    (hstart : EpochChain.Started P chain) (hbinds : BindsOwn P device.key binding chain operations)
    (hdevice : (log.membership P.sha256).get binding.signer = some device)
    (hverify : binding.verify P.sha256 log records = .ok ()) :
    let now := chain.run P operations
    (records <+: now.records ∧
      ∀ (accepts : Vector UInt8 Crypto.publicKeyLength → Bool)
        (display : Crypto.CryptoError → String) (number : EpochNumber)
        (recipient : Crypto.RecipientPublic),
        Epoch.recipientFor accepts display 64 records number = .ok recipient →
        now.publicKey 64 number = .ok recipient.key.toList ∧
          ((∃ secret, now.secret 64 number = .ok secret ∧ secret.publicKey P = recipient) ∨
            now.secret 64 number = .error (.erased number))) ∨
    Collides P.sha256 (Epoch.linkInputs records ++ Epoch.linkInputs now.records) := by
  intro now
  rcases records_of_binding hstart hbinds hdevice hverify with hpre | hc
  · refine Or.inl ⟨hpre, ?_⟩
    intro accepts display number recipient hrecipient
    unfold Epoch.recipientFor at hrecipient
    obtain ⟨record, hrecord, hkey⟩ := bind_eq_ok.mp hrecipient
    rw [okOr_eq_ok, asUsize_64] at hrecord
    have hbytes := Crypto.bytes_of_fromBytes (mapErr_eq_ok.mp hkey)
    have hnow : now.records[number.toNat]? = some record := by
      obtain ⟨more, hmore⟩ := hpre
      rw [← hmore, List.getElem?_append_left (List.getElem?_eq_some_iff.mp hrecord).1]
      exact hrecord
    constructor
    · unfold EpochChain.publicKey
      rw [asUsize_64, hnow, ← hbytes]
      rfl
    · rcases EpochChain.secret_cases (hstart.coherent.run operations) hnow
        with ⟨secret, hsecret, hpublic⟩ | herased
      · left
        refine ⟨secret, hsecret, ?_⟩
        rw [hbytes] at hpublic
        have hsame : (secret.publicKey P).key = recipient.key := Vector.toList_inj.mp hpublic
        exact congrArg Crypto.RecipientPublic.mk hsame
      · exact Or.inr herased
  · exact Or.inr hc

/-! ## A sample chain -/

namespace Sample

def primitives : Crypto.Primitives := { Crypto.Primitives.toy with sha256 := digest }

def secret (n : UInt8) : Crypto.RecipientSecret := ⟨Vector.replicate 32 n⟩

def chain : EpochChain := EpochChain.oneEpoch primitives (secret 11)

/-- A second epoch, the end of the first one, and a third epoch. -/
def operations : List EpochChain.Operation :=
  [.advance (.ok (secret 12)), .erase 0, .advance (.ok (secret 13))]

/-- What the phone vouches for, before the third epoch. -/
def bound : List EpochRecord := (chain.run primitives (operations.take 2)).records

theorem started : EpochChain.Started primitives chain :=
  Or.inl ⟨.ok (secret 11), rfl⟩

theorem verify_bound : Epoch.verify digest bound = .ok () :=
  (started.coherent.run (operations.take 2)).verified

theorem length_bound : bound.length = 2 := rfl

theorem keys_chain : (chain.run primitives operations).records.map EpochRecord.publicKey =
    [11, 12, 13].map fun n => EpochChain.publicKeyBytes primitives (secret n) := by
  simp [chain, operations, EpochChain.run, EpochChain.apply, EpochChain.oneEpoch,
    EpochChain.advance, Epoch.maxChainEntries, (EpochChain.erase_frame _ _).1]

/-- The digest tells the epochs apart by their keys. -/
theorem digest_linkInput (previous : Hash) (number : EpochNumber) (n : UInt8) :
    digest (Epoch.linkInput previous number (EpochChain.publicKeyBytes primitives (secret n))) =
      device n := by
  have hinfo : Epoch.chainInfo.length = 20 := by decide
  have hprevious : previous.toList.length = 32 := Vector.length_toList
  unfold Epoch.linkInput digest lenPrefixed
  simp only [List.append_assoc]
  rw [List.getD_append_right _ _ _ _ (by rw [hinfo]; omega), hinfo,
    List.getD_append_right _ _ _ _ (by rw [hprevious]; omega), hprevious,
    List.getD_append_right _ _ _ _ (by rw [length_beBytes]; omega), length_beBytes,
    List.getD_append_right _ _ _ _ (by rw [length_beBytes]; omega), length_beBytes]
  have hkey : (EpochChain.publicKeyBytes primitives (secret n)).getD 1 0 = n := by
    have hseed : (secret n).seed.toList = List.replicate 32 n := Vector.toList_replicate
    show ((secret n).seed ++ Vector.replicate 1184 (9 : UInt8)).toList.getD 1 0 = n
    rw [Vector.toList_append, hseed, List.getD_append _ _ _ _ (by simp)]
    rfl
  exact congrArg (Vector.replicate 32) hkey

/-- The digest tells apart all that is hashed for the links of the chain. -/
theorem not_collides_bound : ¬Collides digest (Epoch.linkInputs bound ++
    Epoch.linkInputs (chain.run primitives operations).records) := by
  have hbound : Epoch.linkInputs bound ⊆
      Epoch.linkInputs (chain.run primitives operations).records := by
    obtain ⟨more, hmore⟩ := EpochChain.records_run_take (P := primitives) chain operations 2
    rw [← hmore]
    exact Epoch.linkInputs_of_append
  have hplace : ∀ input ∈ Epoch.linkInputs (chain.run primitives operations).records,
      ∃ (i : ℕ) (record : EpochRecord) (n : UInt8),
        (chain.run primitives operations).records[i]? = some record ∧
        ([11, 12, 13] : List UInt8)[i]? = some n ∧
        input = Epoch.linkInput (Epoch.chainHead
          ((chain.run primitives operations).records.take i)) record.number record.publicKey ∧
        digest input = device n := by
    intro input hinput
    obtain ⟨⟨record, i⟩, hindexed, rfl⟩ := List.mem_map.mp hinput
    have hrecord := List.mem_zipIdx_iff_getElem?.mp hindexed
    have hkey := congrArg (·[i]?) keys_chain
    simp only [List.getElem?_map, hrecord, Option.map_some] at hkey
    obtain ⟨n, hn, hpublic⟩ := Option.map_eq_some_iff.mp hkey.symm
    refine ⟨i, record, n, hrecord, hn, rfl, ?_⟩
    rw [← hpublic]
    exact digest_linkInput _ _ n
  rintro ⟨x, hx, y, hy, hne, hdigest⟩
  have hall := List.append_subset.mpr ⟨hbound, List.Subset.refl _⟩
  obtain ⟨i, record, n, hrecord, hn, hinput, hx⟩ := hplace x (hall hx)
  obtain ⟨j, other, m, hother, hm, hinput', hy⟩ := hplace y (hall hy)
  rw [hx, hy, device_inj] at hdigest
  -- no two epochs have one key
  have hdistinct : ([11, 12, 13] : List UInt8).Nodup := by decide
  obtain rfl : i = j := (List.getElem?_inj (List.getElem?_eq_some_iff.mp hn).1 hdistinct).mp
    (by rw [hn, hm, hdigest])
  rw [hrecord, Option.some.injEq] at hother
  rw [hinput, hinput', hother] at hne
  exact hne rfl

theorem length_chain : (chain.run primitives operations).records.length = 3 := by
  have hlen := congrArg List.length keys_chain
  rwa [List.length_map, List.length_map] at hlen

end Sample

/-- The theorem at the sample identity: the phone vouches for its first two epochs, of which it has
erased one, and makes a third. Whoever accepts the binding after the log has grown gets the keys the
phone had, and the phone has no secret any more for the first. -/
theorem bound_epoch_keys_are_the_devices_erased :
    let now := Sample.chain.run Sample.primitives Sample.operations
    ∃ binding, EpochBinding.create Sample.digest (Sample.log 1) (Sample.identity 2) Sample.bound =
        .ok binding ∧
      binding.verify Sample.digest (Sample.log 4) Sample.bound = .ok () ∧
      Sample.bound.length = 2 ∧ now.records.length = 3 ∧ Sample.bound <+: now.records ∧
      ∀ (accepts : Vector UInt8 Crypto.publicKeyLength → Bool)
        (display : Crypto.CryptoError → String) (number : EpochNumber)
        (recipient : Crypto.RecipientPublic),
        Epoch.recipientFor accepts display 64 Sample.bound number = .ok recipient →
        now.publicKey 64 number = .ok recipient.key.toList ∧
          ((∃ secret, now.secret 64 number = .ok secret ∧
              secret.publicKey Sample.primitives = recipient) ∨
            now.secret 64 number = .error (.erased number)) := by
  intro now
  obtain ⟨binding, hcreate⟩ := Sample.create_binding Sample.verify_bound
    (List.ne_nil_of_length_pos (by rw [Sample.length_bound]; omega))
  have hmember := (@Sample.contains_phone 4 (by omega)).mpr (Or.inr (Or.inr rfl))
  have hverify : binding.verify Sample.digest (Sample.log 4) Sample.bound = .ok () := by
    have hlog : IdentityLog.fromEntries Sample.digest (Sample.log 4).entries
        (Sample.log 1).recovery = .ok (Sample.log 4) := by
      rw [Sample.recovery_log 1, ← Sample.recovery_log 4]
      exact Sample.fromEntries_log 4
    rcases verify_of_extension Primitives.keyed_correct (Sample.replay_recovery 1) hcreate hlog
      (Sample.prefix_log (by omega)) with hiff | ⟨other, hother, hc⟩
    · rw [hiff, Sample.deviceId_identity]
      exact hmember
    · rw [Sample.signer_binding hcreate] at hother
      exact absurd hc (Sample.not_collides_phone (by omega) hother)
  obtain ⟨device, hdevice⟩ : ∃ device,
      ((Sample.log 4).membership Sample.digest).get binding.signer = some device := by
    rw [Sample.signer_binding hcreate, ← Option.isSome_iff_exists, ← contains_eq_isSome, hmember]
  have hbinds : BindsOwn Sample.primitives device.key binding Sample.chain Sample.operations := by
    intro _
    obtain ⟨-, -, -, -, -, hhead, hepochs, -⟩ := EpochBinding.create_eq_ok.mp hcreate
    exact ⟨2, hhead, hepochs⟩
  obtain ⟨hpre, hkeys⟩ := (bound_epoch_keys_are_the_devices Sample.primitives Primitives.keyed
    (Sample.log 4) device binding Sample.bound Sample.chain Sample.operations Sample.started hbinds
    hdevice hverify).resolve_right Sample.not_collides_bound
  exact ⟨binding, hcreate, hverify, Sample.length_bound, Sample.length_chain, hpre, hkeys⟩

end HideProtocol.Identity
