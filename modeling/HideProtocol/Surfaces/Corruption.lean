import HideProtocol.Mls.Provider
import HideProtocol.Surfaces.RelyingParty

/-!
# Corruption told from forgery

A relying party that gets no answer wants to know why: what it was handed does not decode, or it
decodes and does not verify. From C a code says which, and from a page the prefix of what is
thrown.
-/

namespace HideProtocol.Surfaces

open Lib Sign

/-- A computation that has no result. -/
def Fails {ε α : Type} (x : Except ε α) : Prop := ∃ error, x = .error error

section
variable (sha256 : Bytes → Identity.Hash) (S : Primitives)

/-- What the caller itself is to blame for is in order: the keys it trusts parse, fixed lengths
are right and nothing exceeds a limit. -/
def Question.Presented : Question → Prop
  | .devices log recovery | .head log recovery =>
    log.length ≤ Ffi.maxLogBytes ∧ ∃ key, VerifyingIdentity.fromBytes S recovery = .ok key
  | .trusts log recovery device =>
    log.length ≤ Ffi.maxLogBytes ∧ (∃ key, VerifyingIdentity.fromBytes S recovery = .ok key) ∧
      ∃ key, VerifyingIdentity.fromBytes S device = .ok key
  | .pinned log binding root =>
    log.length ≤ Ffi.maxLogBytes ∧ binding.length ≤ Identity.recoveryBindingLength ∧
      ∃ hash : Identity.Hash, root = hash.toList
  | .epochs chain | .publicKey chain _ => chain.length ≤ Ffi.maxLogBytes
  | .bound log binding root chain epochBinding =>
    (log.length ≤ Ffi.maxLogBytes ∧ binding.length ≤ Identity.recoveryBindingLength ∧
      ∃ hash : Identity.Hash, root = hash.toList) ∧
      chain.length ≤ Ffi.maxLogBytes ∧ epochBinding.length ≤ Identity.epochBindingLength
  | .inclusion leaf _ _ path root =>
    (∃ hashes : List Transparency.Hash, path = hashes.flatMap Vector.toList ∧ hashes.length ≤ 64) ∧
      (∃ hash : Transparency.Hash, leaf = hash.toList) ∧
      ∃ hash : Transparency.Hash, root = hash.toList
  | .consistency _ _ path oldRoot newRoot =>
    (∃ hashes : List Transparency.Hash, path = hashes.flatMap Vector.toList ∧ hashes.length ≤ 64) ∧
      (∃ hash : Transparency.Hash, oldRoot = hash.toList) ∧
      ∃ hash : Transparency.Hash, newRoot = hash.toList

/-- Something does not decode, and what is looked at before it is genuine. -/
def Question.Damaged : Question → Prop
  | .devices log _ | .head log _ | .trusts log _ _ => Fails (Identity.decode log)
  | .pinned log binding _ =>
    Fails (Identity.RecoveryBinding.decode S binding) ∨ Fails (Identity.decode log)
  | .epochs chain | .publicKey chain _ => Fails (Epoch.decodeRecords chain)
  | .bound log binding root chain epochBinding =>
    (Fails (Identity.RecoveryBinding.decode S binding) ∨ Fails (Identity.decode log)) ∨
      (∃ pinned, Pinned sha256 S log binding root pinned) ∧
        (Fails (Epoch.decodeRecords chain) ∨ Fails (Identity.EpochBinding.decode epochBinding))
  | .inclusion .. | .consistency .. => False

/-- The log and its recovery binding decode, and do not belong to the pinned root. -/
def Disowned (log binding root : Bytes) : Prop :=
  ∃ recovery entries, ∃ hash : Identity.Hash,
    Identity.RecoveryBinding.decode S binding = .ok recovery ∧
      Identity.decode log = .ok entries ∧ root = hash.toList ∧
      Fails (recovery.verifyPinned sha256 entries hash)

/-- Everything up to a check decodes, and the check fails. -/
def Question.Forged : Question → Prop
  | .devices log recovery | .head log recovery | .trusts log recovery _ => ∃ key entries,
    VerifyingIdentity.fromBytes S recovery = .ok key ∧ Identity.decode log = .ok entries ∧
      Fails (Identity.IdentityLog.verify sha256 entries key)
  | .pinned log binding root => Disowned sha256 S log binding root
  | .epochs chain | .publicKey chain _ => ∃ records, Epoch.decodeRecords chain = .ok records ∧
    Fails (Epoch.verify sha256 records)
  | .bound log binding root chain epochBinding =>
    Disowned sha256 S log binding root ∨ ∃ pinned records epochs,
      Pinned sha256 S log binding root pinned ∧ Epoch.decodeRecords chain = .ok records ∧
      Identity.EpochBinding.decode epochBinding = .ok epochs ∧
      Fails (epochs.verify sha256 pinned records)
  | .inclusion leaf index size path root => ∃ hashes : List Transparency.Hash,
    ∃ leaf' root' : Transparency.Hash, path = hashes.flatMap Vector.toList ∧
      leaf = leaf'.toList ∧ root = root'.toList ∧
      Fails (Transparency.verifyInclusion sha256 ⟨index, size, hashes⟩ leaf' root')
  | .consistency oldSize newSize path oldRoot newRoot => ∃ hashes : List Transparency.Hash,
    ∃ old new : Transparency.Hash, path = hashes.flatMap Vector.toList ∧
      oldRoot = old.toList ∧ newRoot = new.toList ∧
      Fails (Transparency.verifyConsistency sha256 ⟨oldSize, newSize, hashes⟩ old new)

/-- The page looks at the chain as a whole before it reads the binding, and the chain is
forged. -/
def Question.Masked : Question → Prop
  | .bound log binding root chain _ => (∃ pinned, Pinned sha256 S log binding root pinned) ∧
    ∃ records, Epoch.decodeRecords chain = .ok records ∧ Fails (Epoch.verify sha256 records)
  | _ => False

end

variable {sha256 : Bytes → Identity.Hash} {S : Primitives}

/-! ## Codes -/

section
variable {ε ε' α : Type} {x : Except ε α} {code code' : ε'}

theorem mapErr_code : mapErr (fun _ => code) x = .error code' ↔ Fails x ∧ code = code' := by
  rw [mapErr_eq_error]
  exact ⟨fun ⟨error, h, hcode⟩ => ⟨⟨error, h⟩, hcode⟩, fun ⟨⟨error, h⟩, hcode⟩ => ⟨error, h, hcode⟩⟩

theorem fails_or_ok (x : Except ε α) : Fails x ∨ ∃ a, x = .ok a := by
  cases x with
  | ok a => exact .inr ⟨a, rfl⟩
  | error error => exact .inl ⟨error, rfl⟩

theorem not_fails {a : α} (h : x = .ok a) : ¬Fails x := by
  rintro ⟨error, herror⟩
  rw [h] at herror
  cases herror

end

section
variable {log recovery device binding root chain epochBinding : Bytes} {code : Ffi.ErrorCode}

theorem hideIdentityVerify_eq_error (hlog : log.length ≤ Ffi.maxLogBytes)
    {key : VerifyingIdentity S} (hkey : VerifyingIdentity.fromBytes S recovery = .ok key) :
    Ffi.hideIdentityVerify sha256 S (some log) log.length (some recovery) recovery.length =
        .error code ↔
      Fails (Identity.decode log) ∧ .malformed = code ∨
      ∃ entries, Identity.decode log = .ok entries ∧
        Fails (Identity.IdentityLog.verify sha256 entries key) ∧ .authentication = code := by
  simp only [Ffi.hideIdentityVerify, Ffi.borrow_of_le hlog, Ffi.borrow_of_le (length_key hkey),
    okOr_some, ok_bind, hkey, mapErr_ok, bind_eq_error, mapErr_code, pure_eq_error, mapErr_eq_ok,
    and_false, exists_false, or_false]

theorem hideIdentityTrustsDevice_eq_error (hlog : log.length ≤ Ffi.maxLogBytes)
    {key device' : VerifyingIdentity S} (hkey : VerifyingIdentity.fromBytes S recovery = .ok key)
    (hdevice : VerifyingIdentity.fromBytes S device = .ok device') :
    Ffi.hideIdentityTrustsDevice sha256 S (some log) log.length (some recovery) recovery.length
        (some device) device.length = .error code ↔
      Fails (Identity.decode log) ∧ .malformed = code ∨
      ∃ entries, Identity.decode log = .ok entries ∧
        Fails (Identity.IdentityLog.verify sha256 entries key) ∧ .authentication = code := by
  simp only [Ffi.hideIdentityTrustsDevice, Ffi.borrow_of_le hlog,
    Ffi.borrow_of_le (length_key hkey), Ffi.borrow_of_le (length_key hdevice), okOr_some, ok_bind,
    hkey, hdevice, mapErr_ok, bind_eq_error, mapErr_code, pure_eq_error, mapErr_eq_ok, and_false,
    exists_false, or_false]

/-- A log is rebuilt exactly when it is verified. -/
theorem fails_fromEntries {entries : List Identity.Entry} {key : VerifyingIdentity S} :
    Fails (Identity.IdentityLog.fromEntries sha256 entries key) ↔
      Fails (Identity.IdentityLog.verify sha256 entries key) := by
  simp only [Fails, Identity.IdentityLog.fromEntries, Identity.IdentityLog.verify, bind_eq_error,
    pure_eq_error, and_false, exists_false, or_false]

theorem hideIdentityHead_eq_error (hlog : log.length ≤ Ffi.maxLogBytes)
    {key : VerifyingIdentity S} (hkey : VerifyingIdentity.fromBytes S recovery = .ok key) :
    Ffi.hideIdentityHead sha256 S (some log) log.length (some recovery) recovery.length =
        .error code ↔
      Fails (Identity.decode log) ∧ .malformed = code ∨
      ∃ entries, Identity.decode log = .ok entries ∧
        Fails (Identity.IdentityLog.verify sha256 entries key) ∧ .authentication = code := by
  simp only [Ffi.hideIdentityHead, Ffi.borrow_of_le hlog, Ffi.borrow_of_le (length_key hkey),
    okOr_some, ok_bind, hkey, mapErr_ok, bind_eq_error, mapErr_code, pure_eq_error, mapErr_eq_ok,
    fails_fromEntries, and_false, exists_false, or_false]

theorem ffi_pinnedLog_eq_error (hlog : log.length ≤ Ffi.maxLogBytes)
    (hbinding : binding.length ≤ Identity.recoveryBindingLength) {hash : Identity.Hash}
    (hroot : root = hash.toList) :
    Ffi.pinnedLog sha256 S (some log) log.length (some binding) binding.length (some root)
        root.length = .error code ↔
      (Fails (Identity.RecoveryBinding.decode S binding) ∨ Fails (Identity.decode log)) ∧
        .malformed = code ∨
      Disowned sha256 S log binding root ∧ .authentication = code := by
  have hlen : root.length ≤ 32 := by rw [hroot, Vector.length_toList]
  have hinto : tryInto 32 root = some hash := tryInto_iff.mpr hroot
  simp only [Ffi.pinnedLog, Ffi.borrow_of_le hlog, Ffi.borrow_of_le hbinding,
    Ffi.borrow_of_le hlen, okOr_some, ok_bind, hinto, bind_eq_error, mapErr_code, mapErr_eq_ok,
    Disowned]
  constructor
  · rintro (⟨hfails, hcode⟩ | ⟨recovery, hrecovery, ⟨hfails, hcode⟩ | ⟨entries, hentries, hfails,
      hcode⟩⟩)
    · exact .inl ⟨.inl hfails, hcode⟩
    · exact .inl ⟨.inr hfails, hcode⟩
    · exact .inr ⟨⟨recovery, entries, hash, hrecovery, hentries, hroot, hfails⟩, hcode⟩
  · rintro (⟨hfails | hfails, hcode⟩ |
      ⟨⟨recovery, entries, hash', hrecovery, hentries, hsame, hfails⟩, hcode⟩)
    · exact .inl ⟨hfails, hcode⟩
    · rcases fails_or_ok (Identity.RecoveryBinding.decode S binding) with hfirst | ⟨_, hrecovery⟩
      · exact .inl ⟨hfirst, hcode⟩
      · exact .inr ⟨_, hrecovery, .inl ⟨hfails, hcode⟩⟩
    · have hhash : hash = hash' := Vector.toList_inj.mp (hroot.symm.trans hsame)
      rw [← hhash] at hfails
      exact .inr ⟨recovery, hrecovery, .inr ⟨entries, hentries, hfails, hcode⟩⟩

theorem hideIdentityVerifyPinned_eq_error :
    Ffi.hideIdentityVerifyPinned sha256 S (some log) log.length (some binding) binding.length
        (some root) root.length = .error code ↔
      Ffi.pinnedLog sha256 S (some log) log.length (some binding) binding.length (some root)
        root.length = .error code := by
  simp only [Ffi.hideIdentityVerifyPinned, bind_eq_error, pure_eq_error, and_false, exists_false,
    or_false]

theorem hideEpochVerify_eq_error (hchain : chain.length ≤ Ffi.maxLogBytes) :
    Ffi.hideEpochVerify sha256 (some chain) chain.length = .error code ↔
      Fails (Epoch.decodeRecords chain) ∧ .malformed = code ∨
      ∃ records, Epoch.decodeRecords chain = .ok records ∧
        Fails (Epoch.verify sha256 records) ∧ .authentication = code := by
  simp only [Ffi.hideEpochVerify, Ffi.borrow_of_le hchain, okOr_some, ok_bind, bind_eq_error,
    mapErr_code, pure_eq_error, mapErr_eq_ok, and_false, exists_false, or_false]

/-- An epoch that the chain does not have is an argument of its own. -/
theorem hideEpochPublicKey_eq_error {bits : ℕ} {epoch : UInt64}
    (hchain : chain.length ≤ Ffi.maxLogBytes) (hcode : .invalidArgument ≠ code) :
    Ffi.hideEpochPublicKey sha256 bits (some chain) chain.length epoch = .error code ↔
      Fails (Epoch.decodeRecords chain) ∧ .malformed = code ∨
      ∃ records, Epoch.decodeRecords chain = .ok records ∧
        Fails (Epoch.verify sha256 records) ∧ .authentication = code := by
  simp only [Ffi.hideEpochPublicKey, Ffi.borrow_of_le hchain, okOr_some, ok_bind, bind_eq_error,
    mapErr_code, okOr_eq_error, pure_eq_error, mapErr_eq_ok, hcode, and_false, exists_false,
    or_false]

theorem hideEpochVerifyBound_eq_error (hlog : log.length ≤ Ffi.maxLogBytes)
    (hchain : chain.length ≤ Ffi.maxLogBytes)
    (hepochs : epochBinding.length ≤ Identity.epochBindingLength) :
    Ffi.hideEpochVerifyBound sha256 S (some log) log.length (some binding) binding.length
        (some root) root.length (some chain) chain.length (some epochBinding)
        epochBinding.length = .error code ↔
      Ffi.pinnedLog sha256 S (some log) log.length (some binding) binding.length (some root)
        root.length = .error code ∨
      ((∃ pinned, Pinned sha256 S log binding root pinned) ∧
        (Fails (Epoch.decodeRecords chain) ∨ Fails (Identity.EpochBinding.decode epochBinding))) ∧
        .malformed = code ∨
      (∃ pinned records epochs, Pinned sha256 S log binding root pinned ∧
        Epoch.decodeRecords chain = .ok records ∧
        Identity.EpochBinding.decode epochBinding = .ok epochs ∧
        Fails (epochs.verify sha256 pinned records)) ∧ .authentication = code := by
  simp only [Ffi.hideEpochVerifyBound, Ffi.borrow_of_le hchain, Ffi.borrow_of_le hepochs,
    okOr_some, ok_bind, bind_eq_error, mapErr_code, mapErr_eq_ok, ffi_pinnedLog_eq_ok, hlog,
    true_and, pure_eq_error, and_false, exists_false, or_false]
  apply or_congr_right
  constructor
  · rintro ⟨pinned, hpinned, ⟨hfails, hcode⟩ | ⟨records, hrecords, ⟨hfails, hcode⟩ |
      ⟨epochs, hepochs, hfails, hcode⟩⟩⟩
    · exact .inl ⟨⟨⟨pinned, hpinned⟩, .inl hfails⟩, hcode⟩
    · exact .inl ⟨⟨⟨pinned, hpinned⟩, .inr hfails⟩, hcode⟩
    · exact .inr ⟨⟨pinned, records, epochs, hpinned, hrecords, hepochs, hfails⟩, hcode⟩
  · rintro (⟨⟨⟨pinned, hpinned⟩, hfails | hfails⟩, hcode⟩ |
      ⟨⟨pinned, records, epochs, hpinned, hrecords, hepochs, hfails⟩, hcode⟩)
    · exact ⟨pinned, hpinned, .inl ⟨hfails, hcode⟩⟩
    · rcases fails_or_ok (Epoch.decodeRecords chain) with hfirst | ⟨records, hrecords⟩
      · exact ⟨pinned, hpinned, .inl ⟨hfirst, hcode⟩⟩
      · exact ⟨pinned, hpinned, .inr ⟨records, hrecords, .inl ⟨hfails, hcode⟩⟩⟩
    · exact ⟨pinned, hpinned, .inr ⟨records, hrecords, .inr ⟨epochs, hepochs, hfails, hcode⟩⟩⟩

theorem hideTransparencyVerifyInclusion_eq_error {leaf path : Bytes} {index size : UInt64}
    {hashes : List Transparency.Hash} {leaf' root' : Transparency.Hash}
    (hpath : path = hashes.flatMap Vector.toList) (hlen : hashes.length ≤ 64)
    (hleaf : leaf = leaf'.toList) (hroot : root = root'.toList) :
    Ffi.hideTransparencyVerifyInclusion sha256 (some leaf) leaf.length index size (some path)
        path.length (some root) root.length = .error code ↔
      Fails (Transparency.verifyInclusion sha256 ⟨index, size, hashes⟩ leaf' root') ∧
        .authentication = code := by
  have hpathLen : path.length ≤ 64 * 32 := by
    rw [hpath, Transparency.length_flatMap_toList]
    omega
  have hleafLen : leaf.length ≤ 32 := by rw [hleaf, Vector.length_toList]
  have hrootLen : root.length ≤ 32 := by rw [hroot, Vector.length_toList]
  obtain ⟨hwhole, hhashes⟩ := hashesOf_iff.mpr hpath
  simp only [Ffi.hideTransparencyVerifyInclusion, Ffi.borrow_of_le hpathLen,
    Ffi.borrow_of_le hleafLen, Ffi.borrow_of_le hrootLen, okOr_some, ok_bind, tryInto_iff.mpr hleaf,
    tryInto_iff.mpr hroot, hwhole, ← hhashes, failIf_neg, ne_eq, not_true_eq_false,
    not_false_eq_true, mapErr_code]

theorem hideTransparencyVerifyConsistency_eq_error {path oldRoot newRoot : Bytes}
    {oldSize newSize : UInt64} {hashes : List Transparency.Hash} {old new : Transparency.Hash}
    (hpath : path = hashes.flatMap Vector.toList) (hlen : hashes.length ≤ 64)
    (hold : oldRoot = old.toList) (hnew : newRoot = new.toList) :
    Ffi.hideTransparencyVerifyConsistency sha256 oldSize newSize (some path) path.length
        (some oldRoot) oldRoot.length (some newRoot) newRoot.length = .error code ↔
      Fails (Transparency.verifyConsistency sha256 ⟨oldSize, newSize, hashes⟩ old new) ∧
        .authentication = code := by
  have hpathLen : path.length ≤ 64 * 32 := by
    rw [hpath, Transparency.length_flatMap_toList]
    omega
  have holdLen : oldRoot.length ≤ 32 := by rw [hold, Vector.length_toList]
  have hnewLen : newRoot.length ≤ 32 := by rw [hnew, Vector.length_toList]
  obtain ⟨hwhole, hhashes⟩ := hashesOf_iff.mpr hpath
  simp only [Ffi.hideTransparencyVerifyConsistency, Ffi.borrow_of_le hpathLen,
    Ffi.borrow_of_le holdLen, Ffi.borrow_of_le hnewLen, okOr_some, ok_bind, tryInto_iff.mpr hold,
    tryInto_iff.mpr hnew, hwhole, ← hhashes, failIf_neg, ne_eq, not_true_eq_false,
    not_false_eq_true, mapErr_code]

end

/-- Bytes spell one list of hashes. -/
theorem hashes_unique {path : Bytes} {hashes hashes' : List Transparency.Hash}
    (h : path = hashes.flatMap Vector.toList) (h' : path = hashes'.flatMap Vector.toList) :
    hashes = hashes' := by
  rw [(hashesOf_iff.mpr h).2, (hashesOf_iff.mpr h').2]

/-- A step in front of a pure result fails as the step does. -/
theorem step_pure_eq_error {ε α β : Type} {x : Except ε α} {f : α → β} {error : ε} :
    (do let a ← x; pure (f a)) = Except.error error ↔ x = .error error := by
  simp only [bind_eq_error, pure_eq_error, and_false, exists_false, or_false]

/-- A code that is reported of every result of a check. -/
theorem exists_and_code {α : Type} {p q : α → Prop} {code : Prop} :
    (∃ a, p a ∧ q a ∧ code) ↔ (∃ a, p a ∧ q a) ∧ code := by
  simp only [← and_assoc, exists_and_right]

/-- From C, damage and forgery have a code each, and nothing else is reported of a question that
is in order. -/
theorem askC_eq_error {bits : ℕ} {question : Question} {code : Ffi.ErrorCode}
    (h : question.Presented S) (hcode : .invalidArgument ≠ code) :
    askC sha256 S bits question = .error code ↔
      question.Damaged sha256 S ∧ .malformed = code ∨
      question.Forged sha256 S ∧ .authentication = code := by
  cases question with
  | devices log recovery =>
    obtain ⟨hlog, key, hkey⟩ := h
    simp only [askC, step_pure_eq_error, hideIdentityVerify_eq_error hlog hkey, Question.Damaged,
      Question.Forged, hkey, Except.ok.injEq, exists_and_code, exists_and_left, exists_eq_left']
  | trusts log recovery device =>
    obtain ⟨hlog, ⟨key, hkey⟩, device', hdevice⟩ := h
    simp only [askC, step_pure_eq_error, hideIdentityTrustsDevice_eq_error hlog hkey hdevice,
      Question.Damaged, Question.Forged, hkey, Except.ok.injEq, exists_and_code, exists_and_left,
      exists_eq_left']
  | head log recovery =>
    obtain ⟨hlog, key, hkey⟩ := h
    simp only [askC, step_pure_eq_error, hideIdentityHead_eq_error hlog hkey, Question.Damaged,
      Question.Forged, hkey, Except.ok.injEq, exists_and_code, exists_and_left, exists_eq_left']
  | pinned log binding root =>
    obtain ⟨hlog, hbinding, hash, hroot⟩ := h
    simp only [askC, step_pure_eq_error, hideIdentityVerifyPinned_eq_error,
      ffi_pinnedLog_eq_error hlog hbinding hroot, Question.Damaged, Question.Forged]
  | epochs chain =>
    simp only [askC, step_pure_eq_error, hideEpochVerify_eq_error h, Question.Damaged,
      Question.Forged, exists_and_code]
  | publicKey chain epoch =>
    simp only [askC, step_pure_eq_error, hideEpochPublicKey_eq_error h hcode, Question.Damaged,
      Question.Forged, exists_and_code]
  | bound log binding root chain epochBinding =>
    obtain ⟨⟨hlog, hbinding, hash, hroot⟩, hchain, hepochs⟩ := h
    simp only [askC, step_pure_eq_error, hideEpochVerifyBound_eq_error hlog hchain hepochs,
      ffi_pinnedLog_eq_error hlog hbinding hroot, Question.Damaged, Question.Forged]
    rw [or_or_or_comm, ← or_and_right, ← or_and_right]
  | inclusion leaf index size path root =>
    obtain ⟨⟨hashes, hpath, hlen⟩, ⟨leaf', hleaf⟩, root', hroot⟩ := h
    simp only [askC, step_pure_eq_error,
      hideTransparencyVerifyInclusion_eq_error hpath hlen hleaf hroot, Question.Damaged,
      Question.Forged, false_and, false_or]
    constructor
    · rintro ⟨hfails, hcode⟩
      exact ⟨⟨hashes, leaf', root', hpath, hleaf, hroot, hfails⟩, hcode⟩
    · rintro ⟨⟨hashes₂, leaf₂, root₂, hpath₂, hleaf₂, hroot₂, hfails⟩, hcode⟩
      rw [hashes_unique hpath hpath₂, Vector.toList_inj.mp (hleaf.symm.trans hleaf₂),
        Vector.toList_inj.mp (hroot.symm.trans hroot₂)]
      exact ⟨hfails, hcode⟩
  | consistency oldSize newSize path oldRoot newRoot =>
    obtain ⟨⟨hashes, hpath, hlen⟩, ⟨old, hold⟩, new, hnew⟩ := h
    simp only [askC, step_pure_eq_error,
      hideTransparencyVerifyConsistency_eq_error hpath hlen hold hnew, Question.Damaged,
      Question.Forged, false_and, false_or]
    constructor
    · rintro ⟨hfails, hcode⟩
      exact ⟨⟨hashes, old, new, hpath, hold, hnew, hfails⟩, hcode⟩
    · rintro ⟨⟨hashes₂, old₂, new₂, hpath₂, hold₂, hnew₂, hfails⟩, hcode⟩
      rw [hashes_unique hpath hpath₂, Vector.toList_inj.mp (hold.symm.trans hold₂),
        Vector.toList_inj.mp (hnew.symm.trans hnew₂)]
      exact ⟨hfails, hcode⟩

/-! ## Texts -/

/-- What a caller matches on. -/
def Marked (text : String) : Prop := "malformed:".toList <+: text.toList

/-- Something marked is thrown. -/
def Complains {α : Type} (x : Except String α) : Prop := ∃ text, x = .error text ∧ Marked text

theorem toList_mark :
    "malformed:".toList = ['m', 'a', 'l', 'f', 'o', 'r', 'm', 'e', 'd', ':'] := String.toList_ofList

theorem marked_malformed (message : String) : Marked (Wasm.malformed message) := by
  have htext : "malformed: ".toList = ['m', 'a', 'l', 'f', 'o', 'r', 'm', 'e', 'd', ':', ' '] :=
    String.toList_ofList
  refine ⟨' ' :: message.toList, ?_⟩
  rw [Wasm.malformed, String.toList_append, htext, toList_mark]
  rfl

/-- A text that begins with another letter is not marked. -/
theorem not_marked_of_toList {text : String} {first : Char} {rest : List Char}
    (h : text.toList = first :: rest) (hfirst : first ≠ 'm') : ¬Marked text := by
  rintro ⟨more, hmore⟩
  rw [h, toList_mark, List.cons_append] at hmore
  exact hfirst (List.cons.inj hmore).1.symm

/-- So it is with a text in pieces. -/
theorem not_marked_join {first : Char} {rest : List Char} (pieces : List String)
    (hfirst : first ≠ 'm') : ¬Marked (String.join (String.ofList (first :: rest) :: pieces)) := by
  have htext : (String.join (String.ofList (first :: rest) :: pieces)).toList =
      first :: (rest ++ (String.join pieces).toList) := by
    rw [String.join_cons, String.toList_append, String.toList_ofList, List.cons_append]
  exact not_marked_of_toList htext hfirst

theorem not_marked_identity (error : Identity.IdentityError) : ¬Marked error.display := by
  cases error <;> exact not_marked_join _ (by decide)

theorem not_marked_epoch (error : Epoch.EpochError) : ¬Marked error.display := by
  cases error <;> exact not_marked_join _ (by decide)

theorem not_marked_log (debug : String → String) (error : Transparency.LogError) :
    ¬Marked (error.display debug) := by
  cases error <;> exact not_marked_join _ (by decide)

theorem not_marked_sign (error : SignError) : ¬Marked error.display := by
  cases error with
  | verification => exact not_marked_of_toList String.toList_ofList (by decide)
  | invalidLength name expected actual =>
    have hinvalid : "invalid ".toList = 'i' :: ['n', 'v', 'a', 'l', 'i', 'd', ' '] :=
      String.toList_ofList
    have hfirst : ∃ rest, (SignError.invalidLength name expected actual).display.toList =
        'i' :: rest := by
      simp only [SignError.display, String.toList_append, hinvalid, List.cons_append]
      exact ⟨_, rfl⟩
    obtain ⟨rest, hrest⟩ := hfirst
    exact not_marked_of_toList hrest (by decide)
  | malformedKey => exact not_marked_of_toList String.toList_ofList (by decide)
  | malformedChallenge => exact not_marked_of_toList String.toList_ofList (by decide)
  | reservedContext => exact not_marked_of_toList String.toList_ofList (by decide)
  | random => exact not_marked_of_toList String.toList_ofList (by decide)

/-- The one text that begins like the mark goes on without the colon. -/
theorem not_marked_format (error : Format.FormatError) : ¬Marked error.display := by
  cases error with
  | malformedHeader =>
    have htext : "malformed HIDE header".toList = ['m', 'a', 'l', 'f', 'o', 'r', 'm', 'e', 'd'] ++
        ' ' :: "HIDE header".toList := by decide
    rintro ⟨more, hmore⟩
    rw [Format.FormatError.display, htext, toList_mark] at hmore
    simp at hmore
  | _ => exact not_marked_of_toList String.toList_ofList (by decide)

theorem not_marked_crypto (cause : String) (error : Crypto.CryptoError) :
    ¬Marked (error.display cause) := by
  cases error <;> exact not_marked_join _ (by decide)

theorem not_marked_object (cause : String) (error : Object.ObjectError) :
    ¬Marked (error.display cause) := by
  cases error with
  | format error =>
    have htext : (Object.ObjectError.format error).display cause = error.display := by
      simp [Object.ObjectError.display, Object.ObjectError.pieces]
    rw [htext]
    exact not_marked_format error
  | crypto error => exact not_marked_crypto cause error
  | _ => exact not_marked_join _ (by decide)

theorem not_marked_keyring (cause : String) (error : Keyring.KeyringError) :
    ¬Marked (error.display cause) := by
  cases error <;> exact not_marked_join _ (by decide)

theorem not_marked_mls (error : Mls.MlsError) : ¬Marked error.display := by
  cases error <;> exact not_marked_join _ (by decide)

/-- The text of an error of the library. -/
inductive LibraryText (debug : String → String) : String → Prop
  | format (error : Format.FormatError) : LibraryText debug error.display
  | crypto (cause : String) (error : Crypto.CryptoError) : LibraryText debug (error.display cause)
  | object (cause : String) (error : Object.ObjectError) : LibraryText debug (error.display cause)
  | sign (error : SignError) : LibraryText debug error.display
  | keyring (cause : String) (error : Keyring.KeyringError) :
      LibraryText debug (error.display cause)
  | identity (error : Identity.IdentityError) : LibraryText debug error.display
  | epoch (error : Epoch.EpochError) : LibraryText debug error.display
  | log (error : Transparency.LogError) : LibraryText debug (error.display debug)
  | mls (error : Mls.MlsError) : LibraryText debug error.display

theorem LibraryText.not_marked {debug : String → String} {text : String}
    (h : LibraryText debug text) : ¬Marked text := by
  cases h with
  | format error => exact not_marked_format error
  | crypto cause error => exact not_marked_crypto cause error
  | object cause error => exact not_marked_object cause error
  | sign error => exact not_marked_sign error
  | keyring cause error => exact not_marked_keyring cause error
  | identity error => exact not_marked_identity error
  | epoch error => exact not_marked_epoch error
  | log error => exact not_marked_log debug error
  | mls error => exact not_marked_mls error

/-! What complains in a computation is one of its steps. -/

section
variable {ε α β : Type}

theorem complains_bind {x : Except String α} {f : α → Except String β} :
    Complains (x >>= f) ↔ Complains x ∨ ∃ a, x = .ok a ∧ Complains (f a) := by
  cases x <;> simp [Complains]

theorem complains_pure {a : α} : Complains (pure a) ↔ False := by
  simp [Complains, pure, Except.pure]

/-- What does not decode is complained of. -/
theorem complains_malformed {x : Except ε α} {display : ε → String} :
    Complains (mapErr (fun error => Wasm.malformed (display error)) x) ↔ Fails x := by
  cases x with
  | ok a => simp [Complains, Fails]
  | error error => simp [Complains, Fails, mapErr, marked_malformed]

/-- What does not verify is not. -/
theorem complains_display {x : Except ε α} {display : ε → String}
    (h : ∀ error, ¬Marked (display error)) : Complains (mapErr display x) ↔ False := by
  cases x <;> simp [Complains, mapErr, h]

theorem complains_failIf {p : Prop} [Decidable p] {text : String} (h : ¬Marked text) :
    Complains (failIf p text) ↔ False := by
  by_cases hp : p
  · simp [Complains, failIf_pos _ hp, h]
  · simp [Complains, failIf_neg _ hp]

theorem complains_okOr {x : Option α} {text : String} (h : ¬Marked text) :
    Complains (okOr x text) ↔ False := by
  cases x <;> simp [Complains, okOr, h]

end

section
variable {log recovery device binding root chain epochBinding : Bytes}

theorem identityEntries_complains (hlog : log.length ≤ Ffi.maxLogBytes) :
    Complains (Wasm.identityEntries log) ↔ Fails (Identity.decode log) := by
  have hlen : ¬log.length > Wasm.maxLogBytes := not_lt.mpr hlog
  rw [Wasm.identityEntries, failIf_neg _ hlen, ok_bind, complains_malformed]

theorem epochRecords_complains (hchain : chain.length ≤ Ffi.maxLogBytes) :
    Complains (Wasm.epochRecords sha256 chain) ↔ Fails (Epoch.decodeRecords chain) := by
  have hlen : ¬chain.length > Wasm.maxLogBytes := not_lt.mpr hchain
  simp only [Wasm.epochRecords, failIf_neg _ hlen, ok_bind, complains_bind, complains_malformed,
    complains_display not_marked_epoch, complains_pure, and_false, exists_false, or_false]

/-- A key that parses is read without a complaint. -/
theorem recoveryKey_ok {key : VerifyingIdentity S}
    (hkey : VerifyingIdentity.fromBytes S recovery = .ok key) :
    Wasm.recoveryKey S recovery = .ok key := by
  rw [Wasm.recoveryKey, hkey, mapErr_ok]

theorem wasm_pinnedLog_complains (hlog : log.length ≤ Ffi.maxLogBytes) {hash : Identity.Hash}
    (hroot : root = hash.toList) :
    Complains (Wasm.pinnedLog sha256 S log binding root) ↔
      Fails (Identity.RecoveryBinding.decode S binding) ∨ Fails (Identity.decode log) := by
  have hhash : Wasm.hash root "pinned root" = .ok hash := by
    rw [Wasm.hash, tryInto_iff.mpr hroot, okOr_some]
  simp only [Wasm.pinnedLog, complains_bind, complains_malformed, mapErr_eq_ok,
    identityEntries_complains hlog, hhash, ok_bind, complains_display not_marked_identity,
    and_false, exists_false, or_false, exists_and_right]
  rcases fails_or_ok (Identity.RecoveryBinding.decode S binding) with hfails | hok
  · simp only [hfails, true_or]
  · simp only [hok, true_and]

end

/-! ### Whatever the arguments are -/

section
variable {log recovery device binding root chain epochBinding path bytes : Bytes}

theorem fails_of_identityEntries (h : Complains (Wasm.identityEntries log)) :
    Fails (Identity.decode log) := by
  have htext : ¬Marked "that log is too large for the browser build" :=
    not_marked_of_toList String.toList_ofList (by decide)
  rcases complains_bind.mp h with hearly | ⟨_, -, hlate⟩
  · exact ((complains_failIf htext).mp hearly).elim
  · exact complains_malformed.mp hlate

theorem fails_of_epochRecords (h : Complains (Wasm.epochRecords sha256 chain)) :
    Fails (Epoch.decodeRecords chain) := by
  have htext : ¬Marked "that chain is too large for the browser build" :=
    not_marked_of_toList String.toList_ofList (by decide)
  simp only [Wasm.epochRecords, complains_bind, complains_failIf htext, complains_malformed,
    complains_display not_marked_epoch, complains_pure, and_false, exists_false, or_false,
    false_or, exists_and_right] at h
  exact h.2

theorem recoveryKey_complains : Complains (Wasm.recoveryKey S recovery) ↔ False :=
  complains_display not_marked_sign

theorem hash_complains (what : String) : Complains (Wasm.hash bytes what) ↔ False := by
  have hthe : "the ".toList = 't' :: ['h', 'e', ' '] := String.toList_ofList
  have htext : ("the " ++ what ++ " must be 32 bytes").toList =
      't' :: (['h', 'e', ' '] ++ what.toList ++ " must be 32 bytes".toList) := by
    rw [String.toList_append, String.toList_append, hthe]
    rfl
  exact complains_okOr (not_marked_of_toList htext (by decide))

theorem hashPath_complains : Complains (Wasm.hashPath path) ↔ False := by
  have htext : ¬Marked "a proof path must be whole 32-byte hashes" :=
    not_marked_of_toList String.toList_ofList (by decide)
  simp only [Wasm.hashPath, complains_bind, complains_failIf htext, complains_pure, and_false,
    exists_false, or_false]

theorem fails_of_pinnedLog (h : Complains (Wasm.pinnedLog sha256 S log binding root)) :
    Fails (Identity.RecoveryBinding.decode S binding) ∨ Fails (Identity.decode log) := by
  simp only [Wasm.pinnedLog, complains_bind, complains_malformed, hash_complains,
    complains_display not_marked_identity, and_false, exists_false, or_false] at h
  rcases h with hbinding | ⟨_, -, hlog⟩
  · exact .inl hbinding
  · exact .inr (fails_of_identityEntries hlog)

end

/-- A page marks nothing but damage, whether or not the question is in order. -/
theorem damaged_of_complains {debug : String → String} {question : Question}
    (h : Complains (askPage sha256 S debug question)) : question.Damaged sha256 S := by
  cases question with
  | devices log recovery =>
    simp only [askPage, Wasm.verifyIdentity, complains_bind, complains_pure, recoveryKey_complains,
      complains_display not_marked_identity, and_false, exists_false, or_false] at h
    exact fails_of_identityEntries h
  | trusts log recovery device =>
    simp only [askPage, Wasm.identityTrustsDevice, complains_bind, complains_pure,
      recoveryKey_complains, complains_display not_marked_identity,
      complains_display not_marked_sign, and_false, exists_false, or_false, false_or] at h
    obtain ⟨_, -, h⟩ := h
    exact fails_of_identityEntries h
  | head log recovery =>
    simp only [askPage, Wasm.identityHead, complains_bind, complains_pure, recoveryKey_complains,
      complains_display not_marked_identity, and_false, exists_false, or_false] at h
    exact fails_of_identityEntries h
  | pinned log binding root =>
    simp only [askPage, Wasm.verifyIdentityPinned, complains_bind, complains_pure, and_false,
      exists_false, or_false] at h
    exact fails_of_pinnedLog h
  | epochs chain =>
    simp only [askPage, Wasm.verifyEpochChain, complains_bind, complains_pure, and_false,
      exists_false, or_false] at h
    exact fails_of_epochRecords h
  | publicKey chain epoch =>
    have hbeyond : ¬Marked "that epoch is beyond the chain" :=
      not_marked_of_toList String.toList_ofList (by decide)
    simp only [askPage, Wasm.epochPublicKey, complains_bind, complains_pure,
      complains_okOr hbeyond, and_false, exists_false, or_false] at h
    exact fails_of_epochRecords h
  | bound log binding root chain epochBinding =>
    simp only [askPage, Wasm.verifyEpochChainBound, complains_bind, complains_pure,
      wasm_pinnedLog_eq_ok, complains_malformed, complains_display not_marked_identity, and_false,
      exists_false, or_false] at h
    rcases h with hearly | ⟨pinned, ⟨-, hpinned⟩, hlate⟩
    · exact .inl (fails_of_pinnedLog hearly)
    · refine .inr ⟨⟨pinned, hpinned⟩, ?_⟩
      rcases hlate with hchain | ⟨_, -, hbinding⟩
      · exact .inl (fails_of_epochRecords hchain)
      · exact .inr hbinding
  | inclusion leaf index size path root =>
    simp only [askPage, Wasm.verifyInclusion, complains_bind, complains_pure, hashPath_complains,
      hash_complains, complains_display (not_marked_log debug), and_false, exists_false,
      or_false] at h
  | consistency oldSize newSize path oldRoot newRoot =>
    simp only [askPage, Wasm.verifyConsistency, complains_bind, complains_pure, hashPath_complains,
      hash_complains, complains_display (not_marked_log debug), and_false, exists_false,
      or_false] at h

/-- Of a checkpoint it marks nothing. -/
theorem verifyCheckpoint_complains {debug : String → String} {note logPublic : Bytes}
    {origin : String} {size : UInt64} :
    ¬Complains (Wasm.verifyCheckpoint sha256 S debug note origin logPublic size) := by
  have hsize : ¬Marked "the checkpoint is for a different tree size" :=
    not_marked_of_toList String.toList_ofList (by decide)
  simp only [Wasm.verifyCheckpoint, complains_bind, complains_pure, complains_failIf hsize,
    complains_display not_marked_sign, complains_display (not_marked_log debug), and_false,
    exists_false, or_false, not_false_eq_true]

theorem not_fails_of_pinned {log binding root : Bytes} {pinned : Identity.IdentityLog S}
    (h : Pinned sha256 S log binding root pinned) :
    ¬(Fails (Identity.RecoveryBinding.decode S binding) ∨ Fails (Identity.decode log)) := by
  obtain ⟨recovery, entries, hash, hrecovery, hentries, -, -⟩ := h
  exact not_or.mpr ⟨not_fails hrecovery, not_fails hentries⟩

/-- From a page, what is marked is damage, unless the chain of the question was forged. -/
theorem askPage_complains {debug : String → String} {question : Question}
    (h : question.Presented S) :
    Complains (askPage sha256 S debug question) ↔
      question.Damaged sha256 S ∧ ¬question.Masked sha256 S := by
  cases question with
  | devices log recovery =>
    obtain ⟨hlog, key, hkey⟩ := h
    simp only [askPage, Wasm.verifyIdentity, complains_bind, complains_pure,
      identityEntries_complains hlog, recoveryKey_ok hkey, ok_bind,
      complains_display not_marked_identity, Question.Damaged, Question.Masked, not_false_eq_true,
      and_true, and_false, exists_false, or_false]
  | trusts log recovery device =>
    obtain ⟨hlog, ⟨key, hkey⟩, device', hdevice⟩ := h
    simp only [askPage, Wasm.identityTrustsDevice, hdevice, mapErr_ok, complains_bind,
      complains_pure, identityEntries_complains hlog, recoveryKey_ok hkey, ok_bind,
      complains_display not_marked_identity, Question.Damaged, Question.Masked, not_false_eq_true,
      and_true, and_false, exists_false, or_false]
  | head log recovery =>
    obtain ⟨hlog, key, hkey⟩ := h
    simp only [askPage, Wasm.identityHead, complains_bind, complains_pure,
      identityEntries_complains hlog, recoveryKey_ok hkey, ok_bind,
      complains_display not_marked_identity, Question.Damaged, Question.Masked, not_false_eq_true,
      and_true, and_false, exists_false, or_false]
  | pinned log binding root =>
    obtain ⟨hlog, -, hash, hroot⟩ := h
    simp only [askPage, Wasm.verifyIdentityPinned, complains_bind, complains_pure,
      wasm_pinnedLog_complains hlog hroot, Question.Damaged, Question.Masked, not_false_eq_true,
      and_true, and_false, exists_false, or_false]
  | epochs chain =>
    simp only [askPage, Wasm.verifyEpochChain, complains_bind, complains_pure,
      epochRecords_complains h, Question.Damaged, Question.Masked, not_false_eq_true, and_true,
      and_false, exists_false, or_false]
  | publicKey chain epoch =>
    have hbeyond : ¬Marked "that epoch is beyond the chain" :=
      not_marked_of_toList String.toList_ofList (by decide)
    simp only [askPage, Wasm.epochPublicKey, complains_bind, complains_pure,
      complains_okOr hbeyond, epochRecords_complains h, Question.Damaged, Question.Masked,
      not_false_eq_true, and_true, and_false, exists_false, or_false]
  | bound log binding root chain epochBinding =>
    obtain ⟨⟨hlog, -, hash, hroot⟩, hchain, -⟩ := h
    simp only [askPage, Wasm.verifyEpochChainBound, complains_bind, complains_pure,
      wasm_pinnedLog_complains hlog hroot, wasm_pinnedLog_eq_ok, epochRecords_complains hchain,
      epochRecords_eq_ok, complains_malformed, complains_display not_marked_identity, hlog, hchain,
      true_and, Question.Damaged, Question.Masked, and_false, exists_false, or_false]
    constructor
    · rintro (hearly | ⟨pinned, hpinned, hlate⟩)
      · refine ⟨.inl hearly, ?_⟩
        rintro ⟨⟨pinned, hpinned⟩, -⟩
        exact not_fails_of_pinned hpinned hearly
      · rcases hlate with hfails | ⟨records, ⟨hrecords, hverify⟩, hfails⟩
        · refine ⟨.inr ⟨⟨pinned, hpinned⟩, .inl hfails⟩, ?_⟩
          rintro ⟨-, records, hrecords, -⟩
          exact not_fails hrecords hfails
        · refine ⟨.inr ⟨⟨pinned, hpinned⟩, .inr hfails⟩, ?_⟩
          rintro ⟨-, records', hrecords', hforged⟩
          rw [hrecords, Except.ok.injEq] at hrecords'
          rw [← hrecords'] at hforged
          exact not_fails hverify hforged
    · rintro ⟨hearly | ⟨⟨pinned, hpinned⟩, hlate⟩, hmasked⟩
      · exact .inl hearly
      · refine .inr ⟨pinned, hpinned, ?_⟩
        rcases fails_or_ok (Epoch.decodeRecords chain) with hfails | ⟨records, hrecords⟩
        · exact .inl hfails
        · rcases fails_or_ok (Epoch.verify sha256 records) with hforged | ⟨_, hverify⟩
          · exact absurd ⟨⟨pinned, hpinned⟩, records, hrecords, hforged⟩ hmasked
          · exact .inr ⟨records, ⟨hrecords, hverify⟩, hlate.resolve_left (not_fails hrecords)⟩
  | inclusion leaf index size path root =>
    obtain ⟨⟨hashes, hpath, hlen⟩, ⟨leaf', hleaf⟩, root', hroot⟩ := h
    have hread := hashPath_eq_ok.mpr ⟨hpath, hlen⟩
    simp only [askPage, Wasm.verifyInclusion, Wasm.hash, hread, tryInto_iff.mpr hleaf,
      tryInto_iff.mpr hroot, okOr_some, ok_bind, complains_bind, complains_pure,
      complains_display (not_marked_log debug), Question.Damaged, and_false, false_and,
      exists_false, or_false]
  | consistency oldSize newSize path oldRoot newRoot =>
    obtain ⟨⟨hashes, hpath, hlen⟩, ⟨old, hold⟩, new, hnew⟩ := h
    have hread := hashPath_eq_ok.mpr ⟨hpath, hlen⟩
    simp only [askPage, Wasm.verifyConsistency, Wasm.hash, hread, tryInto_iff.mpr hold,
      tryInto_iff.mpr hnew, okOr_some, ok_bind, complains_bind, complains_pure,
      complains_display (not_marked_log debug), Question.Damaged, and_false, false_and,
      exists_false, or_false]

/-- **Corruption is told from forgery, on both surfaces.** Of a question that is in order, C
reports damage exactly where something does not decode that genuine parts led to, and a failed
authentication exactly where everything decodes up to a check that fails. What a page throws has
the prefix for damage exactly where C reports damage, except where it has already found the chain
of the question forged. Out of order or not, nothing else that a page throws has the prefix, and
no error of the library has a text with it. -/
theorem damage_told_from_forgery (sha256 : Bytes → Identity.Hash) (S : Primitives)
    (debug : String → String) (bits : ℕ) :
    (∀ question : Question, question.Presented S →
      (askC sha256 S bits question = .error .malformed ↔ question.Damaged sha256 S) ∧
      (askC sha256 S bits question = .error .authentication ↔ question.Forged sha256 S) ∧
      ((∃ text, askPage sha256 S debug question = .error text ∧
          "malformed:".toList <+: text.toList) ↔
        question.Damaged sha256 S ∧ ¬question.Masked sha256 S)) ∧
    (∀ question text, askPage sha256 S debug question = .error text →
      "malformed:".toList <+: text.toList → question.Damaged sha256 S) ∧
    (∀ note origin logPublic size text,
      Wasm.verifyCheckpoint sha256 S debug note origin logPublic size = .error text →
        ¬"malformed:".toList <+: text.toList) ∧
    ∀ text, LibraryText debug text → ¬"malformed:".toList <+: text.toList := by
  refine ⟨?_, ?_, ?_, ?_⟩
  · intro question h
    refine ⟨?_, ?_, askPage_complains h⟩
    · rw [askC_eq_error h (by decide)]
      simp only [reduceCtorEq, and_true, and_false, or_false]
    · rw [askC_eq_error h (by decide)]
      simp only [reduceCtorEq, and_true, and_false, false_or]
  · intro question text htext hmarked
    exact damaged_of_complains ⟨text, htext, hmarked⟩
  · intro note origin logPublic size text htext hmarked
    exact verifyCheckpoint_complains ⟨text, htext, hmarked⟩
  · intro text htext
    exact htext.not_marked

section Samples

/-- A hash whose links are all zero. -/
def zeroHash : Bytes → Identity.Hash := fun _ => Identity.zeroLink

/-- Three epochs, and the last of them with another link. -/
def relinked : List Epoch.EpochRecord :=
  Epoch.sampleRecords zeroHash 2 ++
    [{ number := 2, publicKey := List.replicate Epoch.publicKeyLength 0
       link := Vector.replicate 32 1 }]

theorem relinked_fails : Fails (Epoch.verify zeroHash relinked) := by
  rcases fails_or_ok (Epoch.verify zeroHash relinked) with hfails | ⟨⟨⟩, hok⟩
  · exact hfails
  · obtain ⟨-, -, -, -, hlink⟩ := Epoch.verify_append.mp hok
    have hne : Identity.zeroLink ≠ Vector.replicate 32 1 := by decide
    exact absurd hlink hne

theorem relinked_keys : ∀ record ∈ relinked, record.publicKey.length = Epoch.publicKeyLength := by
  have hshort : 2 ≤ Epoch.maxChainEntries := by decide
  have htwo : Epoch.verify zeroHash (Epoch.sampleRecords zeroHash 2) = .ok () :=
    Epoch.verify_sampleRecords hshort
  intro record hrecord
  rcases List.mem_append.mp hrecord with hrecord | hrecord
  · obtain ⟨i, hi⟩ := List.getElem?_of_mem hrecord
    exact (Epoch.record_of_verify htwo hi).2
  · rw [List.mem_singleton.mp hrecord, List.length_replicate]

theorem length_relinked : relinked.length = 3 := by
  rw [relinked, List.length_append, Epoch.length_sampleRecords]
  rfl

theorem decodeRecords_relinked :
    Epoch.decodeRecords (Epoch.encodeRecords relinked) = .ok relinked := by
  apply Epoch.decodeRecords_encodeRecords
  · intro record hrecord
    rw [relinked_keys record hrecord]
    decide
  · rw [length_relinked]
    decide

theorem encodeRecords_relinked_le : (Epoch.encodeRecords relinked).length ≤ Ffi.maxLogBytes := by
  have hrecords : (relinked.flatMap Epoch.encodeRecord).length ≤ relinked.length * 1263 := by
    apply length_flatMap_le
    intro record hrecord
    have := Cbor.headLen_le record.number.toNat
    rw [Epoch.length_encodeRecord (relinked_keys record hrecord)]
    omega
  have hhead := Cbor.headLen_le relinked.length
  rw [length_relinked] at hrecords
  rw [Epoch.encodeRecords, Cbor.array, List.length_append, Cbor.length_head, Ffi.maxLogBytes]
  omega

/-- The theorem at a chain of three epochs that one byte follows, and at one with a wrong link. -/
theorem damage_told_from_forgery_three_epochs :
    let damaged := Question.epochs (Epoch.encodeRecords (Epoch.sampleRecords zeroHash 3) ++ [0])
    let forged := Question.epochs (Epoch.encodeRecords relinked)
    (askC zeroHash Primitives.toy 64 damaged = .error .malformed ∧
      ∃ text, askPage zeroHash Primitives.toy id damaged = .error text ∧
        "malformed:".toList <+: text.toList) ∧
    askC zeroHash Primitives.toy 64 forged = .error .authentication ∧
      ¬∃ text, askPage zeroHash Primitives.toy id forged = .error text ∧
        "malformed:".toList <+: text.toList := by
  intro damaged forged
  have hshort : 3 ≤ Epoch.maxChainEntries := by decide
  have hverify : Epoch.verify zeroHash (Epoch.sampleRecords zeroHash 3) = .ok () :=
    Epoch.verify_sampleRecords hshort
  have hdamaged : damaged.Damaged zeroHash Primitives.toy :=
    ⟨_, Epoch.decodeRecords_trailing (Epoch.publicKey_lt_of_verify hverify)
      (Epoch.length_of_verify hverify) (by simp)⟩
  have hfits : damaged.Presented Primitives.toy := by
    show (_ ++ [0] : Bytes).length ≤ _
    rw [List.length_append, Epoch.length_encodeRecords hverify, Epoch.length_sampleRecords]
    decide
  have hforged : forged.Forged zeroHash Primitives.toy :=
    ⟨relinked, decodeRecords_relinked, relinked_fails⟩
  have hfits' : forged.Presented Primitives.toy := encodeRecords_relinked_le
  obtain ⟨htold, -⟩ := damage_told_from_forgery zeroHash Primitives.toy id 64
  obtain ⟨hmalformed, -, hpage⟩ := htold damaged hfits
  obtain ⟨-, hauthentication, hpage'⟩ := htold forged hfits'
  refine ⟨⟨hmalformed.mpr hdamaged, hpage.mpr ⟨hdamaged, not_false⟩⟩, hauthentication.mpr hforged,
    ?_⟩
  intro h
  obtain ⟨hfails, -⟩ := hpage'.mp h
  exact not_fails decodeRecords_relinked hfails

end Samples

end HideProtocol.Surfaces
