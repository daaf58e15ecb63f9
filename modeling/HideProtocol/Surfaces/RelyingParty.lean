import HideProtocol.Ffi.RelyingParty
import HideProtocol.Identity.BindingTheorems
import HideProtocol.Wasm.RelyingParty
import HideProtocol.Transparency.InclusionTheorems
import HideProtocol.Transparency.ProofCodec
import HideProtocol.Transparency.TreeTheorems

/-!
# A relying party gets one verdict

Somebody who was handed a log, a chain or a proof asks the same questions from C and from a page.
Both surfaces look at the same bytes in their own order and with their own limits. Here is what a
question means in terms of the library alone, and that both surfaces answer exactly this.
-/

namespace HideProtocol.Surfaces

open Lib Sign

/-- What a relying party was handed, and what it wants to know of it. -/
inductive Question where
  | devices (log recovery : Bytes)
  | trusts (log recovery device : Bytes)
  | head (log recovery : Bytes)
  | pinned (log binding root : Bytes)
  | epochs (chain : Bytes)
  | publicKey (chain : Bytes) (epoch : UInt64)
  | bound (log binding root chain epochBinding : Bytes)
  | inclusion (leaf : Bytes) (index size : UInt64) (path root : Bytes)
  | consistency (oldSize newSize : UInt64) (path oldRoot newRoot : Bytes)
deriving DecidableEq, Repr

inductive Answer where
  | count (n : ℕ)
  | trusted (b : Bool)
  | value (bytes : Bytes)
  | verified
deriving DecidableEq, Repr

section
variable (sha256 : Bytes → Identity.Hash) (S : Primitives)

/-- Asked through the C boundary, on a target whose pointers have `bits` bits. -/
def askC (bits : ℕ) : Question → Except Ffi.ErrorCode Answer
  | .devices log recovery => do
    let n ← Ffi.hideIdentityVerify sha256 S (some log) log.length (some recovery) recovery.length
    pure (.count n)
  | .trusts log recovery device => do
    let b ← Ffi.hideIdentityTrustsDevice sha256 S (some log) log.length (some recovery)
      recovery.length (some device) device.length
    pure (.trusted b)
  | .head log recovery => do
    let head ← Ffi.hideIdentityHead sha256 S (some log) log.length (some recovery) recovery.length
    pure (.value head)
  | .pinned log binding root => do
    let n ← Ffi.hideIdentityVerifyPinned sha256 S (some log) log.length (some binding)
      binding.length (some root) root.length
    pure (.count n)
  | .epochs chain => do
    let n ← Ffi.hideEpochVerify sha256 (some chain) chain.length
    pure (.count n)
  | .publicKey chain epoch => do
    let key ← Ffi.hideEpochPublicKey sha256 bits (some chain) chain.length epoch
    pure (.value key)
  | .bound log binding root chain epochBinding => do
    let n ← Ffi.hideEpochVerifyBound sha256 S (some log) log.length (some binding) binding.length
      (some root) root.length (some chain) chain.length (some epochBinding) epochBinding.length
    pure (.count n)
  | .inclusion leaf index size path root => do
    Ffi.hideTransparencyVerifyInclusion sha256 (some leaf) leaf.length index size (some path)
      path.length (some root) root.length
    pure .verified
  | .consistency oldSize newSize path oldRoot newRoot => do
    Ffi.hideTransparencyVerifyConsistency sha256 oldSize newSize (some path) path.length
      (some oldRoot) oldRoot.length (some newRoot) newRoot.length
    pure .verified

/-- Asked from a page. -/
def askPage (debug : String → String) : Question → Except String Answer
  | .devices log recovery => do
    let n ← Wasm.verifyIdentity sha256 S log recovery
    pure (.count n)
  | .trusts log recovery device => do
    let b ← Wasm.identityTrustsDevice sha256 S log recovery device
    pure (.trusted b)
  | .head log recovery => do
    let head ← Wasm.identityHead sha256 S log recovery
    pure (.value head)
  | .pinned log binding root => do
    let n ← Wasm.verifyIdentityPinned sha256 S log binding root
    pure (.count n)
  | .epochs chain => do
    let n ← Wasm.verifyEpochChain sha256 chain
    pure (.count n)
  | .publicKey chain epoch => do
    let key ← Wasm.epochPublicKey sha256 chain epoch
    pure (.value key)
  | .bound log binding root chain epochBinding => do
    let n ← Wasm.verifyEpochChainBound sha256 S log binding root chain epochBinding
    pure (.count n)
  | .inclusion leaf index size path root => do
    Wasm.verifyInclusion sha256 debug leaf index size path root
    pure .verified
  | .consistency oldSize newSize path oldRoot newRoot => do
    Wasm.verifyConsistency sha256 debug oldSize newSize path oldRoot newRoot
    pure .verified

/-! ## What a question means -/

/-- The limit on what is public and can be large. -/
def Question.Fits : Question → Prop
  | .devices log _ | .trusts log _ _ | .head log _ | .pinned log _ _ =>
    log.length ≤ Ffi.maxLogBytes
  | .epochs chain | .publicKey chain _ => chain.length ≤ Ffi.maxLogBytes
  | .bound log _ _ chain _ => log.length ≤ Ffi.maxLogBytes ∧ chain.length ≤ Ffi.maxLogBytes
  | .inclusion .. | .consistency .. => True

/-- The log decodes, and it is a history under a recovery key that was given. -/
def Replays (log recovery : Bytes) (key : VerifyingIdentity S)
    (membership : Identity.Membership S) (entries : List Identity.Entry) : Prop :=
  VerifyingIdentity.fromBytes S recovery = .ok key ∧ Identity.decode log = .ok entries ∧
    Identity.IdentityLog.verify sha256 entries key = .ok membership

/-- The log decodes, and it is a history under the recovery key that its own founder bound to the
pinned root. -/
def Pinned (log binding root : Bytes) (pinned : Identity.IdentityLog S) : Prop :=
  ∃ recovery entries, ∃ hash : Identity.Hash,
    Identity.RecoveryBinding.decode S binding = .ok recovery ∧
      Identity.decode log = .ok entries ∧ root = hash.toList ∧
      recovery.verifyPinned sha256 entries hash = .ok pinned

/-- The chain decodes and holds together. -/
def Chained (chain : Bytes) (records : List Epoch.EpochRecord) : Prop :=
  Epoch.decodeRecords chain = .ok records ∧ Epoch.verify sha256 records = .ok ()

/-- What the library says. -/
def Question.Holds : Question → Answer → Prop
  | .devices log recovery, .count n => ∃ key membership entries,
    Replays sha256 S log recovery key membership entries ∧ n = membership.len
  | .trusts log recovery device, .trusted b => ∃ key membership entries device',
    Replays sha256 S log recovery key membership entries ∧
      VerifyingIdentity.fromBytes S device = .ok device' ∧
      b = membership.contains (Identity.deviceId sha256 device')
  | .head log recovery, .value bytes => ∃ key membership entries,
    Replays sha256 S log recovery key membership entries ∧
      bytes = (Identity.IdentityLog.head ⟨entries, key⟩).toList
  | .pinned log binding root, .count n => ∃ pinned, Pinned sha256 S log binding root pinned ∧
    n = (pinned.membership sha256).len
  | .epochs chain, .count n => ∃ records, Chained sha256 chain records ∧ n = records.length
  | .publicKey chain epoch, .value bytes => ∃ records record, Chained sha256 chain records ∧
    records[epoch.toNat]? = some record ∧ bytes = record.publicKey
  | .bound log binding root chain epochBinding, .count n => ∃ pinned records epochs,
    Pinned sha256 S log binding root pinned ∧ Chained sha256 chain records ∧
      Identity.EpochBinding.decode epochBinding = .ok epochs ∧
      epochs.verify sha256 pinned records = .ok () ∧ n = records.length
  | .inclusion leaf index size path root, .verified =>
    ∃ hashes : List Transparency.Hash, ∃ leaf' root' : Transparency.Hash,
      path = hashes.flatMap Vector.toList ∧ leaf = leaf'.toList ∧ root = root'.toList ∧
      Transparency.verifyInclusion sha256 ⟨index, size, hashes⟩ leaf' root' = .ok ()
  | .consistency oldSize newSize path oldRoot newRoot, .verified =>
    ∃ hashes : List Transparency.Hash, ∃ old new : Transparency.Hash,
      path = hashes.flatMap Vector.toList ∧ oldRoot = old.toList ∧ newRoot = new.toList ∧
      Transparency.verifyConsistency sha256 ⟨oldSize, newSize, hashes⟩ old new = .ok ()
  | _, _ => False

end

variable {sha256 : Bytes → Identity.Hash} {S : Primitives}

/-! ## Reading the pieces -/

theorem borrow_whole {bytes slice : Bytes} {limit : ℕ} :
    Ffi.borrow (some bytes) bytes.length limit = some slice ↔
      bytes.length ≤ limit ∧ slice = bytes := by
  constructor
  · intro h
    exact (Ffi.borrow_eq_some h).symm
  · intro ⟨hle, hslice⟩
    rw [hslice, Ffi.borrow_of_le hle]

theorem tryInto_iff {n : ℕ} {bytes : Bytes} {v : Vector UInt8 n} :
    tryInto n bytes = some v ↔ bytes = v.toList := by
  constructor
  · exact tryInto_eq_some
  · intro h
    rw [h, tryInto_toList]

/-- Pieces of 32 bytes are as many hashes. -/
theorem flatMap_filterMap_tryInto {chunks : List Bytes} (h : ∀ chunk ∈ chunks, chunk.length = 32) :
    (chunks.filterMap (tryInto 32)).flatMap Vector.toList = chunks.flatten := by
  induction chunks with
  | nil => rfl
  | cons chunk chunks ih =>
    have hlen : chunk.toArray.size = 32 := by simpa using h chunk List.mem_cons_self
    have hinto : tryInto 32 chunk = some ⟨chunk.toArray, hlen⟩ := tryInto_iff.mpr rfl
    rw [List.filterMap_cons_some hinto, List.flatMap_cons, List.flatten_cons,
      ih fun chunk hchunk => h chunk (List.mem_cons_of_mem _ hchunk)]
    rfl

/-- Whole hashes are the bytes that they spell. -/
theorem hashesOf_iff {path : Bytes} {hashes : List Transparency.Hash} :
    path.length % 32 = 0 ∧ hashes = Ffi.hashesOf path ↔ path = hashes.flatMap Vector.toList := by
  constructor
  · intro ⟨hwhole, hhashes⟩
    have hflat := flatten_takeChunks (show path.length ≤ path.length / 32 * 32 by omega)
    rw [hhashes, Ffi.hashesOf, flatMap_filterMap_tryInto]
    · exact hflat.symm
    · exact fun chunk => length_of_mem_takeChunks (Nat.div_mul_le_self _ _)
  · intro h
    have hlen : path.length = 32 * hashes.length := by
      rw [h, Transparency.length_flatMap_toList]
    refine ⟨by omega, ?_⟩
    rw [Ffi.hashesOf, h, chunksExact_flatMap (by omega) fun _ => Vector.length_toList,
      List.filterMap_map]
    simp

theorem length_key {bytes : Bytes} {key : VerifyingIdentity S}
    (h : VerifyingIdentity.fromBytes S bytes = .ok key) : bytes.length ≤ Ffi.maxKeyFile := by
  rw [← VerifyingIdentity.toBytes_fromBytes h, Vector.length_toList]
  decide

theorem length_recoveryBinding {bytes : Bytes} {binding : Identity.RecoveryBinding S}
    (h : Identity.RecoveryBinding.decode S bytes = .ok binding) :
    bytes.length = Identity.recoveryBindingLength := by
  unfold Identity.RecoveryBinding.decode at h
  obtain ⟨_, hlen, -⟩ := bind_eq_ok.mp h
  simpa using hlen

theorem length_epochBinding {bytes : Bytes} {binding : Identity.EpochBinding}
    (h : Identity.EpochBinding.decode bytes = .ok binding) :
    bytes.length = Identity.epochBindingLength := by
  unfold Identity.EpochBinding.decode at h
  obtain ⟨_, hlen, -⟩ := bind_eq_ok.mp h
  simpa using hlen

theorem length_inclusion {proof : Transparency.InclusionProof} {leaf root : Transparency.Hash}
    (h : Transparency.verifyInclusion sha256 proof leaf root = .ok ()) :
    proof.path.length ≤ 64 :=
  (Transparency.verifyInclusion_eq_ok.mp h).1

theorem length_consistency {proof : Transparency.ConsistencyProof} {old new : Transparency.Hash}
    (h : Transparency.verifyConsistency sha256 proof old new = .ok ()) :
    proof.path.length ≤ 64 := by
  unfold Transparency.verifyConsistency at h
  obtain ⟨_, hlen, -⟩ := bind_eq_ok.mp h
  rw [failIf_eq_ok, not_lt] at hlen
  exact hlen

/-! ## The C boundary -/

section
variable {log recovery device binding root chain epochBinding : Bytes}

theorem hideIdentityVerify_eq_ok {n : ℕ} :
    Ffi.hideIdentityVerify sha256 S (some log) log.length (some recovery) recovery.length = .ok n ↔
      log.length ≤ Ffi.maxLogBytes ∧ ∃ key membership entries,
        Replays sha256 S log recovery key membership entries ∧ n = membership.len := by
  simp only [Ffi.hideIdentityVerify, bind_eq_ok, okOr_eq_ok, mapErr_eq_ok, pure_eq_ok,
    borrow_whole]
  constructor
  · rintro ⟨_, ⟨hlog, rfl⟩, _, ⟨-, rfl⟩, key, hkey, entries, hentries, membership, hverify, hn⟩
    exact ⟨hlog, key, membership, entries, ⟨hkey, hentries, hverify⟩, hn⟩
  · rintro ⟨hlog, key, membership, entries, ⟨hkey, hentries, hverify⟩, hn⟩
    exact ⟨_, ⟨hlog, rfl⟩, _, ⟨length_key hkey, rfl⟩, key, hkey, entries, hentries, membership,
      hverify, hn⟩

theorem hideIdentityTrustsDevice_eq_ok {b : Bool} :
    Ffi.hideIdentityTrustsDevice sha256 S (some log) log.length (some recovery) recovery.length
        (some device) device.length = .ok b ↔
      log.length ≤ Ffi.maxLogBytes ∧ ∃ key membership entries device',
        Replays sha256 S log recovery key membership entries ∧
        VerifyingIdentity.fromBytes S device = .ok device' ∧
        b = membership.contains (Identity.deviceId sha256 device') := by
  simp only [Ffi.hideIdentityTrustsDevice, bind_eq_ok, okOr_eq_ok, mapErr_eq_ok, pure_eq_ok,
    borrow_whole]
  constructor
  · rintro ⟨_, ⟨hlog, rfl⟩, _, ⟨-, rfl⟩, _, ⟨-, rfl⟩, key, hkey, device', hdevice, entries,
      hentries, membership, hverify, hb⟩
    exact ⟨hlog, key, membership, entries, device', ⟨hkey, hentries, hverify⟩, hdevice, hb⟩
  · rintro ⟨hlog, key, membership, entries, device', ⟨hkey, hentries, hverify⟩, hdevice, hb⟩
    exact ⟨_, ⟨hlog, rfl⟩, _, ⟨length_key hkey, rfl⟩, _, ⟨length_key hdevice, rfl⟩, key, hkey,
      device', hdevice, entries, hentries, membership, hverify, hb⟩

theorem hideIdentityHead_eq_ok {head : Bytes} :
    Ffi.hideIdentityHead sha256 S (some log) log.length (some recovery) recovery.length =
        .ok head ↔
      log.length ≤ Ffi.maxLogBytes ∧ ∃ key membership entries,
        Replays sha256 S log recovery key membership entries ∧
        head = (Identity.IdentityLog.head ⟨entries, key⟩).toList := by
  simp only [Ffi.hideIdentityHead, bind_eq_ok, okOr_eq_ok, mapErr_eq_ok, pure_eq_ok,
    borrow_whole, Identity.IdentityLog.fromEntries_eq_ok]
  constructor
  · rintro ⟨_, ⟨hlog, rfl⟩, _, ⟨-, rfl⟩, key, hkey, entries, hentries, _,
      ⟨⟨membership, hreplay⟩, rfl⟩, hhead⟩
    exact ⟨hlog, key, membership, entries, ⟨hkey, hentries, hreplay⟩, hhead⟩
  · rintro ⟨hlog, key, membership, entries, ⟨hkey, hentries, hreplay⟩, hhead⟩
    exact ⟨_, ⟨hlog, rfl⟩, _, ⟨length_key hkey, rfl⟩, key, hkey, entries, hentries, _,
      ⟨⟨membership, hreplay⟩, rfl⟩, hhead⟩

theorem ffi_pinnedLog_eq_ok {pinned : Identity.IdentityLog S} :
    Ffi.pinnedLog sha256 S (some log) log.length (some binding) binding.length (some root)
        root.length = .ok pinned ↔
      log.length ≤ Ffi.maxLogBytes ∧ Pinned sha256 S log binding root pinned := by
  simp only [Ffi.pinnedLog, bind_eq_ok, okOr_eq_ok, mapErr_eq_ok, borrow_whole, tryInto_iff]
  constructor
  · rintro ⟨_, ⟨hlog, rfl⟩, _, ⟨-, rfl⟩, _, ⟨-, rfl⟩, hash, hroot, recovery, hrecovery, entries,
      hentries, hpinned⟩
    exact ⟨hlog, recovery, entries, hash, hrecovery, hentries, hroot, hpinned⟩
  · rintro ⟨hlog, recovery, entries, hash, hrecovery, hentries, hroot, hpinned⟩
    have hlen : root.length ≤ 32 := by rw [hroot, Vector.length_toList]
    exact ⟨_, ⟨hlog, rfl⟩, _, ⟨(length_recoveryBinding hrecovery).le, rfl⟩, _, ⟨hlen, rfl⟩, hash,
      hroot, recovery, hrecovery, entries, hentries, hpinned⟩

theorem hideEpochVerify_eq_ok {n : ℕ} :
    Ffi.hideEpochVerify sha256 (some chain) chain.length = .ok n ↔
      chain.length ≤ Ffi.maxLogBytes ∧ ∃ records, Chained sha256 chain records ∧
        n = records.length := by
  simp only [Ffi.hideEpochVerify, bind_eq_ok, okOr_eq_ok, mapErr_eq_ok, pure_eq_ok, borrow_whole]
  constructor
  · rintro ⟨_, ⟨hchain, rfl⟩, records, hrecords, _, hverify, hn⟩
    exact ⟨hchain, records, ⟨hrecords, hverify⟩, hn⟩
  · rintro ⟨hchain, records, ⟨hrecords, hverify⟩, hn⟩
    exact ⟨_, ⟨hchain, rfl⟩, records, hrecords, (), hverify, hn⟩

/-- A chain that verifies is short enough for the pointers of any target. -/
theorem tryUsize_record {bits : ℕ} (hbits : 32 ≤ bits) {records : List Epoch.EpochRecord}
    (h : Epoch.verify sha256 records = .ok ()) {epoch : UInt64} {record : Epoch.EpochRecord}
    (hrecord : records[epoch.toNat]? = some record) :
    tryUsize bits epoch = some epoch.toNat := by
  have hlt := (List.getElem?_eq_some_iff.mp hrecord).1
  have hlen := Epoch.length_of_verify h
  have hmax : Epoch.maxChainEntries < 2 ^ 32 := by decide
  have hpow := Nat.pow_le_pow_right (show 0 < 2 by omega) hbits
  exact tryUsize_eq_some.mpr ⟨by omega, rfl⟩

theorem hideEpochPublicKey_iff {bits : ℕ} (hbits : 32 ≤ bits) {epoch : UInt64} {key : Bytes} :
    Ffi.hideEpochPublicKey sha256 bits (some chain) chain.length epoch = .ok key ↔
      chain.length ≤ Ffi.maxLogBytes ∧ ∃ records record, Chained sha256 chain records ∧
        records[epoch.toNat]? = some record ∧ key = record.publicKey := by
  constructor
  · intro h
    obtain ⟨bytes, records, record, hbytes, hrecords, hverify, hrecord, -, hkey⟩ :=
      Ffi.hideEpochPublicKey_eq_ok h
    obtain ⟨hchain, rfl⟩ := borrow_whole.mp hbytes
    exact ⟨hchain, records, record, ⟨hrecords, hverify⟩, hrecord, hkey⟩
  · rintro ⟨hchain, records, record, ⟨hrecords, hverify⟩, hrecord, hkey⟩
    simp only [Ffi.hideEpochPublicKey, bind_eq_ok, okOr_eq_ok, mapErr_eq_ok, pure_eq_ok]
    exact ⟨_, Ffi.borrow_of_le hchain, records, hrecords, (), hverify, _,
      tryUsize_record hbits hverify hrecord, record, hrecord, hkey⟩

theorem hideEpochVerifyBound_eq_ok {n : ℕ} :
    Ffi.hideEpochVerifyBound sha256 S (some log) log.length (some binding) binding.length
        (some root) root.length (some chain) chain.length (some epochBinding)
        epochBinding.length = .ok n ↔
      (log.length ≤ Ffi.maxLogBytes ∧ chain.length ≤ Ffi.maxLogBytes) ∧
      ∃ pinned records epochs, Pinned sha256 S log binding root pinned ∧
        Chained sha256 chain records ∧ Identity.EpochBinding.decode epochBinding = .ok epochs ∧
        epochs.verify sha256 pinned records = .ok () ∧ n = records.length := by
  simp only [Ffi.hideEpochVerifyBound, bind_eq_ok, okOr_eq_ok, mapErr_eq_ok, pure_eq_ok,
    borrow_whole, ffi_pinnedLog_eq_ok]
  constructor
  · rintro ⟨_, ⟨hchain, rfl⟩, _, ⟨-, rfl⟩, pinned, ⟨hlog, hpinned⟩, records, hrecords, epochs,
      hepochs, _, hverify, hn⟩
    have hheld := (Identity.EpochBinding.verify_eq_ok.mp hverify).2.2.1
    exact ⟨⟨hlog, hchain⟩, pinned, records, epochs, hpinned, ⟨hrecords, hheld⟩, hepochs, hverify,
      hn⟩
  · rintro ⟨⟨hlog, hchain⟩, pinned, records, epochs, hpinned, ⟨hrecords, -⟩, hepochs, hverify, hn⟩
    exact ⟨_, ⟨hchain, rfl⟩, _, ⟨(length_epochBinding hepochs).le, rfl⟩, pinned, ⟨hlog, hpinned⟩,
      records, hrecords, epochs, hepochs, (), hverify, hn⟩

theorem hideTransparencyVerifyInclusion_eq_ok {leaf path : Bytes} {index size : UInt64} :
    Ffi.hideTransparencyVerifyInclusion sha256 (some leaf) leaf.length index size (some path)
        path.length (some root) root.length = .ok () ↔
      ∃ hashes : List Transparency.Hash, ∃ leaf' root' : Transparency.Hash,
        path = hashes.flatMap Vector.toList ∧ leaf = leaf'.toList ∧ root = root'.toList ∧
        Transparency.verifyInclusion sha256 ⟨index, size, hashes⟩ leaf' root' = .ok () := by
  simp only [Ffi.hideTransparencyVerifyInclusion, bind_eq_ok, okOr_eq_ok, mapErr_eq_ok,
    failIf_eq_ok, not_not, ne_eq, borrow_whole, tryInto_iff]
  constructor
  · rintro ⟨_, ⟨-, rfl⟩, _, ⟨-, rfl⟩, _, ⟨-, rfl⟩, _, hwhole, leaf', hleaf, root', hroot, hverify⟩
    exact ⟨_, leaf', root', hashesOf_iff.mp ⟨hwhole, rfl⟩, hleaf, hroot, hverify⟩
  · rintro ⟨hashes, leaf', root', hpath, hleaf, hroot, hverify⟩
    obtain ⟨hwhole, hhashes⟩ := hashesOf_iff.mpr hpath
    have hleafLen : leaf.length ≤ 32 := by rw [hleaf, Vector.length_toList]
    have hrootLen : root.length ≤ 32 := by rw [hroot, Vector.length_toList]
    have hpathLen : path.length ≤ 64 * 32 := by
      have hle : hashes.length ≤ 64 := length_inclusion hverify
      rw [hpath, Transparency.length_flatMap_toList]
      omega
    rw [hhashes] at hverify
    exact ⟨_, ⟨hleafLen, rfl⟩, _, ⟨hpathLen, rfl⟩, _, ⟨hrootLen, rfl⟩, (), hwhole, leaf', hleaf,
      root', hroot, hverify⟩

theorem hideTransparencyVerifyConsistency_eq_ok {path oldRoot newRoot : Bytes}
    {oldSize newSize : UInt64} :
    Ffi.hideTransparencyVerifyConsistency sha256 oldSize newSize (some path) path.length
        (some oldRoot) oldRoot.length (some newRoot) newRoot.length = .ok () ↔
      ∃ hashes : List Transparency.Hash, ∃ old new : Transparency.Hash,
        path = hashes.flatMap Vector.toList ∧ oldRoot = old.toList ∧ newRoot = new.toList ∧
        Transparency.verifyConsistency sha256 ⟨oldSize, newSize, hashes⟩ old new = .ok () := by
  simp only [Ffi.hideTransparencyVerifyConsistency, bind_eq_ok, okOr_eq_ok, mapErr_eq_ok,
    failIf_eq_ok, not_not, ne_eq, borrow_whole, tryInto_iff]
  constructor
  · rintro ⟨_, ⟨-, rfl⟩, _, ⟨-, rfl⟩, _, ⟨-, rfl⟩, _, hwhole, old, hold, new, hnew, hverify⟩
    exact ⟨_, old, new, hashesOf_iff.mp ⟨hwhole, rfl⟩, hold, hnew, hverify⟩
  · rintro ⟨hashes, old, new, hpath, hold, hnew, hverify⟩
    obtain ⟨hwhole, hhashes⟩ := hashesOf_iff.mpr hpath
    have holdLen : oldRoot.length ≤ 32 := by rw [hold, Vector.length_toList]
    have hnewLen : newRoot.length ≤ 32 := by rw [hnew, Vector.length_toList]
    have hpathLen : path.length ≤ 64 * 32 := by
      have hle : hashes.length ≤ 64 := length_consistency hverify
      rw [hpath, Transparency.length_flatMap_toList]
      omega
    rw [hhashes] at hverify
    exact ⟨_, ⟨hpathLen, rfl⟩, _, ⟨holdLen, rfl⟩, _, ⟨hnewLen, rfl⟩, (), hwhole, old, hold, new,
      hnew, hverify⟩

theorem hideIdentityVerifyPinned_eq_ok {n : ℕ} :
    Ffi.hideIdentityVerifyPinned sha256 S (some log) log.length (some binding) binding.length
        (some root) root.length = .ok n ↔
      log.length ≤ Ffi.maxLogBytes ∧ ∃ pinned, Pinned sha256 S log binding root pinned ∧
        n = (pinned.membership sha256).len := by
  simp only [Ffi.hideIdentityVerifyPinned, bind_eq_ok, pure_eq_ok, ffi_pinnedLog_eq_ok, and_assoc,
    exists_and_left]

end

theorem exists_unit {p : Unit → Prop} : (∃ a, p a) ↔ p () :=
  ⟨fun ⟨_, h⟩ => h, fun h => ⟨(), h⟩⟩

/-- Asked from C, a question is answered exactly as the library answers it. -/
theorem askC_eq_ok {bits : ℕ} (hbits : 32 ≤ bits) {question : Question} {answer : Answer} :
    askC sha256 S bits question = .ok answer ↔
      question.Fits ∧ question.Holds sha256 S answer := by
  cases question <;> cases answer <;>
    simp only [askC, Question.Fits, Question.Holds, bind_eq_ok, pure_eq_ok, exists_unit,
      Answer.count.injEq, Answer.trusted.injEq, Answer.value.injEq, reduceCtorEq, and_true,
      and_false, true_and, exists_false, exists_eq_right', hideIdentityVerify_eq_ok,
      hideIdentityTrustsDevice_eq_ok, hideIdentityHead_eq_ok, hideIdentityVerifyPinned_eq_ok,
      hideEpochVerify_eq_ok, hideEpochPublicKey_iff hbits, hideEpochVerifyBound_eq_ok,
      hideTransparencyVerifyInclusion_eq_ok, hideTransparencyVerifyConsistency_eq_ok]

/-! ## The page -/

section
variable {log recovery device binding root chain epochBinding : Bytes}

theorem identityEntries_eq_ok {entries : List Identity.Entry} :
    Wasm.identityEntries log = .ok entries ↔
      log.length ≤ Ffi.maxLogBytes ∧ Identity.decode log = .ok entries := by
  simp only [Wasm.identityEntries, bind_eq_ok, failIf_eq_ok, mapErr_eq_ok, not_lt, exists_const]
  rfl

theorem epochRecords_eq_ok {records : List Epoch.EpochRecord} :
    Wasm.epochRecords sha256 chain = .ok records ↔
      chain.length ≤ Ffi.maxLogBytes ∧ Chained sha256 chain records := by
  simp only [Wasm.epochRecords, bind_eq_ok, failIf_eq_ok, mapErr_eq_ok, pure_eq_ok, not_lt,
    exists_const]
  constructor
  · rintro ⟨hlen, found, hrecords, _, hverify, rfl⟩
    exact ⟨hlen, hrecords, hverify⟩
  · rintro ⟨hlen, hrecords, hverify⟩
    exact ⟨hlen, records, hrecords, (), hverify, rfl⟩

theorem wasm_pinnedLog_eq_ok {pinned : Identity.IdentityLog S} :
    Wasm.pinnedLog sha256 S log binding root = .ok pinned ↔
      log.length ≤ Ffi.maxLogBytes ∧ Pinned sha256 S log binding root pinned := by
  simp only [Wasm.pinnedLog, Wasm.hash, bind_eq_ok, okOr_eq_ok, mapErr_eq_ok, tryInto_iff,
    identityEntries_eq_ok]
  constructor
  · rintro ⟨recovery, hrecovery, entries, ⟨hlog, hentries⟩, hash, hroot, hpinned⟩
    exact ⟨hlog, recovery, entries, hash, hrecovery, hentries, hroot, hpinned⟩
  · rintro ⟨hlog, recovery, entries, hash, hrecovery, hentries, hroot, hpinned⟩
    exact ⟨recovery, hrecovery, entries, ⟨hlog, hentries⟩, hash, hroot, hpinned⟩

theorem hashPath_eq_ok {path : Bytes} {hashes : List Transparency.Hash} :
    Wasm.hashPath path = .ok hashes ↔ path = hashes.flatMap Vector.toList ∧ hashes.length ≤ 64 := by
  simp only [Wasm.hashPath, check_pure_eq_ok, failIf_eq_ok, not_or, not_not, ne_eq, not_lt]
  constructor
  · intro ⟨⟨hwhole, hlen⟩, hhashes⟩
    have hpath := hashesOf_iff.mp ⟨hwhole, hhashes⟩
    rw [hpath, Transparency.length_flatMap_toList] at hlen
    exact ⟨hpath, by omega⟩
  · intro ⟨hpath, hlen⟩
    obtain ⟨hwhole, hhashes⟩ := hashesOf_iff.mpr hpath
    refine ⟨⟨hwhole, ?_⟩, hhashes⟩
    rw [hpath, Transparency.length_flatMap_toList]
    omega

/-- A proof with too many hashes is refused twice. -/
theorem wasm_verifyInclusion_eq_ok {debug : String → String} {leaf path : Bytes}
    {index size : UInt64} :
    Wasm.verifyInclusion sha256 debug leaf index size path root = .ok () ↔
      ∃ hashes : List Transparency.Hash, ∃ leaf' root' : Transparency.Hash,
        path = hashes.flatMap Vector.toList ∧ leaf = leaf'.toList ∧ root = root'.toList ∧
        Transparency.verifyInclusion sha256 ⟨index, size, hashes⟩ leaf' root' = .ok () := by
  simp only [Wasm.verifyInclusion, Wasm.hash, bind_eq_ok, okOr_eq_ok, mapErr_eq_ok, tryInto_iff,
    hashPath_eq_ok]
  constructor
  · rintro ⟨hashes, ⟨hpath, -⟩, leaf', hleaf, root', hroot, hverify⟩
    exact ⟨hashes, leaf', root', hpath, hleaf, hroot, hverify⟩
  · rintro ⟨hashes, leaf', root', hpath, hleaf, hroot, hverify⟩
    exact ⟨hashes, ⟨hpath, length_inclusion hverify⟩, leaf', hleaf, root', hroot, hverify⟩

theorem wasm_verifyConsistency_eq_ok {debug : String → String} {path oldRoot newRoot : Bytes}
    {oldSize newSize : UInt64} :
    Wasm.verifyConsistency sha256 debug oldSize newSize path oldRoot newRoot = .ok () ↔
      ∃ hashes : List Transparency.Hash, ∃ old new : Transparency.Hash,
        path = hashes.flatMap Vector.toList ∧ oldRoot = old.toList ∧ newRoot = new.toList ∧
        Transparency.verifyConsistency sha256 ⟨oldSize, newSize, hashes⟩ old new = .ok () := by
  simp only [Wasm.verifyConsistency, Wasm.hash, bind_eq_ok, okOr_eq_ok, mapErr_eq_ok, tryInto_iff,
    hashPath_eq_ok]
  constructor
  · rintro ⟨hashes, ⟨hpath, -⟩, old, hold, new, hnew, hverify⟩
    exact ⟨hashes, old, new, hpath, hold, hnew, hverify⟩
  · rintro ⟨hashes, old, new, hpath, hold, hnew, hverify⟩
    exact ⟨hashes, ⟨hpath, length_consistency hverify⟩, old, hold, new, hnew, hverify⟩

theorem verifyIdentity_eq_ok {n : ℕ} :
    Wasm.verifyIdentity sha256 S log recovery = .ok n ↔
      log.length ≤ Ffi.maxLogBytes ∧ ∃ key membership entries,
        Replays sha256 S log recovery key membership entries ∧ n = membership.len := by
  simp only [Wasm.verifyIdentity, Wasm.recoveryKey, bind_eq_ok, mapErr_eq_ok, pure_eq_ok,
    identityEntries_eq_ok]
  constructor
  · rintro ⟨entries, ⟨hlog, hentries⟩, key, hkey, membership, hverify, hn⟩
    exact ⟨hlog, key, membership, entries, ⟨hkey, hentries, hverify⟩, hn⟩
  · rintro ⟨hlog, key, membership, entries, ⟨hkey, hentries, hverify⟩, hn⟩
    exact ⟨entries, ⟨hlog, hentries⟩, key, hkey, membership, hverify, hn⟩

theorem identityTrustsDevice_eq_ok {b : Bool} :
    Wasm.identityTrustsDevice sha256 S log recovery device = .ok b ↔
      log.length ≤ Ffi.maxLogBytes ∧ ∃ key membership entries device',
        Replays sha256 S log recovery key membership entries ∧
        VerifyingIdentity.fromBytes S device = .ok device' ∧
        b = membership.contains (Identity.deviceId sha256 device') := by
  simp only [Wasm.identityTrustsDevice, Wasm.recoveryKey, bind_eq_ok, mapErr_eq_ok, pure_eq_ok,
    identityEntries_eq_ok]
  constructor
  · rintro ⟨device', hdevice, entries, ⟨hlog, hentries⟩, key, hkey, membership, hverify, hb⟩
    exact ⟨hlog, key, membership, entries, device', ⟨hkey, hentries, hverify⟩, hdevice, hb⟩
  · rintro ⟨hlog, key, membership, entries, device', ⟨hkey, hentries, hverify⟩, hdevice, hb⟩
    exact ⟨device', hdevice, entries, ⟨hlog, hentries⟩, key, hkey, membership, hverify, hb⟩

theorem identityHead_eq_ok {head : Bytes} :
    Wasm.identityHead sha256 S log recovery = .ok head ↔
      log.length ≤ Ffi.maxLogBytes ∧ ∃ key membership entries,
        Replays sha256 S log recovery key membership entries ∧
        head = (Identity.IdentityLog.head ⟨entries, key⟩).toList := by
  simp only [Wasm.identityHead, Wasm.recoveryKey, bind_eq_ok, mapErr_eq_ok, pure_eq_ok,
    identityEntries_eq_ok, Identity.IdentityLog.fromEntries_eq_ok]
  constructor
  · rintro ⟨entries, ⟨hlog, hentries⟩, key, hkey, _, ⟨⟨membership, hreplay⟩, rfl⟩, hhead⟩
    exact ⟨hlog, key, membership, entries, ⟨hkey, hentries, hreplay⟩, hhead⟩
  · rintro ⟨hlog, key, membership, entries, ⟨hkey, hentries, hreplay⟩, hhead⟩
    exact ⟨entries, ⟨hlog, hentries⟩, key, hkey, _, ⟨⟨membership, hreplay⟩, rfl⟩, hhead⟩

theorem verifyIdentityPinned_eq_ok {n : ℕ} :
    Wasm.verifyIdentityPinned sha256 S log binding root = .ok n ↔
      log.length ≤ Ffi.maxLogBytes ∧ ∃ pinned, Pinned sha256 S log binding root pinned ∧
        n = (pinned.membership sha256).len := by
  simp only [Wasm.verifyIdentityPinned, bind_eq_ok, pure_eq_ok, wasm_pinnedLog_eq_ok, and_assoc,
    exists_and_left]

theorem verifyEpochChain_eq_ok {n : ℕ} :
    Wasm.verifyEpochChain sha256 chain = .ok n ↔
      chain.length ≤ Ffi.maxLogBytes ∧ ∃ records, Chained sha256 chain records ∧
        n = records.length := by
  simp only [Wasm.verifyEpochChain, bind_eq_ok, pure_eq_ok, epochRecords_eq_ok, and_assoc,
    exists_and_left]

theorem epochPublicKey_eq_ok {epoch : UInt64} {key : Bytes} :
    Wasm.epochPublicKey sha256 chain epoch = .ok key ↔
      chain.length ≤ Ffi.maxLogBytes ∧ ∃ records record, Chained sha256 chain records ∧
        records[epoch.toNat]? = some record ∧ key = record.publicKey := by
  simp only [Wasm.epochPublicKey, bind_eq_ok, pure_eq_ok, okOr_eq_ok, epochRecords_eq_ok]
  constructor
  · rintro ⟨records, ⟨hlen, hchain⟩, index, hindex, record, hrecord, hkey⟩
    rw [(tryUsize_eq_some.mp hindex).2] at hrecord
    exact ⟨hlen, records, record, hchain, hrecord, hkey⟩
  · rintro ⟨hlen, records, record, hchain, hrecord, hkey⟩
    exact ⟨records, ⟨hlen, hchain⟩, _, tryUsize_record le_rfl hchain.2 hrecord, record, hrecord,
      hkey⟩

theorem verifyEpochChainBound_eq_ok {n : ℕ} :
    Wasm.verifyEpochChainBound sha256 S log binding root chain epochBinding = .ok n ↔
      (log.length ≤ Ffi.maxLogBytes ∧ chain.length ≤ Ffi.maxLogBytes) ∧
      ∃ pinned records epochs, Pinned sha256 S log binding root pinned ∧
        Chained sha256 chain records ∧ Identity.EpochBinding.decode epochBinding = .ok epochs ∧
        epochs.verify sha256 pinned records = .ok () ∧ n = records.length := by
  simp only [Wasm.verifyEpochChainBound, bind_eq_ok, mapErr_eq_ok, pure_eq_ok,
    wasm_pinnedLog_eq_ok, epochRecords_eq_ok]
  constructor
  · rintro ⟨pinned, ⟨hlog, hpinned⟩, records, ⟨hchain, hchained⟩, epochs, hepochs, _, hverify, hn⟩
    exact ⟨⟨hlog, hchain⟩, pinned, records, epochs, hpinned, hchained, hepochs, hverify, hn⟩
  · rintro ⟨⟨hlog, hchain⟩, pinned, records, epochs, hpinned, hchained, hepochs, hverify, hn⟩
    exact ⟨pinned, ⟨hlog, hpinned⟩, records, ⟨hchain, hchained⟩, epochs, hepochs, (), hverify, hn⟩

end

/-- Asked from a page, a question is answered exactly as the library answers it. -/
theorem askPage_eq_ok {debug : String → String} {question : Question} {answer : Answer} :
    askPage sha256 S debug question = .ok answer ↔
      question.Fits ∧ question.Holds sha256 S answer := by
  cases question <;> cases answer <;>
    simp only [askPage, Question.Fits, Question.Holds, bind_eq_ok, pure_eq_ok, exists_unit,
      Answer.count.injEq, Answer.trusted.injEq, Answer.value.injEq, reduceCtorEq, and_true,
      and_false, true_and, exists_false, exists_eq_right', verifyIdentity_eq_ok,
      identityTrustsDevice_eq_ok, identityHead_eq_ok, verifyIdentityPinned_eq_ok,
      verifyEpochChain_eq_ok, epochPublicKey_eq_ok, verifyEpochChainBound_eq_ok,
      wasm_verifyInclusion_eq_ok, wasm_verifyConsistency_eq_ok]

/-! ## Checkpoints -/

section
variable {note logPublic root : Bytes} {origin : String} {size : UInt64}

/-- The checkpoint that a note certifies, under a key that was given. -/
def Certifies (sha256 : Bytes → Identity.Hash) (S : Primitives) (note logPublic : Bytes)
    (origin : String) (checkpoint : Transparency.Checkpoint) : Prop :=
  ∃ key, VerifyingIdentity.fromBytes S logPublic = .ok key ∧
    Transparency.Checkpoint.verify sha256 note origin.toList key = .ok checkpoint

theorem length_note {key : VerifyingIdentity S} {checkpoint : Transparency.Checkpoint}
    (h : Transparency.Checkpoint.verify sha256 note origin.toList key = .ok checkpoint) :
    note.length ≤ Transparency.maxNoteBytes := by
  unfold Transparency.Checkpoint.verify Transparency.Checkpoint.verifyWitnessed at h
  obtain ⟨parsed, hdecode, -⟩ := bind_eq_ok.mp h
  unfold Transparency.SignedNote.decode at hdecode
  obtain ⟨_, hlen, -⟩ := bind_eq_ok.mp hdecode
  rw [failIf_eq_ok, not_lt] at hlen
  exact hlen

theorem hideCheckpointVerify_eq_ok (horigin : '\x00' ∉ origin.toList) :
    Ffi.hideCheckpointVerify sha256 S (some note) note.length (some (Ffi.CString.ofString origin))
        (some logPublic) logPublic.length = .ok (size, root) ↔
      ∃ checkpoint, Certifies sha256 S note logPublic origin checkpoint ∧ size = checkpoint.size ∧
        root = checkpoint.root.toList := by
  have htext : textFromUtf8 (Ffi.CString.ofString origin).toBytes = some origin.toList := by
    rw [Ffi.toBytes_ofString horigin, textFromUtf8, fromUtf8_utf8, Option.map_some]
  simp only [Ffi.hideCheckpointVerify, bind_eq_ok, okOr_eq_ok, mapErr_eq_ok, pure_eq_ok,
    borrow_whole, Prod.mk.injEq]
  constructor
  · rintro ⟨_, hcstr, _, ⟨-, rfl⟩, _, ⟨-, rfl⟩, text, hread, key, hkey, checkpoint, hverify, hsize,
      hroot⟩
    rw [← Option.some.inj hcstr, htext] at hread
    rw [← Option.some.inj hread] at hverify
    exact ⟨checkpoint, ⟨key, hkey, hverify⟩, hsize, hroot⟩
  · rintro ⟨checkpoint, ⟨key, hkey, hverify⟩, hsize, hroot⟩
    exact ⟨_, rfl, _, ⟨length_note hverify, rfl⟩, _, ⟨length_key hkey, rfl⟩, _, htext, key, hkey,
      checkpoint, hverify, hsize, hroot⟩

theorem verifyCheckpoint_eq_ok {debug : String → String} :
    Wasm.verifyCheckpoint sha256 S debug note origin logPublic size = .ok root ↔
      ∃ checkpoint, Certifies sha256 S note logPublic origin checkpoint ∧ size = checkpoint.size ∧
        root = checkpoint.root.toList := by
  simp only [Wasm.verifyCheckpoint, bind_eq_ok, mapErr_eq_ok, pure_eq_ok, failIf_eq_ok, not_not,
    ne_eq, exists_const]
  constructor
  · rintro ⟨key, hkey, checkpoint, hverify, hsize, hroot⟩
    exact ⟨checkpoint, ⟨key, hkey, hverify⟩, hsize.symm, hroot⟩
  · rintro ⟨checkpoint, ⟨key, hkey, hverify⟩, hsize, hroot⟩
    exact ⟨key, hkey, checkpoint, hverify, hsize.symm, hroot⟩

end

/-! ## One verdict -/

/-- **A relying party gets one verdict.** Whatever bytes it was handed, C and a page answer a
question alike, and the answer is the one that the library gives within the limit on logs and
chains. A checkpoint is certified for the same size and root. -/
theorem one_verdict (sha256 : Bytes → Identity.Hash) (S : Primitives) (debug : String → String)
    {bits : ℕ} (hbits : 32 ≤ bits) :
    (∀ question answer,
      (askC sha256 S bits question = .ok answer ↔
        askPage sha256 S debug question = .ok answer) ∧
      (askC sha256 S bits question = .ok answer ↔
        question.Fits ∧ question.Holds sha256 S answer)) ∧
    ∀ note logPublic root origin size, '\x00' ∉ origin.toList →
      (Ffi.hideCheckpointVerify sha256 S (some note) note.length
          (some (Ffi.CString.ofString origin)) (some logPublic) logPublic.length =
          .ok (size, root) ↔
        Wasm.verifyCheckpoint sha256 S debug note origin logPublic size = .ok root) := by
  refine ⟨fun question answer => ⟨?_, askC_eq_ok hbits⟩, ?_⟩
  · rw [askC_eq_ok hbits, askPage_eq_ok]
  · intro note logPublic root origin size horigin
    rw [hideCheckpointVerify_eq_ok horigin, verifyCheckpoint_eq_ok]

/-- The theorem at a chain of three epochs, and at a log with a plain name. -/
theorem one_verdict_three_epochs :
    let sha : Bytes → Identity.Hash := fun _ => Identity.zeroLink
    let chain := Epoch.encodeRecords (Epoch.sampleRecords sha 3)
    askC sha Primitives.toy 64 (.epochs chain) = .ok (.count 3) ∧
      askPage sha Primitives.toy id (.epochs chain) = .ok (.count 3) ∧
      (Ffi.hideCheckpointVerify sha Primitives.toy (some []) 0 (some (Ffi.CString.ofString "log"))
          (some []) 0 = .ok (1, []) ↔
        Wasm.verifyCheckpoint sha Primitives.toy id [] "log" [] 1 = .ok []) := by
  intro sha chain
  have hshort : 3 ≤ Epoch.maxChainEntries := by decide
  have hverify : Epoch.verify sha (Epoch.sampleRecords sha 3) = .ok () :=
    Epoch.verify_sampleRecords hshort
  have hfits : chain.length ≤ Ffi.maxLogBytes := by
    rw [Epoch.length_encodeRecords hverify, Epoch.length_sampleRecords]
    decide
  have hverdict := one_verdict sha Primitives.toy id (show 32 ≤ 64 by omega)
  have hholds : askC sha Primitives.toy 64 (.epochs chain) = .ok (.count 3) :=
    (hverdict.1 _ _).2.mpr ⟨hfits, _, ⟨Epoch.decodeRecords_of_verify hverify, hverify⟩,
      by rw [Epoch.length_sampleRecords]⟩
  exact ⟨hholds, (hverdict.1 _ _).1.mp hholds, hverdict.2 [] [] [] "log" 1 (by decide)⟩

end HideProtocol.Surfaces
