import HideProtocol.Ffi.Boundary
import HideProtocol.Identity.Bindings
import HideProtocol.Identity.Codec
import HideProtocol.Transparency.Checkpoint

/-!
# Checks of a relying party, from C

Identity logs, epoch chains, transparency proofs and signed checkpoints, which a caller was handed
by somebody it does not trust. A code tells corruption from forgery: `HIDE_ERR_MALFORMED` is for
what does not decode, `HIDE_ERR_AUTHENTICATION` for what decodes and does not verify.
-/

namespace HideProtocol.Ffi

open Lib Sign

/-- Hashes laid out behind each other; what is left over is none. -/
def hashesOf (bytes : Bytes) : List Transparency.Hash :=
  (chunksExact 32 bytes).filterMap (tryInto 32)

section
variable (sha256 : Bytes → Identity.Hash) (S : Primitives)

/-! ## Identity logs -/

/-- Replays an identity log and reports how many devices it trusts now. -/
def hideIdentityVerify (log : Option Bytes) (logLen : ℕ) (recovery : Option Bytes)
    (recoveryLen : ℕ) : Except ErrorCode ℕ := do
  let logBytes ← okOr (borrow log logLen maxLogBytes) .invalidArgument
  let recoveryBytes ← okOr (borrow recovery recoveryLen maxKeyFile) .invalidArgument
  let recoveryKey ← mapErr (fun _ => .notAKey) (VerifyingIdentity.fromBytes S recoveryBytes)
  let entries ← mapErr (fun _ => .malformed) (Identity.decode logBytes)
  let membership ← mapErr (fun _ => .authentication)
    (Identity.IdentityLog.verify sha256 entries recoveryKey)
  pure membership.len

/-- Whether a log trusts a device right now. -/
def hideIdentityTrustsDevice (log : Option Bytes) (logLen : ℕ) (recovery : Option Bytes)
    (recoveryLen : ℕ) (devicePublic : Option Bytes) (devicePublicLen : ℕ) :
    Except ErrorCode Bool := do
  let logBytes ← okOr (borrow log logLen maxLogBytes) .invalidArgument
  let recoveryBytes ← okOr (borrow recovery recoveryLen maxKeyFile) .invalidArgument
  let deviceBytes ← okOr (borrow devicePublic devicePublicLen maxKeyFile) .invalidArgument
  let recoveryKey ← mapErr (fun _ => .notAKey) (VerifyingIdentity.fromBytes S recoveryBytes)
  let device ← mapErr (fun _ => .notAKey) (VerifyingIdentity.fromBytes S deviceBytes)
  let entries ← mapErr (fun _ => .malformed) (Identity.decode logBytes)
  let membership ← mapErr (fun _ => .authentication)
    (Identity.IdentityLog.verify sha256 entries recoveryKey)
  pure (membership.contains (Identity.deviceId sha256 device))

/-- The head of an identity log: one value naming this exact history. -/
def hideIdentityHead (log : Option Bytes) (logLen : ℕ) (recovery : Option Bytes)
    (recoveryLen : ℕ) : Except ErrorCode Bytes := do
  let logBytes ← okOr (borrow log logLen maxLogBytes) .invalidArgument
  let recoveryBytes ← okOr (borrow recovery recoveryLen maxKeyFile) .invalidArgument
  let recoveryKey ← mapErr (fun _ => .notAKey) (VerifyingIdentity.fromBytes S recoveryBytes)
  let entries ← mapErr (fun _ => .malformed) (Identity.decode logBytes)
  let log ← mapErr (fun _ => .authentication)
    (Identity.IdentityLog.fromEntries sha256 entries recoveryKey)
  pure log.head.toList

/-! ## Epoch chains -/

/-- Verifies a published epoch history and reports how many epochs it holds. -/
def hideEpochVerify (chain : Option Bytes) (chainLen : ℕ) : Except ErrorCode ℕ := do
  let bytes ← okOr (borrow chain chainLen maxLogBytes) .invalidArgument
  let records ← mapErr (fun _ => .malformed) (Epoch.decodeRecords bytes)
  mapErr (fun _ => .authentication) (Epoch.verify sha256 records)
  pure records.length

/-! ## Transparency proofs -/

/-- Checks an inclusion proof. `path` is the concatenated 32-byte hashes. -/
def hideTransparencyVerifyInclusion (leaf : Option Bytes) (leafLen : ℕ) (index size : UInt64)
    (path : Option Bytes) (pathLen : ℕ) (root : Option Bytes) (rootLen : ℕ) :
    Except ErrorCode Unit := do
  let leaf ← okOr (borrow leaf leafLen 32) .invalidArgument
  let pathBytes ← okOr (borrow path pathLen (64 * 32)) .invalidArgument
  let root ← okOr (borrow root rootLen 32) .invalidArgument
  failIf (pathBytes.length % 32 ≠ 0) .invalidArgument
  let leafHash ← okOr (tryInto 32 leaf) .invalidArgument
  let rootHash ← okOr (tryInto 32 root) .invalidArgument
  mapErr (fun _ => .authentication) (Transparency.verifyInclusion sha256
    { index, size, path := hashesOf pathBytes } leafHash rootHash)

/-- Checks that `oldRoot` is the root the log had before it grew to `newRoot`. -/
def hideTransparencyVerifyConsistency (oldSize newSize : UInt64) (path : Option Bytes)
    (pathLen : ℕ) (oldRoot : Option Bytes) (oldRootLen : ℕ) (newRoot : Option Bytes)
    (newRootLen : ℕ) : Except ErrorCode Unit := do
  let pathBytes ← okOr (borrow path pathLen (64 * 32)) .invalidArgument
  let old ← okOr (borrow oldRoot oldRootLen 32) .invalidArgument
  let new ← okOr (borrow newRoot newRootLen 32) .invalidArgument
  failIf (pathBytes.length % 32 ≠ 0) .invalidArgument
  let oldHash ← okOr (tryInto 32 old) .invalidArgument
  let newHash ← okOr (tryInto 32 new) .invalidArgument
  mapErr (fun _ => .authentication) (Transparency.verifyConsistency sha256
    { oldSize, newSize, path := hashesOf pathBytes } oldHash newHash)

/-! ## Pinned identities -/

/-- Decodes a log and verifies it under the recovery key that `binding` names, after checking that
binding against the pinned identity root. -/
def pinnedLog (log : Option Bytes) (logLen : ℕ) (binding : Option Bytes) (bindingLen : ℕ)
    (root : Option Bytes) (rootLen : ℕ) : Except ErrorCode (Identity.IdentityLog S) := do
  let logBytes ← okOr (borrow log logLen maxLogBytes) .invalidArgument
  let bindingBytes ← okOr (borrow binding bindingLen Identity.recoveryBindingLength)
    .invalidArgument
  let rootBytes ← okOr (borrow root rootLen 32) .invalidArgument
  let pinned ← okOr (tryInto 32 rootBytes) .invalidArgument
  let binding ← mapErr (fun _ => .malformed) (Identity.RecoveryBinding.decode S bindingBytes)
  let entries ← mapErr (fun _ => .malformed) (Identity.decode logBytes)
  mapErr (fun _ => .authentication) (binding.verifyPinned sha256 entries pinned)

/-- Verifies an identity log whose recovery key is established by a recovery binding, against the
identity root the caller pinned. -/
def hideIdentityVerifyPinned (log : Option Bytes) (logLen : ℕ) (binding : Option Bytes)
    (bindingLen : ℕ) (root : Option Bytes) (rootLen : ℕ) : Except ErrorCode ℕ := do
  let log ← pinnedLog sha256 S log logLen binding bindingLen root rootLen
  pure (log.membership sha256).len

/-- Verifies that an epoch chain belongs to a pinned identity, and reports its length. -/
def hideEpochVerifyBound (log : Option Bytes) (logLen : ℕ) (recoveryBinding : Option Bytes)
    (recoveryBindingLen : ℕ) (root : Option Bytes) (rootLen : ℕ) (chain : Option Bytes)
    (chainLen : ℕ) (epochBinding : Option Bytes) (epochBindingLen : ℕ) : Except ErrorCode ℕ := do
  let chainBytes ← okOr (borrow chain chainLen maxLogBytes) .invalidArgument
  let bindingBytes ← okOr (borrow epochBinding epochBindingLen Identity.epochBindingLength)
    .invalidArgument
  let log ← pinnedLog sha256 S log logLen recoveryBinding recoveryBindingLen root rootLen
  let records ← mapErr (fun _ => .malformed) (Epoch.decodeRecords chainBytes)
  let binding ← mapErr (fun _ => .malformed) (Identity.EpochBinding.decode bindingBytes)
  mapErr (fun _ => .authentication) (binding.verify sha256 log records)
  pure records.length

/-! ## Checkpoints -/

def logErrorCode : Transparency.LogError → ErrorCode
  | .malformed => .malformed
  | _ => .authentication

/-- Verifies a signed checkpoint note; the tree size and the root are written. Witness
cosignatures are ignored here. -/
def hideCheckpointVerify (note : Option Bytes) (noteLen : ℕ) (origin : Option CString)
    (logPublic : Option Bytes) (logPublicLen : ℕ) : Except ErrorCode (UInt64 × Bytes) := do
  let origin ← okOr origin .invalidArgument
  let note ← okOr (borrow note noteLen Transparency.maxNoteBytes) .invalidArgument
  let key ← okOr (borrow logPublic logPublicLen maxKeyFile) .invalidArgument
  let origin ← okOr (textFromUtf8 origin.toBytes) .invalidArgument
  let key ← mapErr (fun _ => .notAKey) (VerifyingIdentity.fromBytes S key)
  let checkpoint ← mapErr logErrorCode (Transparency.Checkpoint.verify sha256 note origin key)
  pure (checkpoint.size, checkpoint.root.toList)

end

end HideProtocol.Ffi
