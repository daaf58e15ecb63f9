import HideProtocol.Epoch.Codec
import HideProtocol.Identity.Bindings
import HideProtocol.Identity.Codec
import HideProtocol.Lib.Chunks
import HideProtocol.Lib.Usize
import HideProtocol.Transparency.Checkpoint

/-!
# Checks of a relying party, from a page

The checks that the C boundary has, on slices of JavaScript. A failure is thrown as a text, and
what does not decode is told from what does not verify by the prefix of that text.

The functions of this module return what is thrown as the text itself. `debug` quotes a string
inside of an error.
-/

namespace HideProtocol.Wasm

open Lib Sign

/-- A log or chain is public and can be large. -/
def maxLogBytes : ℕ := 16 * 1024 * 1024

/-- Pointers have 32 bits in WebAssembly. -/
def pointerBits : ℕ := 32

/-- The distinction a caller needs to tell corruption from forgery. -/
def malformed (message : String) : String := "malformed: " ++ message

/-- `path` is the concatenated 32-byte hashes; any other length is refused. -/
def hashPath (path : Bytes) : Except String (List Transparency.Hash) := do
  failIf (path.length % 32 ≠ 0 ∨ path.length > 64 * 32)
    "a proof path must be whole 32-byte hashes"
  pure ((chunksExact 32 path).filterMap (tryInto 32))

def hash (bytes : Bytes) (what : String) : Except String Transparency.Hash :=
  okOr (tryInto 32 bytes) ("the " ++ what ++ " must be 32 bytes")

def identityEntries (log : Bytes) : Except String (List Identity.Entry) := do
  failIf (log.length > maxLogBytes) "that log is too large for the browser build"
  mapErr (fun error => malformed error.display) (Identity.decode log)

section
variable (sha256 : Bytes → Identity.Hash) (S : Primitives)

/-! ## Identity logs -/

def recoveryKey (bytes : Bytes) : Except String (VerifyingIdentity S) :=
  mapErr SignError.display (VerifyingIdentity.fromBytes S bytes)

/-- Replays an identity log and returns how many devices it trusts now. -/
def verifyIdentity (log recovery : Bytes) : Except String ℕ := do
  let entries ← identityEntries log
  let recovery ← recoveryKey S recovery
  let membership ← mapErr Identity.IdentityError.display
    (Identity.IdentityLog.verify sha256 entries recovery)
  pure membership.len

/-- Whether the log trusts this device right now. -/
def identityTrustsDevice (log recovery devicePublic : Bytes) : Except String Bool := do
  let device ← mapErr SignError.display (VerifyingIdentity.fromBytes S devicePublic)
  let entries ← identityEntries log
  let recovery ← recoveryKey S recovery
  let membership ← mapErr Identity.IdentityError.display
    (Identity.IdentityLog.verify sha256 entries recovery)
  pure (membership.contains (Identity.deviceId sha256 device))

/-- The head link: 32 bytes naming this exact history. -/
def identityHead (log recovery : Bytes) : Except String Bytes := do
  let entries ← identityEntries log
  let recovery ← recoveryKey S recovery
  let log ← mapErr Identity.IdentityError.display
    (Identity.IdentityLog.fromEntries sha256 entries recovery)
  pure log.head.toList

/-! ## Epoch chains -/

/-- The records of a chain that was verified. -/
def epochRecords (chain : Bytes) : Except String (List Epoch.EpochRecord) := do
  failIf (chain.length > maxLogBytes) "that chain is too large for the browser build"
  let records ← mapErr (fun error => malformed error.display) (Epoch.decodeRecords chain)
  mapErr Epoch.EpochError.display (Epoch.verify sha256 records)
  pure records

/-- Verifies a published epoch history and returns how many epochs it holds. -/
def verifyEpochChain (chain : Bytes) : Except String ℕ := do
  let records ← epochRecords sha256 chain
  pure records.length

/-- The public key a sender should encrypt to for `epoch`. -/
def epochPublicKey (chain : Bytes) (epoch : UInt64) : Except String Bytes := do
  let records ← epochRecords sha256 chain
  -- a cast would wrap and select the wrong epoch
  let index ← okOr (tryUsize pointerBits epoch) "that epoch is beyond the chain"
  let record ← okOr records[index]? "that epoch is beyond the chain"
  pure record.publicKey

/-! ## Transparency proofs -/

/-- Checks that `leaf` is entry `index` of a log of `size` entries under `root`. -/
def verifyInclusion (debug : String → String) (leaf : Bytes) (index size : UInt64)
    (path root : Bytes) : Except String Unit := do
  let path ← hashPath path
  let leaf ← hash leaf "leaf"
  let root ← hash root "root"
  mapErr (Transparency.LogError.display debug)
    (Transparency.verifyInclusion sha256 { index, size, path } leaf root)

/-- Checks that `oldRoot` really is the root the log had before it grew to `newRoot`. -/
def verifyConsistency (debug : String → String) (oldSize newSize : UInt64)
    (path oldRoot newRoot : Bytes) : Except String Unit := do
  let path ← hashPath path
  let oldRoot ← hash oldRoot "old root"
  let newRoot ← hash newRoot "new root"
  mapErr (Transparency.LogError.display debug)
    (Transparency.verifyConsistency sha256 { oldSize, newSize, path } oldRoot newRoot)

/-! ## Pinned identities -/

def pinnedLog (log recoveryBinding pinnedRoot : Bytes) :
    Except String (Identity.IdentityLog S) := do
  let binding ← mapErr (fun error => malformed error.display)
    (Identity.RecoveryBinding.decode S recoveryBinding)
  let entries ← identityEntries log
  let root ← hash pinnedRoot "pinned root"
  mapErr Identity.IdentityError.display (binding.verifyPinned sha256 entries root)

/-- Verifies an identity log whose recovery key comes from a recovery binding, against the root
the caller pinned. Returns the number of trusted devices. -/
def verifyIdentityPinned (log recoveryBinding pinnedRoot : Bytes) : Except String ℕ := do
  let log ← pinnedLog sha256 S log recoveryBinding pinnedRoot
  pure (log.membership sha256).len

/-- Verifies that `chain` belongs to the pinned identity through `epochBinding`. Returns the
number of epochs. -/
def verifyEpochChainBound (log recoveryBinding pinnedRoot chain epochBinding : Bytes) :
    Except String ℕ := do
  let log ← pinnedLog sha256 S log recoveryBinding pinnedRoot
  let records ← epochRecords sha256 chain
  let binding ← mapErr (fun error => malformed error.display)
    (Identity.EpochBinding.decode epochBinding)
  mapErr Identity.IdentityError.display (binding.verify sha256 log records)
  pure records.length

/-! ## Checkpoints -/

/-- Verifies a signed checkpoint note and returns its root. The size is checked against
`expectedSize`, so a caller cannot forget to. -/
def verifyCheckpoint (debug : String → String) (note : Bytes) (origin : String)
    (logPublic : Bytes) (expectedSize : UInt64) : Except String Bytes := do
  let key ← mapErr SignError.display (VerifyingIdentity.fromBytes S logPublic)
  let checkpoint ← mapErr (Transparency.LogError.display debug)
    (Transparency.Checkpoint.verify sha256 note origin.toList key)
  failIf (checkpoint.size ≠ expectedSize) "the checkpoint is for a different tree size"
  pure checkpoint.root.toList

end

end HideProtocol.Wasm
