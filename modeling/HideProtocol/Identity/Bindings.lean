import HideProtocol.Epoch.Chain
import HideProtocol.Identity.Log

/-!
# Bindings

Signed statements that tie things to an identity from outside its log: which recovery key the
founder chose, and which epoch chain a trusted device vouches for. Both are byte strings of one
fixed length.
-/

namespace HideProtocol.Identity

open Lib Sign Epoch

def recoveryBindingContext : Bytes := utf8 "HIDE/1.0 recovery binding"
def epochBindingContext : Bytes := utf8 "HIDE/1.0 epoch binding"

/-- `root(32) || recovery_key(1984) || signature(3373)`. -/
def recoveryBindingLength : ℕ := 32 + verifyingKeyLength + signatureLength

/-- `root(32) || head(32) || chain_head(32) || u64be(epochs) || signer(32) || signature(3373)`. -/
def epochBindingLength : ℕ := 32 * 3 + 8 + 32 + signatureLength

variable {P : Primitives}

/-! ## The recovery key -/

/-- The founding device's statement "this identity's recovery key is K". -/
structure RecoveryBinding (P : Primitives) where
  root : Hash
  recoveryKey : VerifyingIdentity P
  signature : Bytes
deriving DecidableEq

def recoveryMessage (root : Hash) (recovery : VerifyingIdentity P) : Bytes :=
  root.toList ++ recovery.toBytes.toList

variable (P) in
def founderKey (entries : List Entry) : Except IdentityError (VerifyingIdentity P) :=
  match entries.head?.map Entry.event with
  | some (.create device _) => mapErr (fun _ => .badBinding) (VerifyingIdentity.fromBytes P device)
  | some _ => .error (.badRoot "another event")
  | none => .error .empty

namespace RecoveryBinding

/-- Signed by the founding device, over the root and the log's recovery key. -/
def create (log : IdentityLog P) (founder : SigningIdentity) :
    Except IdentityError (RecoveryBinding P) := do
  let root := log.root
  let expected ← founderKey P log.entries
  failIf (founder.verifyingKey P ≠ expected) (.unauthorised 0)
  let signature :=
    (founder.sign P recoveryBindingContext (recoveryMessage root log.recovery)).toList
  pure { root, recoveryKey := log.recovery, signature }

def encode (self : RecoveryBinding P) : Bytes :=
  self.root.toList ++ self.recoveryKey.toBytes.toList ++ self.signature

variable (P) in
def decode (bytes : Bytes) : Except IdentityError (RecoveryBinding P) := do
  failIf (bytes.length ≠ recoveryBindingLength) .malformed
  let rest := bytes.drop 32
  let root ← okOr (tryInto 32 (bytes.take 32)) .malformed
  let recoveryKey ←
    mapErr (fun _ => .malformed) (VerifyingIdentity.fromBytes P (rest.take verifyingKeyLength))
  pure { root, recoveryKey, signature := rest.drop verifyingKeyLength }

/-- Verifies the binding against the log it claims, then replays the log under the bound
recovery key. -/
def verify (sha256 : Bytes → Hash) (self : RecoveryBinding P) (entries : List Entry) :
    Except IdentityError (IdentityLog P) := do
  let founder ← founderKey P entries
  failIf (entries.head?.map Entry.link ≠ some self.root) .wrongIdentity
  mapErr (fun _ => .badBinding)
    (founder.verify recoveryBindingContext (recoveryMessage self.root self.recoveryKey)
      self.signature)
  IdentityLog.fromEntries sha256 entries self.recoveryKey

/-- The call a relying party makes: `pinnedRoot` is the value it trusts. -/
def verifyPinned (sha256 : Bytes → Hash) (self : RecoveryBinding P) (entries : List Entry)
    (pinnedRoot : Hash) : Except IdentityError (IdentityLog P) := do
  failIf (self.root ≠ pinnedRoot) .wrongIdentity
  self.verify sha256 entries

end RecoveryBinding

/-! ## The epoch chain -/

/-- A trusted device's statement "at identity history H, my epoch chain is C, with N epochs". -/
structure EpochBinding where
  identityRoot : Hash
  identityHead : Hash
  chainHead : Hash
  epochs : UInt64
  signer : DeviceId
  signature : Bytes
deriving DecidableEq

def verifyByMember (membership : Membership P) (signer : DeviceId) (message signature : Bytes) :
    Except IdentityError Unit := do
  let device ← okOr (membership.get signer) (.unauthorised 0)
  mapErr (fun _ => .badBinding) (device.key.verify epochBindingContext message signature)

namespace EpochBinding

def message (self : EpochBinding) : Bytes :=
  self.identityRoot.toList ++ self.identityHead.toList ++ self.chainHead.toList ++
    beBytes 8 self.epochs.toNat ++ self.signer.toList

/-- Signed by a device the log trusts now, over the log's current head and the chain as it
stands. -/
def create (sha256 : Bytes → Hash) (log : IdentityLog P) (device : SigningIdentity)
    (records : List EpochRecord) : Except IdentityError EpochBinding := do
  let signer := deviceId sha256 (device.verifyingKey P)
  failIf (!(log.membership sha256).contains signer)
    (.unauthorised (UInt64.ofNat log.entries.length))
  mapErr (fun _ => .staleBinding) (Epoch.verify sha256 records)
  failIf (records = []) .staleBinding
  let binding : EpochBinding :=
    { identityRoot := log.root, identityHead := log.head, chainHead := Epoch.chainHead records,
      epochs := UInt64.ofNat records.length, signer, signature := [] }
  pure { binding with signature := (device.sign P epochBindingContext binding.message).toList }

def encode (self : EpochBinding) : Bytes := self.message ++ self.signature

def decode (bytes : Bytes) : Except IdentityError EpochBinding := do
  failIf (bytes.length ≠ epochBindingLength) .malformed
  let field := fun at_ : ℕ => okOr (tryInto 32 ((bytes.drop at_).take 32)) IdentityError.malformed
  let identityRoot ← field 0
  let identityHead ← field 32
  let chainHead ← field 64
  let epochs := UInt64.ofNat (ofBe ((bytes.drop 96).take 8))
  let signer ← field 104
  pure { identityRoot, identityHead, chainHead, epochs, signer, signature := bytes.drop 136 }

/-- Checks the binding against a verified identity log and the exact chain it names. The signer
must be trusted by the log's current membership. -/
def verify (sha256 : Bytes → Hash) (self : EpochBinding) (log : IdentityLog P)
    (records : List EpochRecord) : Except IdentityError Unit := do
  failIf (log.root ≠ self.identityRoot) .wrongIdentity
  failIf (!log.entries.any fun entry => entry.link == self.identityHead) .staleBinding
  mapErr (fun _ => .staleBinding) (Epoch.verify sha256 records)
  failIf (records = [] ∨ UInt64.ofNat records.length ≠ self.epochs ∨
    Epoch.chainHead records ≠ self.chainHead) .staleBinding
  verifyByMember (log.membership sha256) self.signer self.message self.signature

end EpochBinding

end HideProtocol.Identity
