import HideProtocol.Sign.Hybrid

/-!
# The identity log

An identity is an ordered, hash-linked log of signed events. Replaying it from its root yields
the devices trusted now; each entry is checked against the membership that the entries before
it produced.

SHA-256 and the signature schemes are parameters.
-/

namespace HideProtocol.Identity

open Lib Sign

/-- `[u8; 32]`. -/
abbrev Hash := Vector UInt8 32

/-- The hash of a device's verifying key. -/
abbrev DeviceId := Hash

/-- Position in the log. The root is zero. -/
abbrev Sequence := UInt64

def entryContext : Bytes := utf8 "HIDE/0.6 identity entry"

def maxEntries : ℕ := 100000

def maxLabelBytes : ℕ := 256

/-- The link before the first entry, `[0u8; 32]`. -/
def zeroLink : Hash := Vector.replicate 32 0

inductive IdentityError where
  | empty
  | unauthorised (sequence : Sequence)
  | badSignature (sequence : Sequence)
  | outOfOrder (expected found : Sequence)
  | brokenLink (sequence : Sequence)
  | badRoot (found : String)
  | alreadyEnrolled (sequence : Sequence)
  | notEnrolled (sequence : Sequence)
  | wouldOrphan (sequence : Sequence)
  | malformed
  | tooManyEntries (count : ℕ)
  | labelTooLong
  | sign (error : String)
  | wrongIdentity
  | badBinding
  | staleBinding
deriving DecidableEq, Repr

/-- The text of an error, piece by piece. -/
def IdentityError.pieces : IdentityError → List String
  | empty => ["the log is empty"]
  | unauthorised sequence =>
    ["entry ", toString sequence, " is not signed by a device this log trusts at that point"]
  | badSignature sequence => ["entry ", toString sequence, " has an invalid signature"]
  | outOfOrder expected found =>
    ["entry ", toString expected, " was expected but the log contains ", toString found]
  | brokenLink sequence => ["entry ", toString sequence, " does not link to its predecessor"]
  | badRoot found => ["the first entry must create the identity, not ", found]
  | alreadyEnrolled sequence => ["device is already enrolled at entry ", toString sequence]
  | notEnrolled sequence => ["entry ", toString sequence, " revokes a device that is not enrolled"]
  | wouldOrphan sequence => ["entry ", toString sequence, " would revoke the last remaining device"]
  | malformed => ["the log is malformed"]
  | tooManyEntries count => ["the log claims ", toString count, " entries, which exceeds the limit"]
  | labelTooLong => ["a device label may not exceed ", toString maxLabelBytes, " bytes"]
  | sign error => ["signing failed: ", error]
  | wrongIdentity => ["the log's root is not the identity that was pinned"]
  | badBinding => ["the binding does not verify"]
  | staleBinding => ["the binding names a history or chain that is not the one supplied"]

def IdentityError.display (error : IdentityError) : String := String.join error.pieces

/-! ## Entries -/

/-- What an entry does. Devices to add are encoded verifying keys; a device to remove is an
id. -/
inductive Event where
  | create (device : Bytes) (label : String)
  | enrol (device : Bytes) (label : String)
  | revoke (device : DeviceId)
  | recover (device : Bytes) (label : String)
deriving DecidableEq

namespace Event

def tag : Event → UInt8
  | create _ _ => 1
  | enrol _ _ => 2
  | revoke _ => 3
  | recover _ _ => 4

def label : Event → Option String
  | create _ label => some label
  | enrol _ label => some label
  | recover _ label => some label
  | revoke _ => none

/-- The event's own length-prefixed fields. -/
def fields : Event → Bytes
  | create device label => lenPrefixed 8 device ++ lenPrefixed 8 (utf8 label)
  | enrol device label => lenPrefixed 8 device ++ lenPrefixed 8 (utf8 label)
  | recover device label => lenPrefixed 8 device ++ lenPrefixed 8 (utf8 label)
  | revoke device => lenPrefixed 8 device.toList

end Event

/-- One signed, linked record. -/
structure Entry where
  sequence : Sequence
  event : Event
  signer : DeviceId
  link : Hash
  signature : Bytes
deriving DecidableEq

/-- The bytes that are signed and linked. -/
def signedBytes (previous : Hash) (sequence : Sequence) (event : Event) (signer : DeviceId) :
    Bytes :=
  previous.toList ++ beBytes 8 sequence.toNat ++ [event.tag] ++ signer.toList ++ event.fields

def Entry.signedBytes (self : Entry) (previous : Hash) : Bytes :=
  Identity.signedBytes previous self.sequence self.event self.signer

/-! ## Membership -/

/-- A device trusted at some point in the log. -/
structure Device (P : Primitives) where
  id : DeviceId
  key : VerifyingIdentity P
  label : String
  enrolledAt : Sequence
deriving DecidableEq

/-- The device set produced by replaying a log. -/
structure Membership (P : Primitives) where
  devices : Std.ExtTreeMap DeviceId (Device P) := ∅
  revoked : Std.ExtTreeMap DeviceId Sequence := ∅

namespace Membership
variable {P : Primitives}

def contains (self : Membership P) (id : DeviceId) : Bool := self.devices.contains id

def get (self : Membership P) (id : DeviceId) : Option (Device P) := self.devices[id]?

def len (self : Membership P) : ℕ := self.devices.size

def revokedAt (self : Membership P) (id : DeviceId) : Option Sequence := self.revoked[id]?

end Membership

section
variable (sha256 : Bytes → Hash) {P : Primitives}

def deviceId (key : VerifyingIdentity P) : DeviceId :=
  sha256 (utf8 "HIDE/0.6 device id" ++ key.toBytes.toList)

def linkFor (signed signature : Bytes) : Hash :=
  sha256 (utf8 "HIDE/0.6 identity link" ++ lenPrefixed 8 signed ++ lenPrefixed 8 signature)

/-! ## Applying one entry -/

def checkLabel (label : String) : Except IdentityError Unit :=
  failIf ((utf8 label).length > maxLabelBytes) .labelTooLong

variable (P) in
def parseKey (bytes : Bytes) (sequence : Sequence) :
    Except IdentityError (VerifyingIdentity P) := do
  failIf (bytes.length ≠ verifyingKeyLength) .malformed
  mapErr (fun _ => .badSignature sequence) (VerifyingIdentity.fromBytes P bytes)

/-- Which key is allowed to have signed `entry`, given the membership so far. -/
def authorOf (membership : Membership P) (entry : Entry) (recovery : VerifyingIdentity P) :
    Except IdentityError (VerifyingIdentity P) :=
  match entry.event with
  | .create device _ => do
    failIf (entry.sequence ≠ 0) (.badRoot "a later Create")
    let key ← parseKey P device entry.sequence
    failIf (deviceId sha256 key ≠ entry.signer) (.unauthorised entry.sequence)
    pure key
  | .recover _ _ => do
    failIf (deviceId sha256 recovery ≠ entry.signer) (.unauthorised entry.sequence)
    pure recovery
  | .enrol _ _ | .revoke _ => do
    let device ← okOr (membership.get entry.signer) (.unauthorised entry.sequence)
    pure device.key

/-- The `Device` record the three adding events insert. -/
def newDevice (key : VerifyingIdentity P) (label : String) (sequence : Sequence) : Device P :=
  { id := deviceId sha256 key, key, label, enrolledAt := sequence }

/-- The membership after an authorised entry. -/
def update (membership : Membership P) (entry : Entry) : Except IdentityError (Membership P) :=
  match entry.event with
  | .create device label => do
    let key ← parseKey P device entry.sequence
    let id := deviceId sha256 key
    pure { membership with
      devices := membership.devices.insert id (newDevice sha256 key label entry.sequence) }
  | .enrol device label => do
    let key ← parseKey P device entry.sequence
    let id := deviceId sha256 key
    failIf (membership.contains id) (.alreadyEnrolled entry.sequence)
    pure {
      devices := membership.devices.insert id (newDevice sha256 key label entry.sequence)
      revoked := membership.revoked.erase id }
  | .revoke device => do
    failIf (!membership.contains device) (.notEnrolled entry.sequence)
    failIf (membership.len = 1) (.wouldOrphan entry.sequence)
    pure {
      devices := membership.devices.erase device
      revoked := membership.revoked.insert device entry.sequence }
  | .recover device label => do
    let key ← parseKey P device entry.sequence
    let id := deviceId sha256 key
    let revoked := membership.devices.keys.foldl
      (fun revoked old => revoked.insert old entry.sequence) membership.revoked
    pure {
      devices := (∅ : Std.ExtTreeMap DeviceId (Device P)).insert id
        (newDevice sha256 key label entry.sequence)
      revoked := revoked.erase id }

/-- Applies one entry to a membership, enforcing authority as of that entry. -/
def apply (membership : Membership P) (entry : Entry) (recovery : VerifyingIdentity P)
    (previous : Hash) : Except IdentityError (Membership P) := do
  match entry.event.label with
  | some label => failIf ((utf8 label).length > maxLabelBytes) IdentityError.labelTooLong
  | none => pure ()
  let signed := signedBytes previous entry.sequence entry.event entry.signer
  failIf (linkFor sha256 signed entry.signature ≠ entry.link) (.brokenLink entry.sequence)
  failIf (entry.signature.length ≠ signatureLength) (.badSignature entry.sequence)
  let author ← authorOf sha256 membership entry recovery
  mapErr (fun _ => .badSignature entry.sequence)
    (author.verify entryContext signed entry.signature)
  update sha256 membership entry

/-! ## Replay -/

/-- The body of the replay loop: the state is the membership and the link of the entry before. -/
def replayStep (recovery : VerifyingIdentity P) (state : Membership P × Hash)
    (indexed : Entry × ℕ) : Except IdentityError (Membership P × Hash) := do
  let (entry, index) := indexed
  let expected := UInt64.ofNat index
  failIf (entry.sequence ≠ expected) (.outOfOrder expected entry.sequence)
  let membership ← apply sha256 state.1 entry recovery state.2
  pure (membership, entry.link)

/-- The replay loop, from the empty membership. -/
def replayLoop (recovery : VerifyingIdentity P) (entries : List Entry) :
    Except IdentityError (Membership P × Hash) :=
  entries.zipIdx.foldlM (replayStep sha256 recovery) ({}, zeroLink)

def replay (entries : List Entry) (recovery : VerifyingIdentity P) :
    Except IdentityError (Membership P) :=
  match entries with
  | [] => .error .empty
  | first :: _ => do
    failIf (entries.length > maxEntries) (.tooManyEntries entries.length)
    match first.event with
    | .create _ _ => pure ()
    | _ => Except.error (.badRoot "another event")
    let state ← replayLoop sha256 recovery entries
    pure state.1

end

/-! ## The log and its local operations -/

/-- The identity itself: an append-only log, and the key permitted to sign `recover`. -/
structure IdentityLog (P : Primitives) where
  entries : List Entry
  recovery : VerifyingIdentity P

namespace IdentityLog
variable (sha256 : Bytes → Hash) {P : Primitives}

/-- Starts an identity. The founding device signs its own creation. -/
def create (founder : SigningIdentity) (label : String) (recovery : VerifyingIdentity P) :
    Except IdentityError (IdentityLog P) := do
  checkLabel label
  let key := founder.verifyingKey P
  let event := Event.create key.toBytes.toList label
  let signer := deviceId sha256 key
  let signed := signedBytes zeroLink 0 event signer
  let signature := (founder.sign P entryContext signed).toList
  pure {
    entries := [{ sequence := 0, link := linkFor sha256 signed signature, event, signer,
                  signature }]
    recovery }

/-- The head link, which identifies this exact history. -/
def head (self : IdentityLog P) : Hash := (self.entries.getLast?).elim zeroLink Entry.link

/-- Entry 0's link, the identity's stable name. -/
def root (self : IdentityLog P) : Hash := (self.entries.head?).elim zeroLink Entry.link

/-- The devices trusted now: `replay(..).unwrap_or_default()`. -/
def membership (self : IdentityLog P) : Membership P :=
  match replay sha256 self.entries self.recovery with
  | .ok membership => membership
  | .error _ => {}

/-- Appends an event, after validating it exactly as a stranger would. -/
def append (self : IdentityLog P) (author : SigningIdentity) (event : Event) :
    Except IdentityError (IdentityLog P × Sequence) := do
  failIf (self.entries.length ≥ maxEntries) (.tooManyEntries self.entries.length)
  match event.label with
  | some label => checkLabel label
  | none => pure ()
  let sequence := UInt64.ofNat self.entries.length
  let previous := self.head
  let signer := deviceId sha256 (author.verifyingKey P)
  let signed := signedBytes previous sequence event signer
  let signature := (author.sign P entryContext signed).toList
  let candidate : Entry :=
    { sequence, link := linkFor sha256 signed signature, event, signer, signature }
  let _ ← apply sha256 (self.membership sha256) candidate self.recovery previous
  pure ({ self with entries := self.entries ++ [candidate] }, sequence)

def enrol (self : IdentityLog P) (author : SigningIdentity) (device : VerifyingIdentity P)
    (label : String) : Except IdentityError (IdentityLog P × Sequence) :=
  self.append sha256 author (.enrol device.toBytes.toList label)

def revoke (self : IdentityLog P) (author : SigningIdentity) (device : DeviceId) :
    Except IdentityError (IdentityLog P × Sequence) :=
  self.append sha256 author (.revoke device)

def recover (self : IdentityLog P) (recoveryKey : SigningIdentity)
    (device : VerifyingIdentity P) (label : String) :
    Except IdentityError (IdentityLog P × Sequence) :=
  self.append sha256 recoveryKey (.recover device.toBytes.toList label)

/-- Rebuilds a log from entries received elsewhere, verified first. -/
def fromEntries (entries : List Entry) (recovery : VerifyingIdentity P) :
    Except IdentityError (IdentityLog P) := do
  let _ ← replay sha256 entries recovery
  pure { entries, recovery }

/-- What a verifier runs on a log received from elsewhere. -/
def verify (entries : List Entry) (recovery : VerifyingIdentity P) :
    Except IdentityError (Membership P) :=
  replay sha256 entries recovery

end IdentityLog

end HideProtocol.Identity
