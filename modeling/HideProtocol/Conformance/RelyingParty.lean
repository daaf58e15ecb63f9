import HideProtocol.Conformance.Subsystems
import HideProtocol.Lib.Chunks

/-!
# The independent checks of a relying party

The rest of `subsystems.mjs`: epoch chains, the two proofs of the transparency log, the two
bindings, and the byte forms of proofs and leaves. Buffers are byte strings of any length, and
integers are unbounded, as they are in JavaScript.

What bounds a loop there is an assertion, and a failed assertion is an error like any other.
-/

namespace HideProtocol.Conformance.Subsystems

open Lib

/-- What these checks throw: an error of the readers they use, a failed assertion, or a `Rejection`
with a reason of their own. -/
inductive Refusal where
  | thrown (error : Thrown)
  | assertion
  | wrongKeyLength (index : ℕ)
  | brokenHash (index : ℕ)
  | proofTooLong
  | outOfRange
  | notAPrefix
  | badProof (detail : String)
  | wrongIdentity
  | staleBinding
  | badBinding
deriving DecidableEq, Repr

/-- A `Rejection` with one of the reasons that the readers have too. -/
def Refusal.code (code : Code) : Refusal := .thrown (reject code)

def Refusal.codeAt (code : Code) (position : ℕ) : Refusal := .thrown (rejectAt code position)

/-! ## Epoch chains -/

def chainInfo : Bytes := utf8 "HIDE/0.6 epoch chain"
def epochPublicKeyLen : ℕ := 1216
def maxChainEntries : ℕ := 1000000

structure EpochRecord where
  number : ℕ
  publicKey : Bytes
  link : Bytes
deriving DecidableEq

def encodeEpoch (record : EpochRecord) : Bytes :=
  cborArray 3 ++ (cborUint record.number ++ (cborBytes record.publicKey ++ cborBytes record.link))

def encodeEpochs (records : List EpochRecord) : Bytes :=
  cborArray records.length ++ records.flatMap encodeEpoch

/-- One turn of the decoding loop. -/
def decodeEpoch : Parser Thrown EpochRecord := do
  let fields ← StrictReader.array
  Parser.lift (failIf (fields ≠ 3) (reject .malformed))
  let number ← StrictReader.uint
  let publicKey ← StrictReader.bytestring
  let link ← StrictReader.bytestring
  Parser.lift (failIf (link.length ≠ 32) (reject .malformed))
  pure { number, publicKey, link }

/-- The records, up to the end of the input. -/
def decodeHistory : Parser Thrown (List EpochRecord) := do
  let count ← StrictReader.array
  Parser.lift (failIf (count > maxChainEntries) (reject .tooManyEntries))
  Parser.times decodeEpoch count

def decodeEpochs (bytes : Bytes) : Except Thrown (List EpochRecord) := do
  let (records, rest) ← decodeHistory bytes
  failIf (rest ≠ []) (reject .malformed)
  failIf (encodeEpochs records ≠ bytes) (reject .malformed)
  pure records

section
variable (sha256 : Bytes → Hash)

def epochLink (previous : Bytes) (number : ℕ) (publicKey : Bytes) : Bytes :=
  (sha256 (chainInfo ++ previous ++ u64be number ++ u64be publicKey.length ++ publicKey)).toList

/-- The body of the loop: the state is the link of the record before. -/
def verifyEpoch (previous : Bytes) (indexed : EpochRecord × ℕ) : Except Refusal Bytes := do
  let (record, index) := indexed
  failIf (record.number ≠ index) (.codeAt .brokenLink index)
  failIf (record.publicKey.length ≠ epochPublicKeyLen) (.wrongKeyLength index)
  failIf (epochLink sha256 previous record.number record.publicKey ≠ record.link)
    (.brokenHash index)
  pure record.link

/-- Returns the head of the chain. -/
def verifyEpochs (records : List EpochRecord) : Except Refusal Bytes := do
  failIf (records.length > maxChainEntries) (.code .tooManyEntries)
  records.zipIdx.foldlM (verifyEpoch sha256) zero32

/-! ## Transparency -/

def nodeHash (left right : Bytes) : Bytes := (sha256 (0x01 :: (left ++ right))).toList

end

def maxProofLen : ℕ := 64

/-- The largest power of two strictly below `n`, from the length of `(n - 1).toString(2)`. -/
def largestPowerOfTwoBelow (n : ℕ) : Except Refusal ℕ := do
  failIf (¬(n > 1 ∧ n ≤ u64Max)) .assertion
  pure (1 <<< ((Nat.toDigits 2 (n - 1)).length - 1))

/-- The descent to `index`. At most 64 turns are taken, which the source asserts: `left` of them
are left. -/
def inclusionTurns (left index size : ℕ) : Except Refusal (List Bool) :=
  if size > 1 then
    match left with
    | 0 => .error .assertion
    | left + 1 => do
      let split ← largestPowerOfTwoBelow size
      if index < split then do
        let turns ← inclusionTurns left index split
        pure (true :: turns)
      else do
        let turns ← inclusionTurns left (index - split) (size - split)
        pure (false :: turns)
  else pure []

/-- The descent to where the old log ends, and whether the old log is a complete subtree. -/
def consistencyTurns (left oldSize newSize : ℕ) (complete : Bool) :
    Except Refusal (List Bool × Bool) :=
  if oldSize ≠ newSize then
    match left with
    | 0 => .error .assertion
    | left + 1 => do
      let split ← largestPowerOfTwoBelow newSize
      if oldSize ≤ split then do
        let (turns, complete) ← consistencyTurns left oldSize split complete
        pure (true :: turns, complete)
      else do
        let (turns, complete) ← consistencyTurns left (oldSize - split) (newSize - split) false
        pure (false :: turns, complete)
  else pure ([], complete)

section
variable (sha256 : Bytes → Hash)

def inclusionStep (hash : Bytes) (step : Bool × Bytes) : Bytes :=
  if step.1 then nodeHash sha256 hash step.2 else nodeHash sha256 step.2 hash

/-- `verifyInclusion({ index, size, path }, leaf, root)`. -/
def verifyInclusion (index size : ℕ) (path : List Bytes) (leaf root : Bytes) :
    Except Refusal Unit := do
  failIf (path.length > maxProofLen) .proofTooLong
  failIf (index ≥ size) .outOfRange
  let turns ← inclusionTurns 64 index size
  failIf (turns.length ≠ path.length) (.badProof "path length")
  let hash := (turns.reverse.zip path).foldl (inclusionStep sha256) leaf
  failIf (hash ≠ root) (.badProof "root mismatch")

def consistencyStep (hashes : Bytes × Bytes) (step : Bool × Bytes) : Bytes × Bytes :=
  if step.1 then (hashes.1, nodeHash sha256 hashes.2 step.2)
  else (nodeHash sha256 step.2 hashes.1, nodeHash sha256 step.2 hashes.2)

/-- `verifyConsistency({ oldSize, newSize, path }, oldRoot, newRoot)`. -/
def verifyConsistency (oldSize newSize : ℕ) (path : List Bytes) (oldRoot newRoot : Bytes) :
    Except Refusal Unit := do
  failIf (path.length > maxProofLen) .proofTooLong
  failIf (oldSize = 0 ∨ oldSize > newSize) .notAPrefix
  if oldSize = newSize then
    failIf (¬(path.length = 0 ∧ oldRoot = newRoot)) (.badProof "equal sizes")
  else do
    let (turns, complete) ← consistencyTurns 64 oldSize newSize true
    failIf (path.length ≠ turns.length + (if complete then 0 else 1)) (.badProof "path length")
    -- the path is long enough for the seed, and the rest has one hash for each turn
    let seed := if complete then oldRoot else path.headD []
    let siblings := if complete then path else path.tail
    let hashes := (turns.reverse.zip siblings).foldl (consistencyStep sha256) (seed, seed)
    failIf (hashes.1 ≠ oldRoot) (.badProof "old root mismatch")
    failIf (hashes.2 ≠ newRoot) (.badProof "new root mismatch")

end

/-- A path laid out as one byte string. -/
def hashes (bytes : Bytes) : Except Refusal (List Bytes) := do
  failIf (bytes.length % 32 ≠ 0) .assertion
  pure (chunksExact 32 bytes)

/-- The two numbers and the path of a proof with the given tag. -/
def decodeProof (tag : UInt8) (bytes : Bytes) : Except Refusal (ℕ × ℕ × List Bytes) := do
  failIf (bytes.length < 18 ∨ bytes[0]? ≠ some tag) (.code .malformed)
  let count := (bytes.getD 17 0).toNat
  failIf (count > maxProofLen) .proofTooLong
  failIf (bytes.length ≠ 18 + 32 * count) (.code .malformed)
  let path ← hashes (bytes.drop 18)
  pure (ofBe ((bytes.drop 1).take 8), ofBe ((bytes.drop 9).take 8), path)

/-! ## Bindings -/

def recoveryBindingContext : Bytes := utf8 "HIDE/1.0 recovery binding"
def epochBindingContext : Bytes := utf8 "HIDE/1.0 epoch binding"
def recoveryBindingLen : ℕ := 32 + verifyingKeyLen + signatureLen
def epochBindingLen : ℕ := 32 * 3 + 8 + 32 + signatureLen

section
variable (sha256 : Bytes → Hash) (S : Sign.Primitives)

/-- Returns the recovery key that the binding names and what the log replays to under it. -/
def verifyRecoveryBinding (bytes : Bytes) (entries : List Entry) (pinnedRoot : Bytes) :
    Except Refusal (Bytes × Replayed) := do
  failIf (bytes.length ≠ recoveryBindingLen) (.code .malformed)
  let root := bytes.take 32
  let recoveryKey := (bytes.drop 32).take verifyingKeyLen
  let signature := bytes.drop (32 + verifyingKeyLen)
  failIf (root ≠ pinnedRoot) .wrongIdentity
  let first ← okOr entries.head? .wrongIdentity
  failIf (first.link ≠ root) .wrongIdentity
  failIf (first.tag ≠ 1) (.code .badRoot)
  let verified ← mapErr .thrown
    (verifyHybrid S first.payload recoveryBindingContext (root ++ recoveryKey) signature)
  failIf (!verified) .badBinding
  let replayed ← mapErr .thrown (replayIdentity sha256 S entries recoveryKey)
  pure (recoveryKey, replayed)

/-- `identity` is what `entries` replayed to. -/
def verifyEpochBinding (bytes : Bytes) (identity : Replayed) (entries : List Entry)
    (records : List EpochRecord) : Except Refusal Unit := do
  failIf (bytes.length ≠ epochBindingLen) (.code .malformed)
  let root := bytes.take 32
  let head := (bytes.drop 32).take 32
  let chainHead := (bytes.drop 64).take 32
  let epochs := ofBe ((bytes.drop 96).take 8)
  let signer := (bytes.drop 104).take 32
  let first ← okOr entries.head? (.thrown (.error "TypeError"))
  failIf (root ≠ first.link) .wrongIdentity
  failIf (!entries.any fun entry => entry.link == head) .staleBinding
  let computedHead ← verifyEpochs sha256 records
  failIf (records.length ≠ epochs ∨ records.length = 0 ∨ computedHead ≠ chainHead) .staleBinding
  let device ← okOr identity.devices[signer]? (.code .unauthorised)
  let verified ← mapErr .thrown
    (verifyHybrid S device.key epochBindingContext (bytes.take 136) (bytes.drop 136))
  failIf (!verified) .badBinding

end

end HideProtocol.Conformance.Subsystems
