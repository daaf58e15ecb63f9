import HideProtocol.Lib.Merkle
import HideProtocol.Lib.Parser

/-!
# The transparency log: tree, proofs and verifiers

The append-only log of leaf hashes, its roots, and the two proofs it answers: inclusion of
an entry, and consistency of two sizes. Prover and verifier are separate code, as in the
source: the prover recurses over the leaves and pushes siblings on the way back up; the
verifier has only the sizes, records on the way down which side it took, and consumes the
path deepest first.

SHA-256 is a parameter, an arbitrary function from byte strings to 32 bytes.
-/

namespace HideProtocol.Transparency

open Lib

/-- `[u8; 32]`. -/
abbrev Hash := Vector UInt8 32

def leafPrefix : UInt8 := 0x00
def nodePrefix : UInt8 := 0x01

/-- Longer proofs are refused before anything is allocated for them. -/
def maxProofLen : ℕ := 64

inductive LogError where
  | empty
  | outOfRange (index size : UInt64)
  | notAPrefix (old new : UInt64)
  | badProof
  | proofTooLong (length : ℕ)
  | malformed
  | unsigned
  | badSignature
  | wrongOrigin (found : String)
deriving DecidableEq, Repr

/-- The text of an error, piece by piece; `debug` quotes a string. -/
def LogError.pieces (debug : String → String) : LogError → List String
  | empty => ["the log is empty"]
  | outOfRange index size => ["entry ", toString index, " is not in a log of size ", toString size]
  | notAPrefix old new =>
    ["a log of size ", toString old, " cannot be a prefix of one of size ", toString new]
  | badProof => ["the proof does not verify"]
  | proofTooLong length => ["a proof of ", toString length, " hashes exceeds the limit"]
  | malformed => ["the encoding is malformed"]
  | unsigned => ["the checkpoint is not signed by the expected log key"]
  | badSignature => ["a signature from the expected log key does not verify"]
  | wrongOrigin found => ["the checkpoint names origin ", debug found, ", not the expected one"]

def LogError.display (debug : String → String) (error : LogError) : String :=
  String.join (error.pieces debug)

/-- Proof that one entry is in the log at a given size. -/
structure InclusionProof where
  index : UInt64
  size : UInt64
  path : List Hash
deriving DecidableEq

/-- Proof that a smaller log is a prefix of a larger one. -/
structure ConsistencyProof where
  oldSize : UInt64
  newSize : UInt64
  path : List Hash
deriving DecidableEq

/-- The split of RFC 6962: `1 << (n - 1).ilog2()`. -/
def largestPowerOfTwoBelow (n : ℕ) : ℕ := 1 <<< Nat.log2 (n - 1)

theorem largestPowerOfTwoBelow_eq (n : ℕ) : largestPowerOfTwoBelow n = Merkle.splitPoint n := by
  rw [largestPowerOfTwoBelow, Merkle.splitPoint, Nat.log2_eq_log_two, Nat.shiftLeft_eq, one_mul]

section
variable (sha256 : Bytes → Hash)

/-! ## Hashing -/

def leafHash (data : Bytes) : Hash := sha256 (leafPrefix :: data)

def nodeHash (left right : Hash) : Hash := sha256 (nodePrefix :: (left.toList ++ right.toList))

/-- The root of a subtree covering `leaves`: the hash of nothing, the leaf itself, or the
parent of the two halves. -/
def rootOf (leaves : List Hash) : Hash := Merkle.root (nodeHash sha256) (sha256 []) leaves

/-! ## The log -/

/-- Holds leaf hashes only: the entries are the caller's. -/
structure TransparencyLog where
  leaves : List Hash := []
deriving DecidableEq

namespace TransparencyLog

/-- Appends an entry, returning its index. -/
def append (log : TransparencyLog) (data : Bytes) : TransparencyLog × ℕ :=
  ({ leaves := log.leaves ++ [leafHash sha256 data] }, log.leaves.length)

def root (log : TransparencyLog) : Hash := rootOf sha256 log.leaves

/-- The root the log had when it held `size` entries. -/
def rootAt (log : TransparencyLog) (size : UInt64) : Except LogError Hash := do
  failIf (size.toNat > log.leaves.length) (.outOfRange size (UInt64.ofNat log.leaves.length))
  pure (rootOf sha256 (log.leaves.take size.toNat))

end TransparencyLog

/-- The siblings of the path to `index`, deepest first. -/
def collectInclusion (leaves : List Hash) (index : ℕ) : List Hash :=
  if _h : leaves.length ≤ 1 then []
  else
    let split := largestPowerOfTwoBelow leaves.length
    if index < split then
      collectInclusion (leaves.take split) index ++ [rootOf sha256 (leaves.drop split)]
    else
      collectInclusion (leaves.drop split) (index - split) ++ [rootOf sha256 (leaves.take split)]
termination_by leaves.length
decreasing_by
  all_goals
    rw [largestPowerOfTwoBelow_eq]
    have hlt := @Merkle.splitPoint_lt leaves.length (by omega)
    have hpos := Merkle.splitPoint_pos leaves.length
    simp only [List.length_take, List.length_drop]
    omega

/-- RFC 6962 §2.1.2. `complete` tracks whether the old tree is exactly the subtree being
considered, which decides whether its root must be sent. -/
def collectConsistency (leaves : List Hash) (old : ℕ) (complete : Bool) : List Hash :=
  if _h : old = leaves.length ∨ leaves.length ≤ 1 then
    if complete then [] else [rootOf sha256 leaves]
  else
    let split := largestPowerOfTwoBelow leaves.length
    if old ≤ split then
      collectConsistency (leaves.take split) old complete ++ [rootOf sha256 (leaves.drop split)]
    else
      collectConsistency (leaves.drop split) (old - split) false ++
        [rootOf sha256 (leaves.take split)]
termination_by leaves.length
decreasing_by
  all_goals
    rw [largestPowerOfTwoBelow_eq]
    have hlt := @Merkle.splitPoint_lt leaves.length (by omega)
    have hpos := Merkle.splitPoint_pos leaves.length
    simp only [List.length_take, List.length_drop]
    omega

namespace TransparencyLog

/-- An audit path for `index` in the log as it stands at `size`. -/
def proveInclusion (log : TransparencyLog) (index size : UInt64) :
    Except LogError InclusionProof := do
  failIf (size.toNat > log.leaves.length ∨ index ≥ size) (.outOfRange index size)
  pure { index, size, path := collectInclusion sha256 (log.leaves.take size.toNat) index.toNat }

/-- A proof that the log of `oldSize` is a prefix of the log of `newSize`. -/
def proveConsistency (log : TransparencyLog) (oldSize newSize : UInt64) :
    Except LogError ConsistencyProof := do
  failIf (newSize.toNat > log.leaves.length)
    (.outOfRange newSize (UInt64.ofNat log.leaves.length))
  failIf (oldSize > newSize ∨ oldSize = 0) (.notAPrefix oldSize newSize)
  pure { oldSize, newSize,
         path := collectConsistency sha256 (log.leaves.take newSize.toNat) oldSize.toNat true }

end TransparencyLog

/-! ## The verifiers -/

/-- The descent to `index`, recording for each level whether it went left. -/
def inclusionTurns (index size : ℕ) : List Bool :=
  if _h : size > 1 then
    let split := largestPowerOfTwoBelow size
    if index < split then true :: inclusionTurns index split
    else false :: inclusionTurns (index - split) (size - split)
  else []
termination_by size
decreasing_by
  all_goals
    rw [largestPowerOfTwoBelow_eq]
    have hlt := @Merkle.splitPoint_lt size (by omega)
    have hpos := Merkle.splitPoint_pos size
    omega

/-- One level up from a leaf: its sibling is on the other side of the recorded turn. -/
def inclusionStep (hash : Hash) (step : Hash × Bool) : Hash :=
  if step.2 then nodeHash sha256 hash step.1 else nodeHash sha256 step.1 hash

/-- Checks an audit path against a root. -/
def verifyInclusion (proof : InclusionProof) (leaf root : Hash) : Except LogError Unit := do
  failIf (proof.path.length > maxProofLen) (.proofTooLong proof.path.length)
  failIf (proof.index ≥ proof.size) (.outOfRange proof.index proof.size)
  let turns := inclusionTurns proof.index.toNat proof.size.toNat
  failIf (turns.length ≠ proof.path.length) .badProof
  let hash := (proof.path.zip turns.reverse).foldl (inclusionStep sha256) leaf
  failIf (hash ≠ root) .badProof

/-- The descent to the subtree that ends where the old log ends: the turns taken, and whether
the old log is a complete subtree of the new one. The sizes differ only while
`newSize > 1`, since `1 ≤ oldSize ≤ newSize` is kept. -/
def consistencyTurns (oldSize newSize : ℕ) (complete : Bool) : List Bool × Bool :=
  if _h : oldSize = newSize ∨ newSize ≤ 1 then ([], complete)
  else
    let split := largestPowerOfTwoBelow newSize
    if oldSize ≤ split then
      let (turns, complete) := consistencyTurns oldSize split complete
      (true :: turns, complete)
    else
      let (turns, complete) := consistencyTurns (oldSize - split) (newSize - split) false
      (false :: turns, complete)
termination_by newSize
decreasing_by
  all_goals
    rw [largestPowerOfTwoBelow_eq]
    have hlt := @Merkle.splitPoint_lt newSize (by omega)
    have hpos := Merkle.splitPoint_pos newSize
    omega

/-- One level up from the common subtree, for the old and the new root at once. A left turn
means the sibling lies past the end of the old log. -/
def consistencyStep (hashes : Hash × Hash) (step : Hash × Bool) : Hash × Hash :=
  if step.2 then (hashes.1, nodeHash sha256 hashes.2 step.1)
  else (nodeHash sha256 step.1 hashes.1, nodeHash sha256 step.1 hashes.2)

/-- Where the climb starts and the path it consumes: a complete old log is its own seed, and
otherwise the first hash of the path is. -/
def consistencySeed (complete : Bool) (path : List Hash) (oldRoot : Hash) :
    Except LogError (Hash × List Hash) :=
  if complete then .ok (oldRoot, path)
  else
    match path with
    | [] => .error .badProof
    | seed :: path => .ok (seed, path)

/-- Checks that `oldRoot` is the root the log had before it grew to `newRoot`. -/
def verifyConsistency (proof : ConsistencyProof) (oldRoot newRoot : Hash) :
    Except LogError Unit := do
  failIf (proof.path.length > maxProofLen) (.proofTooLong proof.path.length)
  failIf (proof.oldSize = 0 ∨ proof.oldSize > proof.newSize)
    (.notAPrefix proof.oldSize proof.newSize)
  if proof.oldSize = proof.newSize then
    failIf (¬(proof.path = [] ∧ oldRoot = newRoot)) .badProof
  else
    let descent := consistencyTurns proof.oldSize.toNat proof.newSize.toNat true
    failIf (proof.path.length ≠ descent.1.length + (!descent.2).toNat) .badProof
    let start ← consistencySeed descent.2 proof.path oldRoot
    let hashes := (start.2.zip descent.1.reverse).foldl (consistencyStep sha256) (start.1, start.1)
    failIf (hashes.1 ≠ oldRoot ∨ hashes.2 ≠ newRoot) .badProof

end

end HideProtocol.Transparency
