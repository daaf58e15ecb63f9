import HideProtocol.Conformance.RelyingParty
import HideProtocol.Lib.Run
import HideProtocol.Transparency.InclusionTheorems
import HideProtocol.Transparency.ProofCodec

/-!
# Two verifiers of transparency proofs

The independent verifiers compute the split of a tree from a binary numeral and stop their loops by
an assertion. On sizes of 64 bits the split is the same and the assertion never fails, so that both
sides take the same turns, hash the same values and refuse for the same reason.
-/

namespace HideProtocol.Conformance.Subsystems

open Lib Transparency

/-- An error of the Rust side and a refusal of the independent one that have the same reason. Only
the latter says what is wrong with a proof that is bad. -/
def SameReason : LogError → Refusal → Prop
  | .outOfRange _ _, .outOfRange => True
  | .notAPrefix _ _, .notAPrefix => True
  | .badProof, .badProof _ => True
  | .proofTooLong _, .proofTooLong => True
  | .malformed, refusal => refusal = .code .malformed
  | _, _ => False

/-! ## The split -/

/-- A binary numeral has one digit more than the logarithm. -/
theorem length_toDigits_two {n : ℕ} (h : 0 < n) : (Nat.toDigits 2 n).length = Nat.log2 n + 1 := by
  have hne : n ≠ 0 := by omega
  apply Nat.le_antisymm
  · rw [Nat.length_toDigits_le_iff (by omega) (by omega)]
    exact Nat.lt_log2_self
  · by_contra hshort
    by_cases hlog : Nat.log2 n = 0
    · have hpos : 0 < (Nat.toDigits 2 n).length := Nat.length_toDigits_pos
      omega
    · have hle : (Nat.toDigits 2 n).length ≤ Nat.log2 n := by omega
      rw [Nat.length_toDigits_le_iff (by omega) (by omega)] at hle
      have hself := Nat.log2_self_le hne
      omega

theorem largestPowerOfTwoBelow_splits {n : ℕ} (h : 1 < n) (hmax : n ≤ u64Max) :
    largestPowerOfTwoBelow n = .ok (Merkle.splitPoint n) := by
  unfold largestPowerOfTwoBelow
  rw [failIf_neg _ (not_not.mpr ⟨h, hmax⟩), ok_bind, length_toDigits_two (by omega),
    Nat.add_sub_cancel, ← Transparency.largestPowerOfTwoBelow_eq]
  rfl

/-! ## The turns -/

/-- Enough turns are left for a size that is a power of two at most. -/
theorem inclusionTurns_agree {left index size : ℕ} (hleft : size ≤ 2 ^ left)
    (hmax : size ≤ u64Max) :
    inclusionTurns left index size = .ok (Transparency.inclusionTurns index size) := by
  induction left generalizing index size with
  | zero =>
    have hone : size ≤ 1 := by simpa using hleft
    rw [inclusionTurns, if_neg (by omega), Transparency.inclusionTurns_leaf hone]
    rfl
  | succ left ih =>
    rw [inclusionTurns]
    by_cases htwo : 2 ≤ size
    · have hsplit := Merkle.splitPoint_le_pow htwo hleft
      have hhalf := @Merkle.le_two_mul_splitPoint size
      have hlt := Merkle.splitPoint_lt htwo
      rw [if_pos (by omega), largestPowerOfTwoBelow_splits (by omega) hmax, ok_bind]
      by_cases hindex : index < Merkle.splitPoint size
      · rw [if_pos hindex, ih hsplit (by omega), Transparency.inclusionTurns_left htwo hindex]
        rfl
      · rw [if_neg hindex, ih (by omega) (by omega),
          Transparency.inclusionTurns_right htwo (by omega)]
        rfl
    · rw [if_neg (by omega), Transparency.inclusionTurns_leaf (by omega)]
      rfl

theorem consistencyTurns_agree {left old new : ℕ} {complete : Bool} (hleft : new ≤ 2 ^ left)
    (hmax : new ≤ u64Max) (hpos : 1 ≤ old) (hle : old ≤ new) :
    consistencyTurns left old new complete =
      .ok (Transparency.consistencyTurns old new complete) := by
  induction left generalizing old new complete with
  | zero =>
    have hone : new ≤ 1 := by simpa using hleft
    obtain rfl : old = new := by omega
    rw [consistencyTurns, if_neg (not_not.mpr rfl), Transparency.consistencyTurns_refl]
    rfl
  | succ left ih =>
    rw [consistencyTurns]
    by_cases hsame : old = new
    · rw [if_neg (not_not.mpr hsame), hsame, Transparency.consistencyTurns_refl]
      rfl
    · have htwo : 2 ≤ new := by omega
      have hsplit := Merkle.splitPoint_le_pow htwo hleft
      have hhalf := @Merkle.le_two_mul_splitPoint new
      have hlt := Merkle.splitPoint_lt htwo
      rw [if_pos hsame, largestPowerOfTwoBelow_splits (by omega) hmax, ok_bind]
      by_cases hold : old ≤ Merkle.splitPoint new
      · rw [if_pos hold, ih hsplit (by omega) hpos hold,
          Transparency.consistencyTurns_of_le (by omega) hpos hold]
        rfl
      · rw [if_neg hold, ih (by omega) (by omega) (by omega) (by omega),
          Transparency.consistencyTurns_of_gt (by omega) hpos (by omega)]
        rfl

/-! ## The climb -/

section Climb
variable {sha256 : Bytes → Hash}

theorem inclusionStep_eq (hash sibling : Hash) (turn : Bool) :
    inclusionStep sha256 hash.toList (turn, sibling.toList) =
      (Transparency.inclusionStep sha256 hash (sibling, turn)).toList := by
  cases turn <;> rfl

theorem inclusionClimb_eq (turns : List Bool) (path : List Hash) (leaf : Hash) :
    (turns.zip (path.map Vector.toList)).foldl (inclusionStep sha256) leaf.toList =
      ((path.zip turns).foldl (Transparency.inclusionStep sha256) leaf).toList := by
  induction turns generalizing path leaf with
  | nil => simp
  | cons turn turns ih =>
    cases path with
    | nil => rfl
    | cons sibling path =>
      rw [List.map_cons, List.zip_cons_cons, List.zip_cons_cons, List.foldl_cons, List.foldl_cons,
        inclusionStep_eq, ih]

theorem consistencyStep_eq (hashes : Hash × Hash) (sibling : Hash) (turn : Bool) :
    consistencyStep sha256 (hashes.1.toList, hashes.2.toList) (turn, sibling.toList) =
      ((Transparency.consistencyStep sha256 hashes (sibling, turn)).1.toList,
        (Transparency.consistencyStep sha256 hashes (sibling, turn)).2.toList) := by
  cases turn <;> rfl

theorem consistencyClimb_eq (turns : List Bool) (path : List Hash) (hashes : Hash × Hash) :
    (turns.zip (path.map Vector.toList)).foldl (consistencyStep sha256)
        (hashes.1.toList, hashes.2.toList) =
      (((path.zip turns).foldl (Transparency.consistencyStep sha256) hashes).1.toList,
        ((path.zip turns).foldl (Transparency.consistencyStep sha256) hashes).2.toList) := by
  induction turns generalizing path hashes with
  | nil => simp
  | cons turn turns ih =>
    cases path with
    | nil => rfl
    | cons sibling path =>
      rw [List.map_cons, List.zip_cons_cons, List.zip_cons_cons, List.foldl_cons, List.foldl_cons,
        consistencyStep_eq, ih]

/-! ## The verifiers -/

theorem toNat_le_u64Max (n : UInt64) : n.toNat ≤ u64Max := by
  have hlt := n.toNat_lt
  have hmax : u64Max = 2 ^ 64 - 1 := rfl
  omega

theorem verifyInclusion_alike (proof : InclusionProof) (leaf root : Hash) :
    Alike (fun _ _ => True) SameReason (Transparency.verifyInclusion sha256 proof leaf root)
      (verifyInclusion sha256 proof.index.toNat proof.size.toNat (proof.path.map Vector.toList)
        leaf.toList root.toList) := by
  unfold Transparency.verifyInclusion verifyInclusion
  apply Alike.check (by rw [List.length_map]; exact Iff.rfl) trivial
  intro _
  apply Alike.check UInt64.le_iff_toNat_le trivial
  intro _
  rw [inclusionTurns_agree proof.size.toNat_lt.le (toNat_le_u64Max _), ok_bind]
  apply Alike.check (by rw [List.length_map]) trivial
  intro _
  refine Alike.lastCheck ?_ trivial
  rw [inclusionClimb_eq, ne_eq, ne_eq, Vector.toList_inj]

/-- Where the climb starts: a path of the right length has what the seed takes off it. -/
theorem consistencySeed_eq {complete : Bool} {path : List Hash} {turns : ℕ} (oldRoot : Hash)
    (hlen : path.length = turns + (!complete).toNat) :
    ∃ seed rest, consistencySeed complete path oldRoot = .ok (seed, rest) ∧
      (if complete then oldRoot.toList else (path.map Vector.toList).headD []) = seed.toList ∧
      (if complete then path.map Vector.toList else (path.map Vector.toList).tail) =
        rest.map Vector.toList := by
  cases complete with
  | true => exact ⟨oldRoot, path, rfl, rfl, rfl⟩
  | false =>
    cases path with
    | nil => simp at hlen
    | cons seed rest => exact ⟨seed, rest, rfl, rfl, rfl⟩

theorem verifyConsistency_alike (proof : ConsistencyProof) (oldRoot newRoot : Hash) :
    Alike (fun _ _ => True) SameReason
      (Transparency.verifyConsistency sha256 proof oldRoot newRoot)
      (verifyConsistency sha256 proof.oldSize.toNat proof.newSize.toNat
        (proof.path.map Vector.toList) oldRoot.toList newRoot.toList) := by
  unfold Transparency.verifyConsistency verifyConsistency
  apply Alike.check (by rw [List.length_map]; exact Iff.rfl) trivial
  intro _
  have hzero : proof.oldSize = 0 ↔ proof.oldSize.toNat = 0 := by
    rw [← UInt64.toNat_inj]
    rfl
  apply Alike.check (or_congr hzero UInt64.lt_iff_toNat_lt) trivial
  intro hordered
  rw [not_or, hzero, UInt64.lt_iff_toNat_lt] at hordered
  by_cases hsame : proof.oldSize = proof.newSize
  · rw [if_pos hsame, if_pos (congrArg UInt64.toNat hsame)]
    refine Alike.lastCheck ?_ trivial
    rw [List.length_map, List.length_eq_zero_iff, Vector.toList_inj]
  · rw [if_neg hsame, if_neg (mt UInt64.toNat_inj.mp hsame),
      consistencyTurns_agree proof.newSize.toNat_lt.le (toNat_le_u64Max _) (by omega) (by omega),
      ok_bind]
    obtain ⟨turns, complete⟩ :=
      Transparency.consistencyTurns proof.oldSize.toNat proof.newSize.toNat true
    have hcount : (!complete).toNat = if complete then 0 else 1 := by
      cases complete <;> rfl
    apply Alike.check (by rw [List.length_map, hcount]) trivial
    intro hlen
    obtain ⟨seed, rest, hstart, hseed, hrest⟩ := consistencySeed_eq oldRoot (not_not.mp hlen)
    rw [hstart, ok_bind]
    simp only [hseed, hrest]
    rw [consistencyClimb_eq turns.reverse rest (seed, seed)]
    -- one side refuses a wrong pair of roots, the other one root after the other
    generalize (rest.zip turns.reverse).foldl (Transparency.consistencyStep sha256) (seed, seed) =
      found
    simp only [ne_eq, Vector.toList_inj]
    by_cases hold : found.1 = oldRoot
    · rw [failIf_neg (Refusal.badProof "old root mismatch") (not_not.mpr hold), ok_bind]
      refine Alike.lastCheck ?_ trivial
      rw [or_iff_right (not_not.mpr hold)]
    · rw [failIf_pos _ (Or.inl hold), failIf_pos _ hold]
      trivial

end Climb

/-! ## Proofs as bytes -/

theorem decodeProof_alike (tag : UInt8) (bytes : Bytes) :
    Alike (fun found seen => seen = (found.1.toNat, found.2.1.toNat, found.2.2.map Vector.toList))
      SameReason (Transparency.decodeProof tag bytes) (decodeProof tag bytes) := by
  have hmalformed : SameReason .malformed (.code .malformed) := rfl
  unfold Transparency.decodeProof decodeProof
  apply Alike.check Iff.rfl hmalformed
  intro _
  apply Alike.check Iff.rfl trivial
  intro _
  apply Alike.check Iff.rfl hmalformed
  intro hlen
  have hrest : (bytes.drop 18).length = 32 * (bytes.getD 17 0).toNat := by
    rw [List.length_drop, not_not.mp hlen]
    exact Nat.add_sub_cancel_left 18 _
  obtain ⟨path, -, hpath⟩ := exists_vectors hrest
  have hchunks : chunksExact 32 (bytes.drop 18) = path.map Vector.toList := by
    rw [← hpath]
    exact chunksExact_flatMap (by omega) fun _ => Vector.length_toList
  -- eight bytes are a number of 64 bits
  have hfield : ∀ n : ℕ,
      (UInt64.ofNat (ofBe ((bytes.drop n).take 8))).toNat = ofBe ((bytes.drop n).take 8) := by
    intro n
    apply UInt64.toNat_ofNat_of_lt'
    have hlt := ofBe_lt ((bytes.drop n).take 8)
    have hpow : 256 ^ ((bytes.drop n).take 8).length ≤ 256 ^ 8 :=
      Nat.pow_le_pow_right (by omega) (List.length_take_le _ _)
    exact hlt.trans_le hpow
  unfold hashes
  rw [failIf_neg _ (by omega), ok_bind, show proofHeader = 18 from rfl, hchunks, mapM_tryInto,
    ok_bind]
  exact Prod.ext (hfield 1).symm (Prod.ext (hfield 9).symm rfl)

/-- **The two checks of an inclusion proof agree.** For every byte string, leaf and root, decoding
the bytes as an inclusion proof and checking it gives the same verdict on both sides, and a refusal
has the same reason. -/
theorem inclusion_readers_agree (sha256 : Bytes → Hash) (bytes : Bytes) (leaf root : Hash) :
    Alike (fun _ _ => True) SameReason
      (do
        let proof ← InclusionProof.decode bytes
        Transparency.verifyInclusion sha256 proof leaf root)
      (do
        let (index, size, path) ← decodeProof 0x01 bytes
        verifyInclusion sha256 index size path leaf.toList root.toList) := by
  unfold InclusionProof.decode
  rw [bind_assoc]
  apply (decodeProof_alike inclusionTag bytes).bind
  intro found seen hseen
  obtain ⟨index, size, path⟩ := found
  rw [hseen]
  exact verifyInclusion_alike ⟨index, size, path⟩ leaf root

/-- **The two checks of a consistency proof agree.** -/
theorem consistency_readers_agree (sha256 : Bytes → Hash) (bytes : Bytes)
    (oldRoot newRoot : Hash) :
    Alike (fun _ _ => True) SameReason
      (do
        let proof ← ConsistencyProof.decode bytes
        Transparency.verifyConsistency sha256 proof oldRoot newRoot)
      (do
        let (oldSize, newSize, path) ← decodeProof 0x02 bytes
        verifyConsistency sha256 oldSize newSize path oldRoot.toList newRoot.toList) := by
  unfold ConsistencyProof.decode
  rw [bind_assoc]
  apply (decodeProof_alike consistencyTag bytes).bind
  intro found seen hseen
  obtain ⟨oldSize, newSize, path⟩ := found
  rw [hseen]
  exact verifyConsistency_alike ⟨oldSize, newSize, path⟩ oldRoot newRoot

end HideProtocol.Conformance.Subsystems
