import HideProtocol.Transparency.InclusionTheorems

/-!
# The log's own proofs are accepted

Prover and verifier are two walks over one tree. The prover holds the leaves and pushes a
sibling each time it returns from a half; the verifier holds two numbers, records its turns on
the way down and climbs with the turns reversed. `collectInclusion_climbs` and
`collectConsistency_climbs` follow both walks at once: at every level the prover's last hash
is the sibling of the verifier's first turn.

The depth of the walk is bounded by the bits of the size, so no log that fits in memory ever
answers with a proof longer than the verifier reads.
-/

namespace HideProtocol.Transparency

open Lib

variable {sha256 : Bytes → Hash}

/-! ## Depth -/

theorem length_inclusionTurns_le {d index size : ℕ} (h : size ≤ 2 ^ d) :
    (inclusionTurns index size).length ≤ d := by
  induction d generalizing index size with
  | zero =>
    rw [inclusionTurns_leaf (by simpa using h)]
    exact le_rfl
  | succ d ih =>
    by_cases h2 : 2 ≤ size
    · have hhalf := Merkle.splitPoint_le_pow h2 h
      have htwo := @Merkle.le_two_mul_splitPoint size
      by_cases hturn : index < Merkle.splitPoint size
      · rw [inclusionTurns_left h2 hturn, List.length_cons]
        exact Nat.succ_le_succ (ih hhalf)
      · rw [inclusionTurns_right h2 (by omega), List.length_cons]
        exact Nat.succ_le_succ (ih (by omega))
    · rw [inclusionTurns_leaf (by omega)]
      exact Nat.zero_le _

theorem length_consistencyTurns_le {d old new : ℕ} {complete : Bool} (hpos : 1 ≤ old)
    (hle : old ≤ new) (h : new ≤ 2 ^ d) : (consistencyTurns old new complete).1.length ≤ d := by
  induction d generalizing old new complete with
  | zero =>
    have hone : old = new := by
      simp only [pow_zero] at h
      omega
    rw [hone, consistencyTurns_self]
    exact le_rfl
  | succ d ih =>
    by_cases heq : old = new
    · rw [heq, consistencyTurns_self]
      exact Nat.zero_le _
    · have hlt : old < new := by omega
      have hhalf := Merkle.splitPoint_le_pow (by omega) h
      have htwo := @Merkle.le_two_mul_splitPoint new
      by_cases hturn : old ≤ Merkle.splitPoint new
      · rw [consistencyTurns_left hlt hpos hturn, List.length_cons]
        exact Nat.succ_le_succ (ih hpos hturn hhalf)
      · rw [consistencyTurns_right hlt hpos (by omega), List.length_cons]
        exact Nat.succ_le_succ (ih (by omega) (by omega) (by omega))

/-! ## Inclusion -/

section Inclusion
variable {leaves : List Hash} {index : ℕ}

theorem collectInclusion_leaf (h : leaves.length ≤ 1) :
    collectInclusion sha256 leaves index = [] := by
  rw [collectInclusion, dif_pos h]

theorem collectInclusion_left (h2 : 2 ≤ leaves.length)
    (hlt : index < Merkle.splitPoint leaves.length) :
    collectInclusion sha256 leaves index =
      collectInclusion sha256 (leaves.take (Merkle.splitPoint leaves.length)) index ++
        [rootOf sha256 (leaves.drop (Merkle.splitPoint leaves.length))] := by
  rw [collectInclusion, dif_neg (by omega), largestPowerOfTwoBelow_eq, if_pos hlt]

theorem collectInclusion_right (h2 : 2 ≤ leaves.length)
    (hle : Merkle.splitPoint leaves.length ≤ index) :
    collectInclusion sha256 leaves index =
      collectInclusion sha256 (leaves.drop (Merkle.splitPoint leaves.length))
          (index - Merkle.splitPoint leaves.length) ++
        [rootOf sha256 (leaves.take (Merkle.splitPoint leaves.length))] := by
  rw [collectInclusion, dif_neg (by omega), largestPowerOfTwoBelow_eq, if_neg (by omega)]

end Inclusion

theorem rootOf_split {leaves : List Hash} (h2 : 2 ≤ leaves.length) :
    rootOf sha256 leaves =
      nodeHash sha256 (rootOf sha256 (leaves.take (Merkle.splitPoint leaves.length)))
        (rootOf sha256 (leaves.drop (Merkle.splitPoint leaves.length))) :=
  Merkle.root_split _ _ h2

/-- A path one longer, against a descent one deeper: the climb below, then the top level. -/
theorem zip_snoc_reverse_cons {path : List Hash} {sibling : Hash} {turn : Bool}
    {turns : List Bool} (hlen : path.length = turns.length) :
    (path ++ [sibling]).zip (turn :: turns).reverse =
      path.zip turns.reverse ++ [(sibling, turn)] := by
  rw [List.reverse_cons, List.zip_append (by rw [hlen, List.length_reverse])]
  rfl

/-- The prover's path has the length of the verifier's descent, and climbing it from the leaf
at `index` ends in the root. -/
theorem collectInclusion_climbs {leaves : List Hash} {leaf : Hash} {index : ℕ}
    (hleaf : leaves[index]? = some leaf) :
    (collectInclusion sha256 leaves index).length =
        (inclusionTurns index leaves.length).length ∧
      ((collectInclusion sha256 leaves index).zip
        (inclusionTurns index leaves.length).reverse).foldl (inclusionStep sha256) leaf =
        rootOf sha256 leaves := by
  induction hn : leaves.length using Nat.strongRecOn generalizing leaves index with
  | ind n ih =>
    subst hn
    have ⟨hindex, hget⟩ := List.getElem?_eq_some_iff.mp hleaf
    by_cases h2 : 2 ≤ leaves.length
    · have hsplit := Merkle.splitPoint_lt h2
      have hsplitPos := Merkle.splitPoint_pos leaves.length
      by_cases hturn : index < Merkle.splitPoint leaves.length
      · have hhalf : (leaves.take (Merkle.splitPoint leaves.length)).length =
            Merkle.splitPoint leaves.length := by
          rw [List.length_take]
          omega
        have hbelow : (leaves.take (Merkle.splitPoint leaves.length))[index]? = some leaf := by
          rw [List.getElem?_take_of_lt hturn, hleaf]
        have ⟨hlen, hclimb⟩ := ih _ hsplit hbelow hhalf
        rw [collectInclusion_left h2 hturn, inclusionTurns_left h2 hturn]
        constructor
        · rw [List.length_append, hlen]
          rfl
        · rw [zip_snoc_reverse_cons hlen, List.foldl_append, hclimb, rootOf_split h2]
          rfl
      · have hle : Merkle.splitPoint leaves.length ≤ index := by omega
        have hhalf : (leaves.drop (Merkle.splitPoint leaves.length)).length =
            leaves.length - Merkle.splitPoint leaves.length := List.length_drop
        have hbelow : (leaves.drop (Merkle.splitPoint leaves.length))[
            index - Merkle.splitPoint leaves.length]? = some leaf := by
          rw [List.getElem?_drop, Nat.add_sub_cancel' hle, hleaf]
        have ⟨hlen, hclimb⟩ := ih _ (by omega) hbelow hhalf
        rw [collectInclusion_right h2 hle, inclusionTurns_right h2 hle]
        constructor
        · rw [List.length_append, hlen]
          rfl
        · rw [zip_snoc_reverse_cons hlen, List.foldl_append, hclimb, rootOf_split h2]
          rfl
    · -- a single leaf is its own root
      rw [collectInclusion_leaf (by omega), inclusionTurns_leaf (by omega)]
      refine ⟨rfl, ?_⟩
      have hone : leaves = [leaf] := by
        match leaves, hindex, h2 with
        | [x], hindex, _ =>
          have hzero : index = 0 := by
            simp only [List.length_singleton] at hindex
            omega
          subst hzero
          simpa using hget
        | _ :: _ :: _, _, h2 => exact absurd (by simp) h2
      rw [hone, rootOf, Merkle.root_singleton]
      rfl

/-! ## Consistency -/

theorem consistencyTurns_false (old new : ℕ) : (consistencyTurns old new false).2 = false := by
  induction new using Nat.strongRecOn generalizing old with
  | ind new ih =>
    by_cases hdone : old = new ∨ new ≤ 1
    · rw [consistencyTurns, dif_pos hdone]
    · have hlt := @Merkle.splitPoint_lt new (by omega)
      have hpos := Merkle.splitPoint_pos new
      rw [consistencyTurns, dif_neg hdone, largestPowerOfTwoBelow_eq]
      by_cases hturn : old ≤ Merkle.splitPoint new
      · rw [if_pos hturn]
        exact ih _ hlt old
      · rw [if_neg hturn]
        exact ih _ (by omega) _

section Consistency
variable {leaves : List Hash} {old : ℕ} {complete : Bool}

theorem collectConsistency_self :
    collectConsistency sha256 leaves leaves.length complete =
      if complete then [] else [rootOf sha256 leaves] := by
  rw [collectConsistency, dif_pos (Or.inl rfl)]

theorem collectConsistency_left (hlt : old < leaves.length) (hpos : 1 ≤ old)
    (hle : old ≤ Merkle.splitPoint leaves.length) :
    collectConsistency sha256 leaves old complete =
      collectConsistency sha256 (leaves.take (Merkle.splitPoint leaves.length)) old complete ++
        [rootOf sha256 (leaves.drop (Merkle.splitPoint leaves.length))] := by
  rw [collectConsistency, dif_neg (by omega), largestPowerOfTwoBelow_eq, if_pos hle]

theorem collectConsistency_right (hlt : old < leaves.length) (hpos : 1 ≤ old)
    (hgt : Merkle.splitPoint leaves.length < old) :
    collectConsistency sha256 leaves old complete =
      collectConsistency sha256 (leaves.drop (Merkle.splitPoint leaves.length))
          (old - Merkle.splitPoint leaves.length) false ++
        [rootOf sha256 (leaves.take (Merkle.splitPoint leaves.length))] := by
  rw [collectConsistency, dif_neg (by omega), largestPowerOfTwoBelow_eq, if_neg (by omega)]

theorem consistencyTurns_left_complete (hlt : old < leaves.length) (hpos : 1 ≤ old)
    (hle : old ≤ Merkle.splitPoint leaves.length) :
    (consistencyTurns old leaves.length complete).2 =
      (consistencyTurns old (Merkle.splitPoint leaves.length) complete).2 := by
  rw [consistencyTurns_of_le hlt hpos hle]

theorem consistencyTurns_right_complete (hlt : old < leaves.length) (hpos : 1 ≤ old)
    (hgt : Merkle.splitPoint leaves.length < old) :
    (consistencyTurns old leaves.length complete).2 = false := by
  rw [consistencyTurns_of_gt hlt hpos hgt]
  exact consistencyTurns_false _ _

/-- A prefix that reaches past the split has the whole left half, and its own right half is a
prefix of the right half. -/
theorem rootOf_take_right (hlt : old ≤ leaves.length)
    (hgt : Merkle.splitPoint leaves.length < old) :
    rootOf sha256 (leaves.take old) =
      nodeHash sha256 (rootOf sha256 (leaves.take (Merkle.splitPoint leaves.length)))
        (rootOf sha256 ((leaves.drop (Merkle.splitPoint leaves.length)).take
          (old - Merkle.splitPoint leaves.length))) := by
  have hlen : (leaves.take old).length = old := by
    rw [List.length_take]
    omega
  have hpos := Merkle.splitPoint_pos leaves.length
  rw [rootOf_split (by omega), hlen, Merkle.splitPoint_between hgt hlt, List.take_take,
    min_eq_left hgt.le, List.drop_take]

end Consistency

/-- The prover's path is the seed, where the verifier expects one, and then a sibling for each
turn; climbing the siblings from the seed ends in the root of the old log and that of the new
one. Where no seed is sent, it is the old root itself. -/
theorem collectConsistency_climbs {leaves : List Hash} {old : ℕ} {complete : Bool}
    (hpos : 1 ≤ old) (hle : old ≤ leaves.length) :
    ∃ (seed : Hash) (siblings : List Hash),
      collectConsistency sha256 leaves old complete =
        (if (consistencyTurns old leaves.length complete).2 then [] else [seed]) ++ siblings ∧
      siblings.length = (consistencyTurns old leaves.length complete).1.length ∧
      ((consistencyTurns old leaves.length complete).2 = true →
        seed = rootOf sha256 (leaves.take old)) ∧
      (siblings.zip (consistencyTurns old leaves.length complete).1.reverse).foldl
        (consistencyStep sha256) (seed, seed) =
        (rootOf sha256 (leaves.take old), rootOf sha256 leaves) := by
  induction hn : leaves.length using Nat.strongRecOn generalizing leaves old complete with
  | ind n ih =>
    subst hn
    by_cases heq : old = leaves.length
    · -- the old log is the subtree: its root is the seed of both
      subst heq
      have hturns := consistencyTurns_refl leaves.length complete
      refine ⟨rootOf sha256 leaves, [], ?_, ?_, ?_, ?_⟩
      · rw [collectConsistency_self, hturns, List.append_nil]
      · rw [hturns]
        rfl
      · intro _
        rw [List.take_length]
      · rw [hturns, List.take_length]
        rfl
    · have hlt : old < leaves.length := by omega
      have h2 : 2 ≤ leaves.length := by omega
      have hsplit := Merkle.splitPoint_lt h2
      have hsplitPos := Merkle.splitPoint_pos leaves.length
      by_cases hturn : old ≤ Merkle.splitPoint leaves.length
      · have hhalf : (leaves.take (Merkle.splitPoint leaves.length)).length =
            Merkle.splitPoint leaves.length := by
          rw [List.length_take]
          omega
        have hold : (leaves.take (Merkle.splitPoint leaves.length)).take old =
            leaves.take old := by
          rw [List.take_take, min_eq_left hturn]
        obtain ⟨seed, siblings, hpath, hlen, hseed, hclimb⟩ :=
          @ih _ hsplit (leaves.take (Merkle.splitPoint leaves.length)) old complete hpos
            (by omega) hhalf
        rw [hold] at hseed hclimb
        rw [consistencyTurns_left_complete hlt hpos hturn, consistencyTurns_left hlt hpos hturn,
          collectConsistency_left hlt hpos hturn, hpath]
        refine ⟨seed, siblings ++ [rootOf sha256 (leaves.drop (Merkle.splitPoint leaves.length))],
          ?_, ?_, hseed, ?_⟩
        · rw [List.append_assoc]
        · rw [List.length_append, hlen]
          rfl
        · rw [zip_snoc_reverse_cons hlen, List.foldl_append, hclimb, rootOf_split h2]
          rfl
      · have hgt : Merkle.splitPoint leaves.length < old := by omega
        have hhalf : (leaves.drop (Merkle.splitPoint leaves.length)).length =
            leaves.length - Merkle.splitPoint leaves.length := List.length_drop
        obtain ⟨seed, siblings, hpath, hlen, -, hclimb⟩ :=
          @ih _ (by omega) (leaves.drop (Merkle.splitPoint leaves.length))
            (old - Merkle.splitPoint leaves.length) false (by omega) (by omega) hhalf
        rw [consistencyTurns_false] at hpath
        rw [consistencyTurns_right_complete hlt hpos hgt, consistencyTurns_right hlt hpos hgt,
          collectConsistency_right hlt hpos hgt, hpath]
        refine ⟨seed, siblings ++ [rootOf sha256 (leaves.take (Merkle.splitPoint leaves.length))],
          ?_, ?_, ?_, ?_⟩
        · rw [List.append_assoc]
        · rw [List.length_append, hlen]
          rfl
        · intro hfalse
          exact absurd hfalse (by decide)
        · rw [zip_snoc_reverse_cons hlen, List.foldl_append, hclimb, rootOf_split h2,
            rootOf_take_right hle hgt]
          rfl

/-! ## The proofs the log returns -/

namespace TransparencyLog
variable {log : TransparencyLog}

theorem rootAt_of_le {size : UInt64} (h : size.toNat ≤ log.leaves.length) :
    log.rootAt sha256 size = .ok (rootOf sha256 (log.leaves.take size.toNat)) := by
  unfold rootAt
  rw [failIf_neg _ (by omega)]
  rfl

theorem proveInclusion_of_lt {index size : UInt64} (hlt : index < size)
    (hle : size.toNat ≤ log.leaves.length) :
    log.proveInclusion sha256 index size = .ok
      { index, size,
        path := collectInclusion sha256 (log.leaves.take size.toNat) index.toNat } := by
  unfold proveInclusion
  rw [failIf_neg]
  · rfl
  · rintro (h | h)
    · omega
    · exact absurd hlt (UInt64.not_lt.mpr h)

theorem proveConsistency_of_le {oldSize newSize : UInt64} (hpos : 0 < oldSize)
    (hle : oldSize ≤ newSize) (hlen : newSize.toNat ≤ log.leaves.length) :
    log.proveConsistency sha256 oldSize newSize = .ok
      { oldSize, newSize,
        path := collectConsistency sha256 (log.leaves.take newSize.toNat) oldSize.toNat true } := by
  unfold proveConsistency
  rw [failIf_neg _ (by omega), ok_bind, failIf_neg]
  · rfl
  · rintro (h | h)
    · exact absurd hle (UInt64.not_le.mpr h)
    · exact absurd h (UInt64.ne_of_lt hpos).symm

/-- The path to `index`, as the log sends it, is one the verifier accepts. -/
theorem verifyInclusion_path {index size : UInt64} {leaf : Hash} {d : ℕ}
    (hleaf : log.leaves[index.toNat]? = some leaf) (hlt : index < size)
    (hle : size.toNat ≤ log.leaves.length) (hd : size.toNat ≤ 2 ^ d) (hmax : d ≤ maxProofLen) :
    verifyInclusion sha256
      { index, size, path := collectInclusion sha256 (log.leaves.take size.toNat) index.toNat }
      leaf (rootOf sha256 (log.leaves.take size.toNat)) = .ok () := by
  have hindex : index.toNat < size.toNat := UInt64.lt_iff_toNat_lt.mp hlt
  have hlen : (log.leaves.take size.toNat).length = size.toNat := by
    rw [List.length_take]
    omega
  have hbelow : (log.leaves.take size.toNat)[index.toNat]? = some leaf := by
    rw [List.getElem?_take_of_lt hindex, hleaf]
  have ⟨hpath, hclimb⟩ := @collectInclusion_climbs sha256 _ _ _ hbelow
  rw [hlen] at hpath hclimb
  have hdepth := @length_inclusionTurns_le d index.toNat size.toNat hd
  rw [verifyInclusion_eq_ok]
  refine ⟨?_, hlt, hpath, hclimb⟩
  show (collectInclusion sha256 (log.leaves.take size.toNat) index.toNat).length ≤ maxProofLen
  omega

/-- The path between two sizes, as the log sends it, is one the verifier accepts. -/
theorem verifyConsistency_path {oldSize newSize : UInt64} {d : ℕ} (hpos : 0 < oldSize)
    (hle : oldSize ≤ newSize) (hlen : newSize.toNat ≤ log.leaves.length)
    (hd : newSize.toNat ≤ 2 ^ d) (hmax : d + 1 ≤ maxProofLen) :
    (collectConsistency sha256 (log.leaves.take newSize.toNat) oldSize.toNat true).length ≤
        maxProofLen ∧
      verifyConsistency sha256
        { oldSize, newSize,
          path := collectConsistency sha256 (log.leaves.take newSize.toNat) oldSize.toNat true }
        (rootOf sha256 (log.leaves.take oldSize.toNat))
        (rootOf sha256 (log.leaves.take newSize.toNat)) = .ok () := by
  have hpos' : 1 ≤ oldSize.toNat := UInt64.lt_iff_toNat_lt.mp hpos
  have hle' : oldSize.toNat ≤ newSize.toNat := UInt64.le_iff_toNat_le.mp hle
  have hnewLen : (log.leaves.take newSize.toNat).length = newSize.toNat := by
    rw [List.length_take]
    omega
  have holdTake : (log.leaves.take newSize.toNat).take oldSize.toNat =
      log.leaves.take oldSize.toNat := by
    rw [List.take_take, min_eq_left hle']
  have hdepth := @length_consistencyTurns_le d oldSize.toNat newSize.toNat true hpos' hle' hd
  obtain ⟨seed, siblings, hpath, hsiblings, hseed, hclimb⟩ :=
    @collectConsistency_climbs sha256 (log.leaves.take newSize.toNat) oldSize.toNat true hpos'
      (by omega)
  rw [hnewLen] at hpath hsiblings hseed hclimb
  rw [holdTake] at hseed hclimb
  rw [hpath]
  -- the seed is sent exactly when the verifier's expected length counts it
  have hlength : ((if (consistencyTurns oldSize.toNat newSize.toNat true).2 = true then []
      else [seed]) ++ siblings).length =
        (consistencyTurns oldSize.toNat newSize.toNat true).1.length +
          (!(consistencyTurns oldSize.toNat newSize.toNat true).2).toNat := by
    rw [List.length_append, hsiblings, Nat.add_comm]
    cases (consistencyTurns oldSize.toNat newSize.toNat true).2 <;> rfl
  have hbound : (!(consistencyTurns oldSize.toNat newSize.toNat true).2).toNat ≤ 1 :=
    Bool.toNat_le _
  refine ⟨by omega, ?_⟩
  unfold verifyConsistency
  rw [failIf_neg _ (by simp only; omega), ok_bind, failIf_neg, ok_bind]
  · by_cases heq : oldSize = newSize
    · -- nothing grew: the path is empty and the two roots are one
      rw [if_pos heq, failIf_neg]
      rw [heq] at hsiblings ⊢
      have hturns := consistencyTurns_refl newSize.toNat true
      rw [hturns] at hsiblings ⊢
      rw [not_not]
      exact ⟨List.length_eq_zero_iff.mp hsiblings, rfl⟩
    · rw [if_neg heq]
      simp only []
      rw [failIf_neg _ (by rw [not_not]; exact hlength), ok_bind]
      have hstart : consistencySeed (consistencyTurns oldSize.toNat newSize.toNat true).2
          ((if (consistencyTurns oldSize.toNat newSize.toNat true).2 = true then []
            else [seed]) ++ siblings) (rootOf sha256 (log.leaves.take oldSize.toNat)) =
          .ok (seed, siblings) := by
        by_cases hcomplete : (consistencyTurns oldSize.toNat newSize.toNat true).2 = true
        · rw [if_pos hcomplete, hcomplete, hseed hcomplete]
          rfl
        · rw [if_neg hcomplete, Bool.eq_false_of_not_eq_true hcomplete]
          rfl
      rw [hstart, ok_bind, hclimb, failIf_neg]
      simp
  · rintro (h | h)
    · exact absurd h (UInt64.ne_of_lt hpos).symm
    · exact absurd hle (UInt64.not_le.mpr h)

/-- **The log's proofs are complete.** A log of fewer than `2 ^ 58` leaves, which is what an
allocation can hold, answers every question about its own past with a proof of at most 64
hashes that the verifier accepts against its own roots. -/
theorem proofs_accepted (sha256 : Bytes → Hash) (log : TransparencyLog)
    (hsize : log.leaves.length < 2 ^ 58) :
    (∀ index size : UInt64, index < size → size.toNat ≤ log.leaves.length →
      ∃ (proof : InclusionProof) (leaf root : Hash),
        log.proveInclusion sha256 index size = .ok proof ∧
        proof.index = index ∧ proof.size = size ∧ proof.path.length ≤ 64 ∧
        log.leaves[index.toNat]? = some leaf ∧ log.rootAt sha256 size = .ok root ∧
        verifyInclusion sha256 proof leaf root = .ok ()) ∧
    (∀ oldSize newSize : UInt64, 0 < oldSize → oldSize ≤ newSize →
      newSize.toNat ≤ log.leaves.length →
      ∃ (proof : ConsistencyProof) (oldRoot newRoot : Hash),
        log.proveConsistency sha256 oldSize newSize = .ok proof ∧
        proof.oldSize = oldSize ∧ proof.newSize = newSize ∧ proof.path.length ≤ 64 ∧
        log.rootAt sha256 oldSize = .ok oldRoot ∧ log.rootAt sha256 newSize = .ok newRoot ∧
        verifyConsistency sha256 proof oldRoot newRoot = .ok ()) := by
  constructor
  · intro index size hlt hle
    have hindex : index.toNat < log.leaves.length := by
      have := UInt64.lt_iff_toNat_lt.mp hlt
      omega
    have hleaf := List.getElem?_eq_getElem hindex
    have hverify := @verifyInclusion_path sha256 log index size _ 58 hleaf hlt hle (by omega)
      (by decide)
    exact ⟨_, _, _, proveInclusion_of_lt hlt hle, rfl, rfl, (verifyInclusion_eq_ok.mp hverify).1,
      hleaf, rootAt_of_le hle, hverify⟩
  · intro oldSize newSize hpos hle hlen
    have hle' : oldSize.toNat ≤ newSize.toNat := UInt64.le_iff_toNat_le.mp hle
    have ⟨hmax, hverify⟩ := @verifyConsistency_path sha256 log oldSize newSize 58 hpos hle hlen
      (by omega) (by decide)
    exact ⟨_, _, _, proveConsistency_of_le hpos hle hlen, rfl, rfl, hmax,
      rootAt_of_le (by omega), rootAt_of_le hlen, hverify⟩

/-- The theorem at a log of three entries: the last of them, and the growth from one to three. -/
theorem proofs_accepted_three :
    let sha : Bytes → Hash := fun bytes => Vector.replicate 32 (UInt8.ofNat bytes.length)
    let log : TransparencyLog := { leaves := [leafHash sha [], leafHash sha [1], leafHash sha [2]] }
    (∃ (proof : InclusionProof) (leaf root : Hash),
      log.proveInclusion sha 2 3 = .ok proof ∧ log.leaves[2]? = some leaf ∧
      log.rootAt sha 3 = .ok root ∧ verifyInclusion sha proof leaf root = .ok ()) ∧
    (∃ (proof : ConsistencyProof) (oldRoot newRoot : Hash),
      log.proveConsistency sha 1 3 = .ok proof ∧ log.rootAt sha 1 = .ok oldRoot ∧
      log.rootAt sha 3 = .ok newRoot ∧ verifyConsistency sha proof oldRoot newRoot = .ok ()) := by
  intro sha log
  have ⟨hinclusion, hconsistency⟩ := proofs_accepted sha log (by simp [log])
  constructor
  · obtain ⟨proof, leaf, root, hproof, -, -, -, hleaf, hroot, hverify⟩ :=
      hinclusion 2 3 (by decide) (by simp [log])
    exact ⟨proof, leaf, root, hproof, hleaf, hroot, hverify⟩
  · obtain ⟨proof, oldRoot, newRoot, hproof, -, -, -, hold, hnew, hverify⟩ :=
      hconsistency 1 3 (by decide) (by decide) (by simp [log])
    exact ⟨proof, oldRoot, newRoot, hproof, hold, hnew, hverify⟩

end TransparencyLog

end HideProtocol.Transparency
