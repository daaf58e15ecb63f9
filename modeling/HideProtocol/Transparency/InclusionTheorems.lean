import HideProtocol.Transparency.TreeTheorems

/-!
# Soundness of inclusion proofs

An audit path says which hashes lie beside the way from a leaf to the root; the verifier
knows the way from the index and the size alone. As for consistency, the last hash of the
path is the sibling at the top of the tree, and peeling it off leaves the same statement about
the half the descent went into.

The theorem is about any path for any index: a proof the verifier accepts is for the leaf that
really stands there, or two different child pairs among those hashed have one parent.
-/

namespace HideProtocol.Transparency

open Lib

variable {sha256 : Bytes → Hash}

/-! ## What the verifier hashes -/

/-- The child pair one level of the climb hashes. -/
def inclusionPair (hash : Hash) (step : Hash × Bool) : Hash × Hash :=
  if step.2 then (hash, step.1) else (step.1, hash)

theorem inclusionStep_eq_node (hash : Hash) (step : Hash × Bool) :
    inclusionStep sha256 hash step =
      nodeHash sha256 (inclusionPair hash step).1 (inclusionPair hash step).2 := by
  unfold inclusionStep inclusionPair
  split <;> rfl

variable (sha256) in
/-- The child pairs the whole climb hashes. -/
def auditPairs (hash : Hash) : List (Hash × Bool) → List (Hash × Hash)
  | [] => []
  | step :: steps => inclusionPair hash step :: auditPairs (inclusionStep sha256 hash step) steps

theorem auditPairs_append (hash : Hash) (steps more : List (Hash × Bool)) :
    auditPairs sha256 hash (steps ++ more) =
      auditPairs sha256 hash steps ++
        auditPairs sha256 (steps.foldl (inclusionStep sha256) hash) more := by
  induction steps generalizing hash with
  | nil => rfl
  | cons step steps ih =>
    rw [List.cons_append, auditPairs, auditPairs, ih, List.cons_append, List.foldl_cons]

variable (sha256) in
/-- Every child pair hashed for the root of `leaves` and by `verifyInclusion`. -/
def inclusionPairs (proof : InclusionProof) (leaf : Hash) (leaves : List Hash) :
    List (Hash × Hash) :=
  Merkle.nodes (nodeHash sha256) (sha256 []) leaves ++
    auditPairs sha256 leaf
      (proof.path.zip (inclusionTurns proof.index.toNat proof.size.toNat).reverse)

/-! ## The descent -/

theorem inclusionTurns_leaf {index size : ℕ} (h : size ≤ 1) : inclusionTurns index size = [] := by
  rw [inclusionTurns, dif_neg (by omega)]

theorem inclusionTurns_left {index size : ℕ} (h2 : 2 ≤ size)
    (hlt : index < Merkle.splitPoint size) :
    inclusionTurns index size = true :: inclusionTurns index (Merkle.splitPoint size) := by
  rw [inclusionTurns, dif_pos (by omega), largestPowerOfTwoBelow_eq, if_pos hlt]

theorem inclusionTurns_right {index size : ℕ} (h2 : 2 ≤ size)
    (hle : Merkle.splitPoint size ≤ index) :
    inclusionTurns index size = false ::
      inclusionTurns (index - Merkle.splitPoint size) (size - Merkle.splitPoint size) := by
  rw [inclusionTurns, dif_pos (by omega), largestPowerOfTwoBelow_eq, if_neg (by omega)]

/-! ## The climb -/

/-- The top level undone: the pair hashed there is the pair of roots of the two halves. -/
theorem audit_top {leaves : List Hash} {hash sibling : Hash} {turn : Bool}
    {pairs : List (Hash × Hash)} (h2 : 2 ≤ leaves.length)
    (hstep : inclusionStep sha256 hash (sibling, turn) = rootOf sha256 leaves)
    (hnodes : Merkle.nodes (nodeHash sha256) (sha256 []) leaves ⊆ pairs)
    (hpair : inclusionPair hash (sibling, turn) ∈ pairs) :
    inclusionPair hash (sibling, turn) =
        (rootOf sha256 (leaves.take (Merkle.splitPoint leaves.length)),
          rootOf sha256 (leaves.drop (Merkle.splitPoint leaves.length))) ∨
      Merkle.Collision (nodeHash sha256) pairs := by
  rw [inclusionStep_eq_node] at hstep
  unfold rootOf at hstep ⊢
  rw [Merkle.root_split _ _ h2] at hstep
  rw [Merkle.nodes_split _ _ h2] at hnodes
  rcases Merkle.node_inj_or_collision hpair (hnodes List.mem_cons_self) hstep with ⟨hl, hr⟩ | hc
  · left
    exact Prod.ext hl hr
  · right
    exact hc

/-- A climb of the right length from `leaf` to the root of `leaves`: `leaf` stands at `index`,
or two of the pairs in `pairs`, which holds every pair hashed, collide. -/
theorem audit_sound {leaves path : List Hash} {leaf : Hash} {index : ℕ}
    {pairs : List (Hash × Hash)} (hindex : index < leaves.length)
    (hlen : path.length = (inclusionTurns index leaves.length).length)
    (hclimb : (path.zip (inclusionTurns index leaves.length).reverse).foldl
      (inclusionStep sha256) leaf = rootOf sha256 leaves)
    (hnodes : Merkle.nodes (nodeHash sha256) (sha256 []) leaves ⊆ pairs)
    (hpairs : auditPairs sha256 leaf
      (path.zip (inclusionTurns index leaves.length).reverse) ⊆ pairs) :
    leaves[index]? = some leaf ∨ Merkle.Collision (nodeHash sha256) pairs := by
  -- on the number of leaves: each turn goes into a strictly smaller half
  induction hn : leaves.length using Nat.strongRecOn generalizing leaves path index with
  | ind n ih =>
    subst hn
    by_cases h2 : 2 ≤ leaves.length
    · have hsplit := Merkle.splitPoint_lt h2
      have hsplitPos := Merkle.splitPoint_pos leaves.length
      have hsub := Merkle.nodes_split (nodeHash sha256) (sha256 []) h2
      by_cases hturn : index < Merkle.splitPoint leaves.length
      · rw [inclusionTurns_left h2 hturn] at hlen hclimb hpairs
        obtain ⟨init, sibling, rfl, hinit, hzip⟩ := zip_reverse_cons hlen
        rw [hzip, List.foldl_append, List.foldl_cons, List.foldl_nil] at hclimb
        rw [hzip, auditPairs_append] at hpairs
        have ⟨hbelow, htop⟩ := List.append_subset.mp hpairs
        rcases audit_top h2 hclimb hnodes (htop List.mem_cons_self) with h | hc
        · have hleft := (Prod.mk.injEq .. ▸ h).1
          have hhalf : (leaves.take (Merkle.splitPoint leaves.length)).length =
              Merkle.splitPoint leaves.length := by
            rw [List.length_take]
            omega
          have hrec := @ih _ hsplit (leaves.take (Merkle.splitPoint leaves.length)) init index
            (by omega) (by rw [hhalf, hinit]) (by rw [hhalf]; exact hleft)
            (fun p hp => hnodes (by simp [hsub, hp])) (by rw [hhalf]; exact hbelow) hhalf
          rw [List.getElem?_take_of_lt hturn] at hrec
          exact hrec
        · right
          exact hc
      · rw [inclusionTurns_right h2 (by omega)] at hlen hclimb hpairs
        obtain ⟨init, sibling, rfl, hinit, hzip⟩ := zip_reverse_cons hlen
        rw [hzip, List.foldl_append, List.foldl_cons, List.foldl_nil] at hclimb
        rw [hzip, auditPairs_append] at hpairs
        have ⟨hbelow, htop⟩ := List.append_subset.mp hpairs
        rcases audit_top h2 hclimb hnodes (htop List.mem_cons_self) with h | hc
        · have hright := (Prod.mk.injEq .. ▸ h).2
          set k := Merkle.splitPoint leaves.length
          have hhalf : (leaves.drop k).length = leaves.length - k := List.length_drop
          have hrec := @ih (leaves.length - k) (by omega) (leaves.drop k) init (index - k)
            (by omega) (by rw [hhalf, hinit]) (by rw [hhalf]; exact hright)
            (fun p hp => hnodes (by simp [hsub, hp])) (by rw [hhalf]; exact hbelow) hhalf
          rw [List.getElem?_drop, Nat.add_sub_cancel' (by omega)] at hrec
          exact hrec
        · right
          exact hc
    · -- a single leaf is its own root
      left
      rw [inclusionTurns_leaf (by omega)] at hclimb
      simp only [List.reverse_nil, List.zip_nil_right, List.foldl_nil] at hclimb
      match leaves, hindex, h2 with
      | [x], hindex, _ =>
        rw [rootOf, Merkle.root_singleton] at hclimb
        have hzero : index = 0 := by
          simp only [List.length_singleton] at hindex
          omega
        rw [hzero, hclimb]
        rfl
      | _ :: _ :: _, _, h2 => exact absurd (by simp) h2

/-! ## The verifier -/

/-- What an accepted audit path has passed. -/
theorem verifyInclusion_eq_ok {proof : InclusionProof} {leaf root : Hash} :
    verifyInclusion sha256 proof leaf root = .ok () ↔
      proof.path.length ≤ maxProofLen ∧ proof.index < proof.size ∧
      proof.path.length = (inclusionTurns proof.index.toNat proof.size.toNat).length ∧
      (proof.path.zip (inclusionTurns proof.index.toNat proof.size.toNat).reverse).foldl
        (inclusionStep sha256) leaf = root := by
  unfold verifyInclusion
  simp only [bind_eq_ok, failIf_eq_ok, exists_const, not_lt, not_not, ge_iff_le, UInt64.not_le,
    ne_eq, gt_iff_lt]
  constructor
  · rintro ⟨hmax, hindex, hlen, hroot⟩
    exact ⟨hmax, hindex, hlen.symm, hroot⟩
  · rintro ⟨hmax, hindex, hlen, hroot⟩
    exact ⟨hmax, hindex, hlen.symm, hroot⟩

/-- **Inclusion proofs are sound.** Whatever the index and the path, a proof accepted against the
root of `leaves` at its own size shows that `leaf` is the leaf at that index, unless two different
child pairs among those hashed have the same `nodeHash`. -/
theorem verifyInclusion_sound (sha256 : Bytes → Hash) (leaves : List Hash) (leaf : Hash)
    (proof : InclusionProof) (hsize : leaves.length = proof.size.toNat)
    (h : verifyInclusion sha256 proof leaf (rootOf sha256 leaves) = .ok ()) :
    (proof.index < proof.size ∧ leaves[proof.index.toNat]? = some leaf) ∨
      Merkle.Collision (nodeHash sha256) (inclusionPairs sha256 proof leaf leaves) := by
  obtain ⟨-, hindex, hlen, hclimb⟩ := verifyInclusion_eq_ok.mp h
  have hlt : proof.index.toNat < leaves.length := by
    rw [hsize]
    exact UInt64.lt_iff_toNat_lt.mp hindex
  have hnodes : Merkle.nodes (nodeHash sha256) (sha256 []) leaves ⊆
      inclusionPairs sha256 proof leaf leaves := List.subset_append_left _ _
  have hpairs : auditPairs sha256 leaf
      (proof.path.zip (inclusionTurns proof.index.toNat proof.size.toNat).reverse) ⊆
      inclusionPairs sha256 proof leaf leaves := List.subset_append_right _ _
  rw [← hsize] at hlen hclimb hpairs
  rcases audit_sound hlt hlen hclimb hnodes hpairs with hleaf | hc
  · left
    exact ⟨hindex, hleaf⟩
  · right
    exact hc

/-- The theorem at the second of two leaves, with the length of its input standing for the
digest. -/
theorem verifyInclusion_sound_second :
    let sha : Bytes → Hash := fun bytes => Vector.replicate 32 (UInt8.ofNat bytes.length)
    let a := leafHash sha [1]
    let b := leafHash sha [2, 3]
    let proof : InclusionProof := { index := 1, size := 2, path := [a] }
    verifyInclusion sha proof b (rootOf sha [a, b]) = .ok () ∧
      (((1 : UInt64) < 2 ∧ [a, b][1]? = some b) ∨
        Merkle.Collision (nodeHash sha) (inclusionPairs sha proof b [a, b])) := by
  intro sha a b proof
  have hsplit : Merkle.splitPoint 2 = 1 := by simp [Merkle.splitPoint]
  have hroot : rootOf sha [a, b] = nodeHash sha a b := by
    rw [rootOf, Merkle.root_split _ _ (by simp)]
    show nodeHash sha (Merkle.root _ _ ([a, b].take (Merkle.splitPoint 2)))
      (Merkle.root _ _ ([a, b].drop (Merkle.splitPoint 2))) = _
    rw [hsplit]
    simp [Merkle.root_singleton]
  have hturns : inclusionTurns 1 2 = [false] := by
    rw [inclusionTurns_right (by omega) (by rw [hsplit]), hsplit, inclusionTurns_leaf (by omega)]
  have hverify : verifyInclusion sha proof b (rootOf sha [a, b]) = .ok () := by
    rw [verifyInclusion_eq_ok]
    simp only [proof]
    rw [show (1 : UInt64).toNat = 1 from rfl, show (2 : UInt64).toNat = 2 from rfl, hturns, hroot]
    exact ⟨by decide, by decide, rfl, rfl⟩
  exact ⟨hverify, verifyInclusion_sound sha [a, b] b proof rfl hverify⟩

end HideProtocol.Transparency
