import HideProtocol.Transparency.Tree

/-!
# Soundness of consistency proofs

The path of a `ConsistencyProof` is the adversary's, and the verifier only replays a descent
computed from the two sizes. `climb_sound` follows that descent over the two trees at once:
the last hash of the path is the sibling at the top level, so peeling it off leaves the same
statement one level down.

SHA-256 is an arbitrary function here, so the conclusion has a second disjunct: two different
child pairs with one parent, among the pairs hashed for either root or by the verifier.
-/

namespace HideProtocol.Transparency

open Lib

variable {sha256 : Bytes → Hash}

/-! ## What the verifier hashes -/

/-- The child pairs one level of the climb hashes. -/
def stepPairs (hashes : Hash × Hash) (step : Hash × Bool) : List (Hash × Hash) :=
  if step.2 then [(hashes.2, step.1)] else [(step.1, hashes.1), (step.1, hashes.2)]

variable (sha256) in
/-- The child pairs the whole climb hashes. -/
def climbPairs (hashes : Hash × Hash) : List (Hash × Bool) → List (Hash × Hash)
  | [] => []
  | step :: steps =>
    stepPairs hashes step ++ climbPairs (consistencyStep sha256 hashes step) steps

theorem climbPairs_append (hashes : Hash × Hash) (steps more : List (Hash × Bool)) :
    climbPairs sha256 hashes (steps ++ more) =
      climbPairs sha256 hashes steps ++
        climbPairs sha256 (steps.foldl (consistencyStep sha256) hashes) more := by
  induction steps generalizing hashes with
  | nil => rfl
  | cons step steps ih =>
    rw [List.cons_append, climbPairs, climbPairs, ih, ← List.append_assoc, List.foldl_cons]

variable (sha256) in
/-- The child pairs `verifyConsistency` hashes: none where it stops before the climb. -/
def verifierPairs (proof : ConsistencyProof) (oldRoot : Hash) : List (Hash × Hash) :=
  let descent := consistencyTurns proof.oldSize.toNat proof.newSize.toNat true
  match consistencySeed descent.2 proof.path oldRoot with
  | .error _ => []
  | .ok (seed, path) => climbPairs sha256 (seed, seed) (path.zip descent.1.reverse)

variable (sha256) in
/-- Every child pair hashed for the two roots and by the verifier. -/
def computedPairs (proof : ConsistencyProof) (old new : List Hash) : List (Hash × Hash) :=
  Merkle.nodes (nodeHash sha256) (sha256 []) old ++
    Merkle.nodes (nodeHash sha256) (sha256 []) new ++
    verifierPairs sha256 proof (rootOf sha256 old)

/-! ## The descent -/

section Descent
variable {old new : ℕ} {complete : Bool}

theorem consistencyTurns_of_le (hlt : old < new) (hpos : 1 ≤ old)
    (hle : old ≤ Merkle.splitPoint new) :
    consistencyTurns old new complete =
      (true :: (consistencyTurns old (Merkle.splitPoint new) complete).1,
        (consistencyTurns old (Merkle.splitPoint new) complete).2) := by
  rw [consistencyTurns, dif_neg (by omega), largestPowerOfTwoBelow_eq, if_pos hle]

theorem consistencyTurns_of_gt (hlt : old < new) (hpos : 1 ≤ old)
    (hgt : Merkle.splitPoint new < old) :
    consistencyTurns old new complete =
      (false :: (consistencyTurns (old - Merkle.splitPoint new)
          (new - Merkle.splitPoint new) false).1,
        (consistencyTurns (old - Merkle.splitPoint new)
          (new - Merkle.splitPoint new) false).2) := by
  rw [consistencyTurns, dif_neg (by omega), largestPowerOfTwoBelow_eq, if_neg (by omega)]

theorem consistencyTurns_refl (n : ℕ) (complete : Bool) :
    consistencyTurns n n complete = ([], complete) := by
  rw [consistencyTurns, dif_pos (Or.inl rfl)]

theorem consistencyTurns_left (hlt : old < new) (hpos : 1 ≤ old)
    (hle : old ≤ Merkle.splitPoint new) :
    (consistencyTurns old new complete).1 =
      true :: (consistencyTurns old (Merkle.splitPoint new) complete).1 := by
  rw [consistencyTurns_of_le hlt hpos hle]

theorem consistencyTurns_right (hlt : old < new) (hpos : 1 ≤ old)
    (hgt : Merkle.splitPoint new < old) :
    (consistencyTurns old new complete).1 =
      false :: (consistencyTurns (old - Merkle.splitPoint new)
        (new - Merkle.splitPoint new) false).1 := by
  rw [consistencyTurns_of_gt hlt hpos hgt]

theorem consistencyTurns_self (n : ℕ) (complete : Bool) :
    (consistencyTurns n n complete).1 = [] := by
  rw [consistencyTurns_refl]

end Descent

/-- The last hash of the path belongs to the first turn of the descent. -/
theorem zip_reverse_cons {path : List Hash} {turn : Bool} {turns : List Bool}
    (h : path.length = (turn :: turns).length) :
    ∃ init sibling, path = init ++ [sibling] ∧ init.length = turns.length ∧
      path.zip (turn :: turns).reverse = init.zip turns.reverse ++ [(sibling, turn)] := by
  have hne : path ≠ [] := by
    intro hnil
    simp [hnil] at h
  have hinit : path.dropLast.length = turns.length := by
    rw [List.length_dropLast, h, List.length_cons, Nat.add_sub_cancel]
  refine ⟨path.dropLast, path.getLast hne, (List.dropLast_append_getLast hne).symm, hinit, ?_⟩
  conv_lhs => rw [← List.dropLast_append_getLast hne, List.reverse_cons]
  rw [List.zip_append (by rw [hinit, List.length_reverse])]
  rfl

/-! ## The climb -/

section Climb
variable {old new : List Hash} {hashes : Hash × Hash} {sibling : Hash} {pairs : List (Hash × Hash)}

/-- A left turn undone: the new hash below is the root of the new log's left half. -/
theorem climb_left (h2 : 2 ≤ new.length)
    (hstep : consistencyStep sha256 hashes (sibling, true) = (rootOf sha256 old, rootOf sha256 new))
    (hnew : Merkle.nodes (nodeHash sha256) (sha256 []) new ⊆ pairs)
    (hpairs : stepPairs hashes (sibling, true) ⊆ pairs) :
    hashes = (rootOf sha256 old, rootOf sha256 (new.take (Merkle.splitPoint new.length))) ∨
      Merkle.Collision (nodeHash sha256) pairs := by
  unfold rootOf at hstep ⊢
  rw [Merkle.root_split _ _ h2] at hstep
  rw [Merkle.nodes_split _ _ h2] at hnew
  obtain ⟨h₁, h₂⟩ := Prod.mk.injEq .. ▸ hstep
  rcases Merkle.node_inj_or_collision (hpairs List.mem_cons_self) (hnew List.mem_cons_self) h₂
    with ⟨h, _⟩ | hc
  · left
    exact Prod.ext h₁ h
  · right
    exact hc

/-- A right turn undone: both logs have the sibling as their left half's root, and the two
hashes below are the roots of their right halves. -/
theorem climb_right (h2 : 2 ≤ old.length) (h2' : 2 ≤ new.length)
    (hsplit : Merkle.splitPoint old.length = Merkle.splitPoint new.length)
    (hstep : consistencyStep sha256 hashes (sibling, false) =
      (rootOf sha256 old, rootOf sha256 new))
    (hold : Merkle.nodes (nodeHash sha256) (sha256 []) old ⊆ pairs)
    (hnew : Merkle.nodes (nodeHash sha256) (sha256 []) new ⊆ pairs)
    (hpairs : stepPairs hashes (sibling, false) ⊆ pairs) :
    (rootOf sha256 (old.take (Merkle.splitPoint new.length)) =
        rootOf sha256 (new.take (Merkle.splitPoint new.length)) ∧
      hashes = (rootOf sha256 (old.drop (Merkle.splitPoint new.length)),
        rootOf sha256 (new.drop (Merkle.splitPoint new.length)))) ∨
      Merkle.Collision (nodeHash sha256) pairs := by
  unfold rootOf at hstep ⊢
  rw [Merkle.root_split _ _ h2, Merkle.root_split _ _ h2', hsplit] at hstep
  rw [Merkle.nodes_split _ _ h2, hsplit] at hold
  rw [Merkle.nodes_split _ _ h2'] at hnew
  obtain ⟨h₁, h₂⟩ := Prod.mk.injEq .. ▸ hstep
  have hmem₁ : (sibling, hashes.1) ∈ pairs := hpairs (by simp [stepPairs])
  have hmem₂ : (sibling, hashes.2) ∈ pairs := hpairs (by simp [stepPairs])
  rcases Merkle.node_inj_or_collision hmem₁ (hold List.mem_cons_self) h₁ with ⟨hs₁, ho⟩ | hc
  · rcases Merkle.node_inj_or_collision hmem₂ (hnew List.mem_cons_self) h₂ with ⟨hs₂, hn⟩ | hc
    · left
      exact ⟨hs₁.symm.trans hs₂, Prod.ext ho hn⟩
    · right
      exact hc
  · right
    exact hc

end Climb

/-- A climb of the right length that ends in the two roots: the old log is a prefix of the
new one, or two of the pairs in `pairs`, which holds every pair hashed, collide. -/
theorem climb_sound {old new path : List Hash} {seed : Hash} {complete : Bool}
    {pairs : List (Hash × Hash)} (hpos : 1 ≤ old.length) (hle : old.length ≤ new.length)
    (hlen : path.length = (consistencyTurns old.length new.length complete).1.length)
    (hclimb : (path.zip (consistencyTurns old.length new.length complete).1.reverse).foldl
      (consistencyStep sha256) (seed, seed) = (rootOf sha256 old, rootOf sha256 new))
    (hold : Merkle.nodes (nodeHash sha256) (sha256 []) old ⊆ pairs)
    (hnew : Merkle.nodes (nodeHash sha256) (sha256 []) new ⊆ pairs)
    (hpairs : climbPairs sha256 (seed, seed)
      (path.zip (consistencyTurns old.length new.length complete).1.reverse) ⊆ pairs) :
    old <+: new ∨ Merkle.Collision (nodeHash sha256) pairs := by
  -- on the size of the new log, which both turns make smaller
  induction hn : new.length using Nat.strongRecOn generalizing old new path complete with
  | ind n ih =>
    subst hn
    by_cases heq : old.length = new.length
    · -- the bottom of the descent: the seed is the root of both
      rw [heq, consistencyTurns_self] at hclimb
      simp only [List.reverse_nil, List.zip_nil_right, List.foldl_nil] at hclimb
      obtain ⟨h₁, h₂⟩ := Prod.mk.injEq .. ▸ hclimb
      rcases Merkle.root_inj_or_collision heq (h₁.symm.trans h₂) hold hnew with h | hc
      · left
        exact h ▸ List.prefix_refl old
      · right
        exact hc
    · have hlt : old.length < new.length := by omega
      have h2 : 2 ≤ new.length := by omega
      have hsplit := Merkle.splitPoint_lt h2
      have hsplitPos := Merkle.splitPoint_pos new.length
      have hnodes := Merkle.nodes_split (nodeHash sha256) (sha256 []) h2
      by_cases hturn : old.length ≤ Merkle.splitPoint new.length
      · -- left: the whole old log lies in the left half of the new one
        rw [consistencyTurns_left hlt hpos hturn] at hlen hclimb hpairs
        obtain ⟨init, sibling, rfl, hinit, hzip⟩ := zip_reverse_cons hlen
        rw [hzip, List.foldl_append] at hclimb
        rw [hzip, climbPairs_append] at hpairs
        obtain ⟨hbelow, htop⟩ := List.append_subset.mp hpairs
        have hhalf : (new.take (Merkle.splitPoint new.length)).length =
            Merkle.splitPoint new.length := by
          rw [List.length_take]
          omega
        rcases climb_left h2 hclimb hnew (List.append_subset.mp htop).1 with h | hc
        · have hprefix := @ih _ hsplit old (new.take (Merkle.splitPoint new.length)) init complete
            hpos (by omega) (by rw [hhalf, hinit]) (by rw [hhalf]; exact h) hold
            (fun p hp => hnew (by simp [hnodes, hp])) (by rw [hhalf]; exact hbelow) hhalf
          rcases hprefix with hprefix | hc
          · left
            exact hprefix.trans (List.take_prefix _ _)
          · right
            exact hc
        · right
          exact hc
      · -- right: the old log reaches past the split, so it splits at the same point
        have hgt : Merkle.splitPoint new.length < old.length := by omega
        have hsame := Merkle.splitPoint_between hgt hle
        have h2' : 2 ≤ old.length := by omega
        have hnodes' := Merkle.nodes_split (nodeHash sha256) (sha256 []) h2'
        rw [consistencyTurns_right hlt hpos hgt] at hlen hclimb hpairs
        obtain ⟨init, sibling, rfl, hinit, hzip⟩ := zip_reverse_cons hlen
        rw [hzip, List.foldl_append] at hclimb
        rw [hzip, climbPairs_append] at hpairs
        obtain ⟨hbelow, htop⟩ := List.append_subset.mp hpairs
        rcases climb_right h2' h2 hsame hclimb hold hnew (List.append_subset.mp htop).1
          with ⟨hleft, h⟩ | hc
        · set k := Merkle.splitPoint new.length with hk
          have holdLen : (old.drop k).length = old.length - k := List.length_drop
          have hnewLen : (new.drop k).length = new.length - k := List.length_drop
          have hprefix := @ih (new.length - k) (by omega) (old.drop k) (new.drop k) init false
            (by omega) (by omega) (by rw [holdLen, hnewLen, hinit])
            (by rw [holdLen, hnewLen]; exact h)
            (fun p hp => hold (by simp [hnodes', hsame, hp]))
            (fun p hp => hnew (by simp [hnodes, hp]))
            (by rw [holdLen, hnewLen]; exact hbelow) hnewLen
          have htake : (old.take k).length = (new.take k).length := by
            rw [List.length_take, List.length_take]
            omega
          have hinj := Merkle.root_inj_or_collision htake hleft
            (fun p hp => hold (by simp [hnodes', hsame, hp]))
            (fun p hp => hnew (by simp [hnodes, hp]))
          rcases hprefix with hprefix | hc
          · rcases hinj with hinj | hc
            · left
              rw [← List.take_append_drop k old, ← List.take_append_drop k new, hinj]
              exact (List.prefix_append_right_inj _).mpr hprefix
            · right
              exact hc
          · right
            exact hc
        · right
          exact hc

/-! ## The verifier -/

/-- An accepted proof between different sizes is a climb of the right length that ends in the
two roots, and the pairs it hashed are `verifierPairs`. -/
theorem verifyConsistency_eq_ok {proof : ConsistencyProof} {oldRoot newRoot : Hash}
    (hne : proof.oldSize ≠ proof.newSize)
    (h : verifyConsistency sha256 proof oldRoot newRoot = .ok ()) :
    ∃ (seed : Hash) (path : List Hash),
      path.length =
        (consistencyTurns proof.oldSize.toNat proof.newSize.toNat true).1.length ∧
      (path.zip (consistencyTurns proof.oldSize.toNat proof.newSize.toNat true).1.reverse).foldl
        (consistencyStep sha256) (seed, seed) = (oldRoot, newRoot) ∧
      verifierPairs sha256 proof oldRoot = climbPairs sha256 (seed, seed)
        (path.zip (consistencyTurns proof.oldSize.toNat proof.newSize.toNat true).1.reverse) := by
  unfold verifyConsistency at h
  rw [if_neg hne] at h
  obtain ⟨_, -, h⟩ := bind_eq_ok.mp h
  obtain ⟨_, -, h⟩ := bind_eq_ok.mp h
  obtain ⟨_, hlen, h⟩ := bind_eq_ok.mp h
  obtain ⟨⟨seed, path⟩, hseed, h⟩ := bind_eq_ok.mp h
  rw [failIf_eq_ok] at hlen h
  push Not at hlen h
  refine ⟨seed, path, ?_, Prod.ext h.1 h.2, ?_⟩
  · -- the seed was taken off the path exactly when the expected length counts it
    unfold consistencySeed at hseed
    split at hseed
    · simp_all
    · split at hseed <;> simp_all
  · simp only [verifierPairs, hseed]

/-- **Consistency proofs are sound.** Whatever the path, a proof accepted against the roots of
`old` and `new` at their own sizes shows that `old` is a prefix of `new`, unless two different
child pairs among those hashed have the same `nodeHash`. -/
theorem verifyConsistency_sound (sha256 : Bytes → Hash) (old new : List Hash)
    (proof : ConsistencyProof) (hpos : 1 ≤ old.length) (hold : old.length = proof.oldSize.toNat)
    (hnew : new.length = proof.newSize.toNat)
    (h : verifyConsistency sha256 proof (rootOf sha256 old) (rootOf sha256 new) = .ok ()) :
    old <+: new ∨
      Merkle.Collision (nodeHash sha256) (computedPairs sha256 proof old new) := by
  have hle : old.length ≤ new.length := by
    have h' := h
    unfold verifyConsistency at h'
    obtain ⟨_, -, h'⟩ := bind_eq_ok.mp h'
    obtain ⟨_, hsizes, -⟩ := bind_eq_ok.mp h'
    rw [failIf_eq_ok] at hsizes
    push Not at hsizes
    rw [hold, hnew]
    exact UInt64.le_iff_toNat_le.mp (UInt64.not_lt.mp hsizes.2)
  have holdPairs : Merkle.nodes (nodeHash sha256) (sha256 []) old ⊆
      computedPairs sha256 proof old new := by
    intro p hp
    simp [computedPairs, hp]
  have hnewPairs : Merkle.nodes (nodeHash sha256) (sha256 []) new ⊆
      computedPairs sha256 proof old new := by
    intro p hp
    simp [computedPairs, hp]
  by_cases hne : proof.oldSize = proof.newSize
  · -- nothing grew: the roots are equal
    have hroots : rootOf sha256 old = rootOf sha256 new := by
      unfold verifyConsistency at h
      rw [if_pos hne] at h
      obtain ⟨_, -, h⟩ := bind_eq_ok.mp h
      obtain ⟨_, -, h⟩ := bind_eq_ok.mp h
      rw [failIf_eq_ok, not_not] at h
      exact h.2
    rcases Merkle.root_inj_or_collision (by rw [hold, hnew, hne]) hroots holdPairs hnewPairs
      with heq | hc
    · left
      exact heq ▸ List.prefix_refl old
    · right
      exact hc
  · obtain ⟨seed, path, hlen, hclimb, hpairs⟩ := verifyConsistency_eq_ok hne h
    rw [← hold, ← hnew] at hlen hclimb hpairs
    apply climb_sound hpos hle hlen hclimb holdPairs hnewPairs
    rw [← hpairs]
    exact List.subset_append_right _ _

/-- The theorem at a log of one leaf grown by a second, with the length of its input standing
for the digest. -/
theorem verifyConsistency_sound_one_two :
    let sha : Bytes → Hash := fun bytes => Vector.replicate 32 (UInt8.ofNat bytes.length)
    let a := leafHash sha [1]
    let b := leafHash sha [2, 3]
    let proof : ConsistencyProof := { oldSize := 1, newSize := 2, path := [b] }
    verifyConsistency sha proof (rootOf sha [a]) (rootOf sha [a, b]) = .ok () ∧
      ([a] <+: [a, b] ∨
        Merkle.Collision (nodeHash sha) (computedPairs sha proof [a] [a, b])) := by
  intro sha a b proof
  have hverify : verifyConsistency sha proof (rootOf sha [a]) (rootOf sha [a, b]) = .ok () := by
    have hsplit : Merkle.splitPoint 2 = 1 := by simp [Merkle.splitPoint]
    have hroot : rootOf sha [a, b] = nodeHash sha a b := by
      rw [rootOf, Merkle.root_split _ _ (by simp)]
      show nodeHash sha (Merkle.root _ _ ([a, b].take (Merkle.splitPoint 2)))
        (Merkle.root _ _ ([a, b].drop (Merkle.splitPoint 2))) = _
      rw [hsplit]
      simp [Merkle.root_singleton]
    have hturns : consistencyTurns 1 2 true = ([true], true) := by
      rw [consistencyTurns, dif_neg (by omega), largestPowerOfTwoBelow_eq, hsplit, if_pos le_rfl,
        consistencyTurns, dif_pos (Or.inl rfl)]
    rw [hroot, rootOf, Merkle.root_singleton]
    unfold verifyConsistency
    simp only [proof]
    rw [show (1 : UInt64).toNat = 1 from rfl, show (2 : UInt64).toNat = 2 from rfl, hturns]
    simp [consistencySeed, consistencyStep, failIf, maxProofLen]
  exact ⟨hverify, verifyConsistency_sound sha [a] [a, b] proof (by decide) rfl rfl hverify⟩

end HideProtocol.Transparency
