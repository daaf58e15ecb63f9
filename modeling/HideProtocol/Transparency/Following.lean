import HideProtocol.Lib.PartialMerkle
import HideProtocol.Transparency.ProverTheorems

/-!
# Following a log

A party that follows a log holds roots and never a leaf. What it checks each time is that the next
checkpoint extends the one it has; now and then somebody shows it a leaf. Whatever the log sends,
and in whatever steps, such a party is never led from one history to another: the leaves it has
been shown stay where they are, and two parties that arrive at one checkpoint have been on one line
all along. The only way out is a collision among the child pairs they have hashed themselves.
-/

namespace HideProtocol.Transparency

open Lib

/-- The size and the root of a checkpoint. -/
structure TreeHead where
  size : UInt64
  root : Hash
deriving DecidableEq

section
variable (sha256 : Bytes → Hash)

/-- Goes from a checkpoint to the next ones, each with the proof that it extends the one before. A
proof from another size is refused. -/
def follow (head : TreeHead) : List (ConsistencyProof × Hash) → Except LogError TreeHead
  | [] => pure head
  | (proof, root) :: steps => do
    failIf (proof.oldSize ≠ head.size) .badProof
    verifyConsistency sha256 proof head.root root
    follow ⟨proof.newSize, root⟩ steps

/-- The child pairs hashed on the way. -/
def followPairs (head : TreeHead) : List (ConsistencyProof × Hash) → List (Hash × Hash)
  | [] => []
  | (proof, root) :: steps =>
    verifierPairs sha256 proof head.root ++ followPairs ⟨proof.newSize, root⟩ steps

/-- The child pairs hashed for an audit path. -/
def shownPairs (proof : InclusionProof) (leaf : Hash) : List (Hash × Hash) :=
  auditPairs sha256 leaf
    (proof.path.zip (inclusionTurns proof.index.toNat proof.size.toNat).reverse)

end

variable {sha256 : Bytes → Hash} {pairs : List (Hash × Hash)}

/-! ## What an audit path shows -/

theorem includes_of_climb {path : List Hash} {leaf root : Hash} {index size : ℕ}
    (hindex : index < size) (hlen : path.length = (inclusionTurns index size).length)
    (hclimb : (path.zip (inclusionTurns index size).reverse).foldl (inclusionStep sha256) leaf =
      root)
    (hpairs : auditPairs sha256 leaf (path.zip (inclusionTurns index size).reverse) ⊆ pairs) :
    Merkle.Includes (nodeHash sha256) pairs index size leaf root := by
  induction size using Nat.strongRecOn generalizing path index root with
  | ind size ih =>
    by_cases h2 : 2 ≤ size
    · have hsplit := Merkle.splitPoint_lt h2
      have hpos := Merkle.splitPoint_pos size
      by_cases hturn : index < Merkle.splitPoint size
      · rw [inclusionTurns_left h2 hturn] at hlen hclimb hpairs
        obtain ⟨init, sibling, rfl, hinit, hzip⟩ := zip_reverse_cons hlen
        rw [hzip, List.foldl_append, List.foldl_cons, List.foldl_nil] at hclimb
        rw [hzip, auditPairs_append] at hpairs
        have ⟨hbelow, htop⟩ := List.append_subset.mp hpairs
        rw [← hclimb]
        exact .left h2 hturn (ih _ hsplit hturn hinit rfl hbelow) (htop List.mem_cons_self)
      · rw [inclusionTurns_right h2 (by omega)] at hlen hclimb hpairs
        obtain ⟨init, sibling, rfl, hinit, hzip⟩ := zip_reverse_cons hlen
        rw [hzip, List.foldl_append, List.foldl_cons, List.foldl_nil] at hclimb
        rw [hzip, auditPairs_append] at hpairs
        have ⟨hbelow, htop⟩ := List.append_subset.mp hpairs
        rw [← hclimb]
        exact .right h2 (by omega) (ih _ (by omega) (by omega) hinit rfl hbelow)
          (htop List.mem_cons_self)
    · -- a single leaf is its own root
      have hone : size = 1 := by omega
      have hzero : index = 0 := by omega
      subst hone hzero
      rw [inclusionTurns_leaf le_rfl] at hclimb
      simp only [List.reverse_nil, List.zip_nil_right, List.foldl_nil] at hclimb
      rw [← hclimb]
      exact .leaf leaf

theorem includes_of_verifyInclusion {proof : InclusionProof} {leaf root : Hash}
    (h : verifyInclusion sha256 proof leaf root = .ok ())
    (hpairs : shownPairs sha256 proof leaf ⊆ pairs) :
    Merkle.Includes (nodeHash sha256) pairs proof.index.toNat proof.size.toNat leaf root := by
  obtain ⟨-, hindex, hlen, hclimb⟩ := verifyInclusion_eq_ok.mp h
  exact includes_of_climb (UInt64.lt_iff_toNat_lt.mp hindex) hlen hclimb hpairs

/-- What can be shown can be shown by a path. -/
theorem climb_of_includes {leaf root : Hash} {index size : ℕ}
    (h : Merkle.Includes (nodeHash sha256) pairs index size leaf root) :
    ∃ path : List Hash, path.length = (inclusionTurns index size).length ∧
      (path.zip (inclusionTurns index size).reverse).foldl (inclusionStep sha256) leaf = root := by
  induction h with
  | leaf leaf =>
    rw [inclusionTurns_leaf le_rfl]
    exact ⟨[], rfl, rfl⟩
  | @left index size leaf below sibling h2 hturn hbelow hpair ih =>
    obtain ⟨path, hlen, hclimb⟩ := ih
    rw [inclusionTurns_left h2 hturn]
    refine ⟨path ++ [sibling], by simp [hlen], ?_⟩
    rw [zip_snoc_reverse_cons hlen, List.foldl_append, hclimb]
    rfl
  | @right index size leaf below sibling h2 hturn hbelow hpair ih =>
    obtain ⟨path, hlen, hclimb⟩ := ih
    rw [inclusionTurns_right h2 hturn]
    refine ⟨path ++ [sibling], by simp [hlen], ?_⟩
    rw [zip_snoc_reverse_cons hlen, List.foldl_append, hclimb]
    rfl

/-- No size has a leaf too deep for a proof. -/
theorem verifyInclusion_of_includes {index size : UInt64} {leaf root : Hash}
    (h : Merkle.Includes (nodeHash sha256) pairs index.toNat size.toNat leaf root) :
    ∃ proof : InclusionProof, proof.index = index ∧ proof.size = size ∧
      verifyInclusion sha256 proof leaf root = .ok () := by
  obtain ⟨path, hlen, hclimb⟩ := climb_of_includes h
  have hdepth : (inclusionTurns index.toNat size.toNat).length ≤ 64 :=
    length_inclusionTurns_le (Nat.le_of_lt size.toNat_lt)
  refine ⟨⟨index, size, path⟩, rfl, rfl, ?_⟩
  rw [verifyInclusion_eq_ok]
  exact ⟨hlen.trans_le hdepth, UInt64.lt_iff_toNat_lt.mpr h.lt, hlen, hclimb⟩

/-! ## What a consistency path shows -/

theorem extends_of_climb {path : List Hash} {seed oldRoot newRoot : Hash} {old new : ℕ}
    {complete : Bool} (hpos : 1 ≤ old) (hle : old ≤ new)
    (hlen : path.length = (consistencyTurns old new complete).1.length)
    (hclimb : (path.zip (consistencyTurns old new complete).1.reverse).foldl
      (consistencyStep sha256) (seed, seed) = (oldRoot, newRoot))
    (hpairs : climbPairs sha256 (seed, seed)
      (path.zip (consistencyTurns old new complete).1.reverse) ⊆ pairs) :
    Merkle.Extends (nodeHash sha256) pairs old new oldRoot newRoot := by
  induction new using Nat.strongRecOn generalizing path old complete oldRoot newRoot with
  | ind new ih =>
    by_cases heq : old = new
    · -- the bottom of the descent: the seed is both roots
      subst heq
      rw [consistencyTurns_self] at hclimb
      simp only [List.reverse_nil, List.zip_nil_right, List.foldl_nil] at hclimb
      obtain ⟨hold, hnew⟩ := Prod.mk.injEq .. ▸ hclimb
      rw [← hold, ← hnew]
      exact .same seed hpos
    · have hlt : old < new := by omega
      have hsplit := @Merkle.splitPoint_lt new (by omega)
      have hsplitPos := Merkle.splitPoint_pos new
      by_cases hturn : old ≤ Merkle.splitPoint new
      · rw [consistencyTurns_left hlt hpos hturn] at hlen hclimb hpairs
        obtain ⟨init, sibling, rfl, hinit, hzip⟩ := zip_reverse_cons hlen
        rw [hzip, List.foldl_append, List.foldl_cons, List.foldl_nil] at hclimb
        rw [hzip, climbPairs_append] at hpairs
        have ⟨hbelow, htop⟩ := List.append_subset.mp hpairs
        obtain ⟨hold, hnew⟩ := Prod.mk.injEq .. ▸ hclimb
        rw [← hold, ← hnew]
        exact .left (by omega) hturn (ih _ hsplit hpos hturn hinit rfl hbelow)
          (htop List.mem_cons_self)
      · have hgt : Merkle.splitPoint new < old := by omega
        rw [consistencyTurns_right hlt hpos hgt] at hlen hclimb hpairs
        obtain ⟨init, sibling, rfl, hinit, hzip⟩ := zip_reverse_cons hlen
        rw [hzip, List.foldl_append, List.foldl_cons, List.foldl_nil] at hclimb
        rw [hzip, climbPairs_append] at hpairs
        have ⟨hbelow, htop⟩ := List.append_subset.mp hpairs
        obtain ⟨hold, hnew⟩ := Prod.mk.injEq .. ▸ hclimb
        rw [← hold, ← hnew]
        exact .right hgt hlt (ih _ (by omega) (by omega) (by omega) hinit rfl hbelow)
          (htop List.mem_cons_self) (htop (List.mem_cons_of_mem _ List.mem_cons_self))

theorem extends_of_verifyConsistency {proof : ConsistencyProof} {oldRoot newRoot : Hash}
    (h : verifyConsistency sha256 proof oldRoot newRoot = .ok ())
    (hpairs : verifierPairs sha256 proof oldRoot ⊆ pairs) :
    Merkle.Extends (nodeHash sha256) pairs proof.oldSize.toNat proof.newSize.toNat oldRoot
      newRoot := by
  have hsizes : ¬(proof.oldSize = 0 ∨ proof.oldSize > proof.newSize) := by
    have h' := h
    unfold verifyConsistency at h'
    obtain ⟨_, -, h'⟩ := bind_eq_ok.mp h'
    obtain ⟨_, hsizes, -⟩ := bind_eq_ok.mp h'
    exact failIf_eq_ok.mp hsizes
  push Not at hsizes
  have hpos : 1 ≤ proof.oldSize.toNat :=
    Nat.one_le_iff_ne_zero.mpr fun hzero => hsizes.1 (UInt64.toNat_inj.mp hzero)
  have hle : proof.oldSize.toNat ≤ proof.newSize.toNat :=
    UInt64.le_iff_toNat_le.mp (UInt64.not_lt.mp hsizes.2)
  by_cases hne : proof.oldSize = proof.newSize
  · unfold verifyConsistency at h
    rw [if_pos hne] at h
    obtain ⟨_, -, h⟩ := bind_eq_ok.mp h
    obtain ⟨_, -, h⟩ := bind_eq_ok.mp h
    rw [failIf_eq_ok, not_not] at h
    rw [← hne, h.2]
    exact .same newRoot hpos
  · obtain ⟨seed, path, hlen, hclimb, hsame⟩ := verifyConsistency_eq_ok hne h
    rw [hsame] at hpairs
    exact extends_of_climb hpos hle hlen hclimb hpairs

theorem climb_of_extends {oldRoot newRoot : Hash} {old new : ℕ}
    (h : Merkle.Extends (nodeHash sha256) pairs old new oldRoot newRoot) (complete : Bool) :
    ∃ (seed : Hash) (siblings : List Hash),
      siblings.length = (consistencyTurns old new complete).1.length ∧
      ((consistencyTurns old new complete).2 = true → seed = oldRoot) ∧
      (siblings.zip (consistencyTurns old new complete).1.reverse).foldl
        (consistencyStep sha256) (seed, seed) = (oldRoot, newRoot) := by
  induction h generalizing complete with
  | @same size root hpos =>
    rw [consistencyTurns_refl]
    exact ⟨root, [], rfl, fun _ => rfl, rfl⟩
  | @left old new oldRoot below sibling h2 hturn hbelow hpair ih =>
    have hle := hbelow.le
    have hlt := Merkle.splitPoint_lt h2
    obtain ⟨seed, siblings, hlen, hseed, hclimb⟩ := ih complete
    rw [consistencyTurns_of_le (by omega) (by omega) hturn]
    refine ⟨seed, siblings ++ [sibling], by simp [hlen], hseed, ?_⟩
    rw [zip_snoc_reverse_cons hlen, List.foldl_append, hclimb]
    rfl
  | @right old new sibling oldBelow newBelow hturn hlt hbelow hold hnew ih =>
    obtain ⟨seed, siblings, hlen, -, hclimb⟩ := ih false
    rw [consistencyTurns_of_gt hlt (by omega) hturn]
    refine ⟨seed, siblings ++ [sibling], by simp [hlen], ?_, ?_⟩
    · intro htrue
      rw [consistencyTurns_false] at htrue
      exact absurd htrue (by decide)
    · rw [zip_snoc_reverse_cons hlen, List.foldl_append, hclimb]
      rfl

/-- A proof has room for the seed as long as the new size leaves one of the 64 levels free. -/
theorem verifyConsistency_of_extends {old new : UInt64} {oldRoot newRoot : Hash}
    (h : Merkle.Extends (nodeHash sha256) pairs old.toNat new.toNat oldRoot newRoot)
    (hsize : new.toNat ≤ 2 ^ 63) :
    ∃ proof : ConsistencyProof, proof.oldSize = old ∧ proof.newSize = new ∧
      verifyConsistency sha256 proof oldRoot newRoot = .ok () := by
  have ⟨hpos, hle⟩ := h.le
  have hsizes : ¬(old = 0 ∨ old > new) := by
    rintro (hzero | hgt)
    · rw [hzero] at hpos
      exact absurd hpos (by decide)
    · exact absurd (UInt64.le_iff_toNat_le.mpr hle) (UInt64.not_le.mpr hgt)
  obtain ⟨seed, siblings, hlen, hseed, hclimb⟩ := climb_of_extends h true
  have hdepth := @length_consistencyTurns_le 63 old.toNat new.toNat true hpos hle hsize
  by_cases heq : old = new
  · subst heq
    refine ⟨⟨old, old, []⟩, rfl, rfl, ?_⟩
    unfold verifyConsistency
    rw [failIf_neg _ (by simp), ok_bind, failIf_neg _ hsizes, ok_bind, if_pos rfl,
      failIf_neg _ (by rw [not_not]; exact ⟨rfl, h.eq_of_size rfl⟩)]
  · -- the seed is sent unless the old tree is complete, and then it is the old root
    generalize hturns : consistencyTurns old.toNat new.toNat true = turns at *
    obtain ⟨turns, complete⟩ := turns
    simp only at hlen hseed hclimb hdepth
    refine ⟨⟨old, new, (if complete then [] else [seed]) ++ siblings⟩, rfl, rfl, ?_⟩
    have hlength : ((if complete then [] else [seed]) ++ siblings).length =
        turns.length + (!complete).toNat := by
      rw [List.length_append, hlen, Nat.add_comm]
      cases complete <;> rfl
    have hflag := Bool.toNat_le (!complete)
    have hstart : consistencySeed complete ((if complete then [] else [seed]) ++ siblings) oldRoot =
        .ok (seed, siblings) := by
      cases complete with
      | true =>
        rw [hseed rfl]
        rfl
      | false => rfl
    unfold verifyConsistency
    rw [failIf_neg _ (by rw [hlength]; unfold maxProofLen; omega), ok_bind, failIf_neg _ hsizes,
      ok_bind, if_neg heq]
    simp only [hturns]
    rw [failIf_neg _ (by rw [not_not]; exact hlength), ok_bind, hstart, ok_bind, hclimb,
      failIf_neg _ (by simp)]

/-! ## Runs -/

/-- Where a run ends extends where it began, unless the run is empty. -/
theorem extends_of_follow {head last : TreeHead} {steps : List (ConsistencyProof × Hash)}
    (h : follow sha256 head steps = .ok last) (hpairs : followPairs sha256 head steps ⊆ pairs)
    (hpos : 0 < head.size) :
    Merkle.Extends (nodeHash sha256) pairs head.size.toNat last.size.toNat head.root last.root ∨
      Merkle.Collision (nodeHash sha256) pairs := by
  induction steps generalizing head with
  | nil =>
    have hlast := pure_eq_ok.mp h
    subst hlast
    exact Or.inl (.same _ (UInt64.lt_iff_toNat_lt.mp hpos))
  | cons step steps ih =>
    obtain ⟨proof, root⟩ := step
    have ⟨hfirst, hrest⟩ := List.append_subset.mp hpairs
    unfold follow at h
    obtain ⟨_, hsize, h⟩ := bind_eq_ok.mp h
    obtain ⟨_, hverify, h⟩ := bind_eq_ok.mp h
    have hsame : proof.oldSize = head.size := not_not.mp (failIf_eq_ok.mp hsize)
    have hstep := extends_of_verifyConsistency hverify hfirst
    have hle := hstep.le
    rw [hsame] at hstep
    rcases ih h hrest (UInt64.lt_iff_toNat_lt.mpr (show 0 < proof.newSize.toNat by omega))
      with hext | hc
    · exact hstep.trans hext
    · exact Or.inr hc

/-- A log of one leaf grown by a second. -/
theorem follow_second (sha256 : Bytes → Hash) (a b : Hash) :
    follow sha256 ⟨1, a⟩ [(⟨1, 2, [b]⟩, nodeHash sha256 a b)] = .ok ⟨2, nodeHash sha256 a b⟩ := by
  have hsplit : Merkle.splitPoint 2 = 1 := by simp [Merkle.splitPoint]
  have hturns : consistencyTurns 1 2 true = ([true], true) := by
    rw [consistencyTurns_of_le (by omega) le_rfl (by omega), hsplit, consistencyTurns_refl]
  have hverify : verifyConsistency sha256 ⟨1, 2, [b]⟩ a (nodeHash sha256 a b) = .ok () := by
    unfold verifyConsistency
    simp only []
    rw [show (1 : UInt64).toNat = 1 from rfl, show (2 : UInt64).toNat = 2 from rfl, hturns]
    simp [consistencySeed, consistencyStep, failIf, maxProofLen]
  unfold follow
  rw [failIf_neg _ (by simp), ok_bind, hverify, ok_bind]
  rfl

/-- What a party has been shown can be shown again, and nothing else can at that place. -/
theorem leaves_of_follow {head last : TreeHead} {steps : List (ConsistencyProof × Hash)}
    {shown : InclusionProof} {leaf : Hash} (hfollow : follow sha256 head steps = .ok last)
    (hsize : shown.size = head.size)
    (hshown : verifyInclusion sha256 shown leaf head.root = .ok ()) :
    ((∃ later : InclusionProof, later.index = shown.index ∧ later.size = last.size ∧
        verifyInclusion sha256 later leaf last.root = .ok ()) ∨
      Merkle.Collision (nodeHash sha256)
        (shownPairs sha256 shown leaf ++ followPairs sha256 head steps)) ∧
    ∀ (later : InclusionProof) (other : Hash), later.index = shown.index →
      later.size = last.size → verifyInclusion sha256 later other last.root = .ok () →
      other = leaf ∨ Merkle.Collision (nodeHash sha256)
        (shownPairs sha256 shown leaf ++ followPairs sha256 head steps ++
          shownPairs sha256 later other) := by
  have hfirst := includes_of_verifyInclusion hshown (List.Subset.refl _)
  have hindex := hfirst.lt
  rw [hsize] at hfirst hindex
  have hpos : 0 < head.size :=
    UInt64.lt_iff_toNat_lt.mpr (show 0 < head.size.toNat by omega)
  have hkept : Merkle.Includes (nodeHash sha256)
        (shownPairs sha256 shown leaf ++ followPairs sha256 head steps) shown.index.toNat
        last.size.toNat leaf last.root ∨
      Merkle.Collision (nodeHash sha256)
        (shownPairs sha256 shown leaf ++ followPairs sha256 head steps) := by
    rcases extends_of_follow hfollow (List.subset_append_right _ _) hpos with hext | hc
    · exact (hfirst.mono (List.subset_append_left _ _)).extend hext
    · exact Or.inr hc
  refine ⟨?_, ?_⟩
  · rcases hkept with hincludes | hc
    · exact Or.inl (verifyInclusion_of_includes hincludes)
    · exact Or.inr hc
  · intro later other hplace hlater hverify
    have hother := includes_of_verifyInclusion hverify (List.subset_append_right
      (shownPairs sha256 shown leaf ++ followPairs sha256 head steps) _)
    rw [hplace, hlater] at hother
    rcases hkept with hincludes | hc
    · rcases hother.unique (hincludes.mono (List.subset_append_left _ _)) with heq | hc
      · exact Or.inl heq
      · exact Or.inr hc
    · exact Or.inr (hc.mono (List.subset_append_left _ _))

/-- **A followed log keeps what it has shown.** A leaf shown under the first checkpoint of a run can
be shown at its place under the last one, and nothing else can. -/
theorem follow_keeps_leaves (sha256 : Bytes → Hash) (head last : TreeHead)
    (steps : List (ConsistencyProof × Hash)) (shown : InclusionProof) (leaf : Hash)
    (hfollow : follow sha256 head steps = .ok last) (hsize : shown.size = head.size)
    (hshown : verifyInclusion sha256 shown leaf head.root = .ok ()) :
    ((∃ later : InclusionProof, later.index = shown.index ∧ later.size = last.size ∧
        verifyInclusion sha256 later leaf last.root = .ok ()) ∨
      Merkle.Collision (nodeHash sha256)
        (shownPairs sha256 shown leaf ++ followPairs sha256 head steps)) ∧
    ∀ (later : InclusionProof) (other : Hash), later.index = shown.index →
      later.size = last.size → verifyInclusion sha256 later other last.root = .ok () →
      other = leaf ∨ Merkle.Collision (nodeHash sha256)
        (shownPairs sha256 shown leaf ++ followPairs sha256 head steps ++
          shownPairs sha256 later other) :=
  leaves_of_follow hfollow hsize hshown

/-- The first leaf of a log that grows by a second. -/
theorem follow_keeps_leaves_second :
    let sha : Bytes → Hash := fun bytes => Vector.replicate 32 (UInt8.ofNat bytes.length)
    let a := leafHash sha [1]
    let b := leafHash sha [2, 3]
    let steps := [((⟨1, 2, [b]⟩ : ConsistencyProof), nodeHash sha a b)]
    follow sha ⟨1, a⟩ steps = .ok ⟨2, nodeHash sha a b⟩ ∧
      ((∃ later : InclusionProof, later.index = 0 ∧ later.size = 2 ∧
          verifyInclusion sha later a (nodeHash sha a b) = .ok ()) ∨
        Merkle.Collision (nodeHash sha)
          (shownPairs sha ⟨0, 1, []⟩ a ++ followPairs sha ⟨1, a⟩ steps)) := by
  intro sha a b steps
  have hshown : verifyInclusion sha ⟨0, 1, []⟩ a a = .ok () := by
    rw [verifyInclusion_eq_ok]
    rw [show (1 : UInt64).toNat = 1 from rfl, inclusionTurns_leaf le_rfl]
    exact ⟨by decide, by decide, rfl, rfl⟩
  have hfollow := follow_second sha a b
  exact ⟨hfollow,
    (follow_keeps_leaves sha ⟨1, a⟩ ⟨2, nodeHash sha a b⟩ steps ⟨0, 1, []⟩ a hfollow rfl hshown).1⟩

/-- **Followers who meet were never apart.** When two runs end in one checkpoint, the larger of
their first checkpoints can be proved to extend the smaller; first checkpoints of one size are the
same. -/
theorem followers_meet (sha256 : Bytes → Hash) (a b last : TreeHead)
    (steps steps' : List (ConsistencyProof × Hash)) (hpos : 0 < a.size) (hle : a.size ≤ b.size)
    (hmax : b.size.toNat ≤ 2 ^ 63) (ha : follow sha256 a steps = .ok last)
    (hb : follow sha256 b steps' = .ok last) :
    ((∃ proof : ConsistencyProof, proof.oldSize = a.size ∧ proof.newSize = b.size ∧
        verifyConsistency sha256 proof a.root b.root = .ok ()) ∧
      (a.size = b.size → a = b)) ∨
    Merkle.Collision (nodeHash sha256)
      (followPairs sha256 a steps ++ followPairs sha256 b steps') := by
  have hle' : a.size.toNat ≤ b.size.toNat := UInt64.le_iff_toNat_le.mp hle
  have hbpos : 0 < b.size := by
    have hpos' : 0 < a.size.toNat := UInt64.lt_iff_toNat_lt.mp hpos
    exact UInt64.lt_iff_toNat_lt.mpr (show 0 < b.size.toNat by omega)
  rcases extends_of_follow ha (List.subset_append_left _ (followPairs sha256 b steps')) hpos
    with hexta | hc
  · rcases extends_of_follow hb (List.subset_append_right (followPairs sha256 a steps) _) hbpos
      with hextb | hc
    · rcases hexta.between hextb hle' with hext | hc
      · refine Or.inl ⟨verifyConsistency_of_extends hext hmax, ?_⟩
        intro hsize
        have hroot := hext.eq_of_size (by rw [hsize])
        obtain ⟨size, root⟩ := a
        obtain ⟨size', root'⟩ := b
        rw [show size = size' from hsize, show root = root' from hroot]
      · exact Or.inr hc
    · exact Or.inr hc
  · exact Or.inr hc

/-- One follower starts where the other, which came from the first leaf, arrives. -/
theorem followers_meet_second :
    let sha : Bytes → Hash := fun bytes => Vector.replicate 32 (UInt8.ofNat bytes.length)
    let a := leafHash sha [1]
    let b := leafHash sha [2, 3]
    let steps := [((⟨1, 2, [b]⟩ : ConsistencyProof), nodeHash sha a b)]
    ((∃ proof : ConsistencyProof, proof.oldSize = 1 ∧ proof.newSize = 2 ∧
        verifyConsistency sha proof a (nodeHash sha a b) = .ok ()) ∧
      ((1 : UInt64) = 2 → (⟨1, a⟩ : TreeHead) = ⟨2, nodeHash sha a b⟩)) ∨
    Merkle.Collision (nodeHash sha)
      (followPairs sha ⟨1, a⟩ steps ++ followPairs sha ⟨2, nodeHash sha a b⟩ []) := by
  intro sha a b steps
  exact followers_meet sha ⟨1, a⟩ ⟨2, nodeHash sha a b⟩ ⟨2, nodeHash sha a b⟩ steps [] (by decide)
    (by decide) (by decide) (follow_second sha a b) rfl

end HideProtocol.Transparency
