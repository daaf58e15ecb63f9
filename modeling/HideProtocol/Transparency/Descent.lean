import HideProtocol.Lib.Checked
import HideProtocol.Lib.Panics
import HideProtocol.Transparency.InclusionTheorems

/-!
# The verifiers' descents on machine words

The sizes of a proof are chosen by the party being audited, so they are any 64-bit words. Here the
descents of the verifiers run on words, as in the source: a loop, with arithmetic that panics where
it would wrap around.

The measure is the number of bits: the split is the largest power of two strictly below a size, so
both halves have a bit less than the whole. That holds just above a power of two as well, where
one of the halves is a single leaf.
-/

namespace HideProtocol.Transparency.Descent

open Lib

/-- The assertion, and `1 << (n - 1).ilog2()`. -/
def largestPowerOfTwoBelow (n : UInt64) : Option UInt64 := do
  guard (n > 1)
  let below ← checkedSub n 1
  let exponent ← ilog2 below
  checkedShl 1 exponent

/-- Above one, nothing panics, and the word is the split point. -/
theorem largestPowerOfTwoBelow_eq_splitPoint {n : UInt64} (h : 1 < n) :
    ∃ split, largestPowerOfTwoBelow n = some split ∧
      split.toNat = Merkle.splitPoint n.toNat := by
  have hnat : 1 < n.toNat := UInt64.lt_iff_toNat_lt.mp h
  obtain ⟨below, hbelow, hval⟩ := checkedSub_of_le (UInt64.le_of_lt h)
  rw [UInt64.toNat_one] at hval
  have hlog : ilog2 below = some below.toNat.log2 := ilog2_of_pos (by omega)
  obtain ⟨split, hsplit, hpow⟩ := checkedShl_one (log2_toNat_lt below)
  refine ⟨split, ?_, ?_⟩
  · have hguard : (guard (n > 1) : Option Unit) = some () := if_pos h
    simp only [largestPowerOfTwoBelow, hguard, hbelow, hlog, hsplit, Option.bind_eq_bind,
      Option.bind_some]
  · rw [hpow, hval, Merkle.splitPoint, Nat.log2_eq_log_two]

/-! ## Inclusion -/

/-- The variables of the loop in `verify_inclusion`. -/
structure Inclusion where
  turns : List Bool := []
  index : UInt64
  size : UInt64
deriving DecidableEq

namespace Inclusion

/-- One iteration. -/
def body (s : Inclusion) : Option Inclusion := do
  let split ← largestPowerOfTwoBelow s.size
  if s.index < split then
    pure { s with turns := s.turns ++ [true], size := split }
  else
    let index ← checkedSub s.index split
    let size ← checkedSub s.size split
    pure { turns := s.turns ++ [false], index, size }

def loop : While Inclusion where
  test s := s.size > 1
  body := body

variable {s : Inclusion}

/-- What an iteration does, in numbers. -/
theorem body_goes (h : s.index < s.size) (htest : 1 < s.size) :
    ∃ t, body s = some t ∧
      ((s.index.toNat < Merkle.splitPoint s.size.toNat ∧ t.turns = s.turns ++ [true] ∧
          t.index = s.index ∧ t.size.toNat = Merkle.splitPoint s.size.toNat) ∨
        (Merkle.splitPoint s.size.toNat ≤ s.index.toNat ∧ t.turns = s.turns ++ [false] ∧
          t.index.toNat = s.index.toNat - Merkle.splitPoint s.size.toNat ∧
          t.size.toNat = s.size.toNat - Merkle.splitPoint s.size.toNat)) := by
  obtain ⟨split, hsplit, hval⟩ := largestPowerOfTwoBelow_eq_splitPoint htest
  unfold body
  rw [hsplit, Option.bind_eq_bind, Option.bind_some, ← hval]
  by_cases hturn : s.index < split
  · rw [if_pos hturn]
    exact ⟨_, rfl, Or.inl ⟨UInt64.lt_iff_toNat_lt.mp hturn, rfl, rfl, rfl⟩⟩
  · -- the split is at most the index, and the index is below the size: nothing goes below zero
    rw [if_neg hturn]
    have hle : split ≤ s.index := UInt64.not_lt.mp hturn
    obtain ⟨index, hindex, hindexval⟩ := checkedSub_of_le hle
    obtain ⟨size, hsize, hsizeval⟩ := checkedSub_of_le (UInt64.le_trans hle (UInt64.le_of_lt h))
    simp only [hindex, hsize, Option.bind_some]
    exact ⟨_, rfl, Or.inr ⟨UInt64.le_iff_toNat_le.mp hle, rfl, hindexval, hsizeval⟩⟩

/-- The levels of the tree. -/
def levels (s : Inclusion) : ℕ := Nat.clog 2 s.size.toNat

/-- The turns made, and those still to make. -/
def allTurns (s : Inclusion) : List Bool := s.turns ++ inclusionTurns s.index.toNat s.size.toNat

/-- The index stays below the size, and both halves have a level less. -/
theorem body_keeps (h : s.index < s.size) (htest : loop.test s = true) :
    ∃ t, loop.body s = some t ∧ (t.index < t.size ∧ t.allTurns = s.allTurns) ∧
      t.levels < s.levels := by
  have h1 : 1 < s.size := by simpa [loop] using htest
  have h2 : 2 ≤ s.size.toNat := UInt64.lt_iff_toNat_lt.mp h1
  have hlt : s.index.toNat < s.size.toNat := UInt64.lt_iff_toNat_lt.mp h
  have htwo := @Merkle.le_two_mul_splitPoint s.size.toNat
  obtain ⟨t, hbody, hturn⟩ := body_goes h h1
  refine ⟨t, hbody, ?_⟩
  rcases hturn with ⟨hleft, hturns, hindex, hsize⟩ | ⟨hright, hturns, hindex, hsize⟩
  · refine ⟨⟨UInt64.lt_iff_toNat_lt.mpr ?_, ?_⟩, Merkle.clog_lt_clog h2 (by omega)⟩
    · rw [hindex, hsize]
      exact hleft
    · rw [allTurns, allTurns, hturns, hindex, hsize, inclusionTurns_left h2 hleft,
        List.append_assoc, List.singleton_append]
  · -- the rest may be as large as the split, or a single leaf: it is never larger
    refine ⟨⟨UInt64.lt_iff_toNat_lt.mpr ?_, ?_⟩, Merkle.clog_lt_clog h2 (by omega)⟩
    · omega
    · rw [allTurns, allTurns, hturns, hindex, hsize, inclusionTurns_right h2 hright,
        List.append_assoc, List.singleton_append]

theorem loop_safe {index size : UInt64} (h : index < size) :
    loop.Safe (fun s => s.index < s.size ∧ s.allTurns = inclusionTurns index.toNat size.toNat) 64
      { index, size } := by
  show loop.Safe (fun s => s.index < s.size ∧ s.allTurns = allTurns { index, size }) 64 _
  apply While.safe_of_preserves (fun s hs htest => body_keeps hs htest) h
  exact Nat.clog_le_of_le_pow (Nat.le_of_lt size.toNat_lt)

/-- The loop ends with the turns that the verifier makes. -/
theorem run_turns {index size : UInt64} (h : index < size) :
    ∃ t, loop.run 64 { index, size } = some t ∧
      t.turns = inclusionTurns index.toNat size.toNat := by
  obtain ⟨n, hn, t, hends⟩ := (loop_safe h).ends
  obtain ⟨-, hturns⟩ := (loop_safe h).keeps n t hends.1
  have hstop : t.size.toNat ≤ 1 := by
    have hle : t.size ≤ 1 := by simpa [loop] using hends.2
    exact UInt64.le_iff_toNat_le.mp hle
  rw [allTurns, inclusionTurns_leaf hstop, List.append_nil] at hturns
  exact ⟨t, hends.run_eq hn, hturns⟩

end Inclusion

/-! ## Consistency -/

/-- The variables of the loop in `verify_consistency`. -/
structure Consistency where
  turns : List Bool := []
  oldSize : UInt64
  newSize : UInt64
  complete : Bool := true
deriving DecidableEq

namespace Consistency

/-- One iteration. -/
def body (s : Consistency) : Option Consistency := do
  let split ← largestPowerOfTwoBelow s.newSize
  if s.oldSize ≤ split then
    pure { s with turns := s.turns ++ [true], newSize := split }
  else
    let oldSize ← checkedSub s.oldSize split
    let newSize ← checkedSub s.newSize split
    pure { turns := s.turns ++ [false], oldSize, newSize, complete := false }

def loop : While Consistency where
  test s := s.oldSize != s.newSize
  body := body

/-- `1 ≤ old_size ≤ new_size`. -/
def Ordered (s : Consistency) : Prop := 1 ≤ s.oldSize ∧ s.oldSize ≤ s.newSize

variable {s : Consistency}

theorem Ordered.toNat (h : s.Ordered) : 1 ≤ s.oldSize.toNat ∧ s.oldSize.toNat ≤ s.newSize.toNat :=
  ⟨UInt64.le_iff_toNat_le.mp h.1, UInt64.le_iff_toNat_le.mp h.2⟩

/-- Sizes that are in order and differ: the new one is above one. -/
theorem Ordered.lt (h : s.Ordered) (htest : loop.test s = true) :
    s.oldSize.toNat < s.newSize.toNat := by
  have hne : s.oldSize ≠ s.newSize := by simpa [loop] using htest
  have hval : s.oldSize.toNat ≠ s.newSize.toNat := fun heq => hne (UInt64.toNat_inj.mp heq)
  have hle := h.toNat
  omega

theorem Ordered.one_lt (h : s.Ordered) (htest : loop.test s = true) : 1 < s.newSize := by
  have hlt := h.lt htest
  have hpos := h.toNat
  exact UInt64.lt_iff_toNat_lt.mpr (by rw [UInt64.toNat_one]; omega)

/-- What an iteration does, in numbers. -/
theorem body_goes (h : s.Ordered) (htest : loop.test s = true) :
    ∃ t, body s = some t ∧
      ((s.oldSize.toNat ≤ Merkle.splitPoint s.newSize.toNat ∧ t.turns = s.turns ++ [true] ∧
          t.oldSize = s.oldSize ∧ t.newSize.toNat = Merkle.splitPoint s.newSize.toNat ∧
          t.complete = s.complete) ∨
        (Merkle.splitPoint s.newSize.toNat < s.oldSize.toNat ∧ t.turns = s.turns ++ [false] ∧
          t.oldSize.toNat = s.oldSize.toNat - Merkle.splitPoint s.newSize.toNat ∧
          t.newSize.toNat = s.newSize.toNat - Merkle.splitPoint s.newSize.toNat ∧
          t.complete = false)) := by
  obtain ⟨split, hsplit, hval⟩ := largestPowerOfTwoBelow_eq_splitPoint (h.one_lt htest)
  unfold body
  rw [hsplit, Option.bind_eq_bind, Option.bind_some, ← hval]
  by_cases hturn : s.oldSize ≤ split
  · rw [if_pos hturn]
    exact ⟨_, rfl, Or.inl ⟨UInt64.le_iff_toNat_le.mp hturn, rfl, rfl, rfl, rfl⟩⟩
  · -- the split is below the old size, and so below the new one
    rw [if_neg hturn]
    have hlt : split < s.oldSize := UInt64.not_le.mp hturn
    have hle : split ≤ s.oldSize := UInt64.le_of_lt hlt
    obtain ⟨oldSize, hold, holdval⟩ := checkedSub_of_le hle
    obtain ⟨newSize, hnew, hnewval⟩ := checkedSub_of_le (UInt64.le_trans hle h.2)
    simp only [hold, hnew, Option.bind_some]
    exact ⟨_, rfl, Or.inr ⟨UInt64.lt_iff_toNat_lt.mp hlt, rfl, holdval, hnewval, rfl⟩⟩

/-- The levels of the new tree. -/
def levels (s : Consistency) : ℕ := Nat.clog 2 s.newSize.toNat

/-- The turns made and those still to make, and whether the old log is complete at the end. -/
def descent (s : Consistency) : List Bool × Bool :=
  let rest := consistencyTurns s.oldSize.toNat s.newSize.toNat s.complete
  (s.turns ++ rest.1, rest.2)

/-- The sizes stay in order, and both halves have a level less. -/
theorem body_keeps (h : s.Ordered) (htest : loop.test s = true) :
    ∃ t, loop.body s = some t ∧ (t.Ordered ∧ t.descent = s.descent) ∧ t.levels < s.levels := by
  have hlt := h.lt htest
  have hpos := h.toNat.1
  have hsplitlt := @Merkle.splitPoint_lt s.newSize.toNat (by omega)
  have htwo := @Merkle.le_two_mul_splitPoint s.newSize.toNat
  obtain ⟨t, hbody, hturn⟩ := body_goes h htest
  refine ⟨t, hbody, ?_⟩
  rcases hturn with ⟨hleft, hturns, hold, hnew, hcomplete⟩ | ⟨hright, hturns, hold, hnew, hcomplete⟩
  · refine ⟨⟨⟨?_, UInt64.le_iff_toNat_le.mpr ?_⟩, ?_⟩, Merkle.clog_lt_clog (by omega) (by omega)⟩
    · rw [hold]
      exact h.1
    · rw [hold, hnew]
      exact hleft
    · rw [descent, descent, hturns, hold, hnew, hcomplete, consistencyTurns_of_le hlt hpos hleft,
        List.append_assoc, List.singleton_append]
  · -- the old size was above the split, so at least one of its entries is left
    refine ⟨⟨⟨UInt64.le_iff_toNat_le.mpr ?_, UInt64.le_iff_toNat_le.mpr ?_⟩, ?_⟩,
      Merkle.clog_lt_clog (by omega) (by omega)⟩
    · rw [UInt64.toNat_one]
      omega
    · omega
    · rw [descent, descent, hturns, hold, hnew, hcomplete, consistencyTurns_of_gt hlt hpos hright,
        List.append_assoc, List.singleton_append]

theorem loop_safe {oldSize newSize : UInt64} (hpos : 1 ≤ oldSize) (hle : oldSize ≤ newSize) :
    loop.Safe (fun s => s.Ordered ∧
        s.descent = consistencyTurns oldSize.toNat newSize.toNat true) 64
      { oldSize, newSize } := by
  show loop.Safe (fun s => s.Ordered ∧ s.descent = descent { oldSize, newSize }) 64 _
  apply While.safe_of_preserves (fun s hs htest => body_keeps hs htest) ⟨hpos, hle⟩
  exact Nat.clog_le_of_le_pow (Nat.le_of_lt newSize.toNat_lt)

/-- The loop ends with the turns that the verifier makes, and with its flag. -/
theorem run_descent {oldSize newSize : UInt64} (hpos : 1 ≤ oldSize) (hle : oldSize ≤ newSize) :
    ∃ t, loop.run 64 { oldSize, newSize } = some t ∧
      (t.turns, t.complete) = consistencyTurns oldSize.toNat newSize.toNat true := by
  obtain ⟨n, hn, t, hends⟩ := (loop_safe hpos hle).ends
  obtain ⟨-, hdescent⟩ := (loop_safe hpos hle).keeps n t hends.1
  have hstop : t.oldSize = t.newSize := by simpa [loop] using hends.2
  rw [descent, hstop, consistencyTurns_refl, List.append_nil] at hdescent
  exact ⟨t, hends.run_eq hn, hdescent⟩

end Consistency

/-- Whatever sizes a proof claims, the descents end after at most 64 iterations. None of them
panics on the way: the split is taken above one only, nothing is subtracted from less, and no shift
leaves the word. The split is the largest power of two strictly below its argument. -/
theorem descents_end_safely :
    (∀ index size : UInt64, index < size →
      Inclusion.loop.Safe (fun s => s.index < s.size) 64 { index, size } ∧
      ∀ n s, Inclusion.loop.after n { index, size } = some s → Inclusion.loop.test s = true →
        1 < s.size) ∧
    (∀ oldSize newSize : UInt64, 1 ≤ oldSize → oldSize ≤ newSize →
      Consistency.loop.Safe Consistency.Ordered 64 { oldSize, newSize } ∧
      ∀ n s, Consistency.loop.after n { oldSize, newSize } = some s →
        Consistency.loop.test s = true → 1 < s.newSize) ∧
    ∀ n : UInt64, 1 < n → ∃ split, largestPowerOfTwoBelow n = some split ∧
      IsGreatest {p | (∃ k, p = 2 ^ k) ∧ p < n.toNat} split.toNat := by
  refine ⟨?_, ?_, ?_⟩
  · intro index size h
    refine ⟨(Inclusion.loop_safe h).imp fun s hs => hs.1, ?_⟩
    intro n s _ htest
    simpa [Inclusion.loop] using htest
  · intro oldSize newSize hpos hle
    have hsafe := Consistency.loop_safe hpos hle
    refine ⟨hsafe.imp fun s hs => hs.1, ?_⟩
    intro n s hafter htest
    exact (hsafe.keeps n s hafter).1.one_lt htest
  · intro n h
    obtain ⟨split, hsplit, hval⟩ := largestPowerOfTwoBelow_eq_splitPoint h
    refine ⟨split, hsplit, ?_⟩
    rw [hval]
    exact Merkle.isGreatest_splitPoint (UInt64.lt_iff_toNat_lt.mp h)

theorem descents_end_safely_absurd_sizes :
    Inclusion.loop.Safe (fun s => s.index < s.size) 64
      { index := 0xfffffffffffffffe, size := 0xffffffffffffffff } ∧
    Consistency.loop.Safe Consistency.Ordered 64 { oldSize := 1, newSize := 0x8000000000000001 } ∧
    ∃ split, largestPowerOfTwoBelow 0x8000000000000001 = some split ∧
      IsGreatest {p | (∃ k, p = 2 ^ k) ∧ p < (0x8000000000000001 : UInt64).toNat} split.toNat := by
  have hsafe := descents_end_safely
  refine ⟨?_, ?_, ?_⟩
  · exact (hsafe.1 _ _ (by decide)).1
  · exact (hsafe.2.1 _ _ (by decide) (by decide)).1
  · exact hsafe.2.2 _ (by decide)

/-- The bound is met: the first entry of the largest tree lies 64 levels down. -/
example : (Inclusion.loop.run 64 { index := 0, size := 0xffffffffffffffff }).map
    (fun s => s.turns.length) = some 64 := by
  decide +kernel

/-! ## The verifiers -/

section Verifiers
variable (sha256 : Bytes → Hash)

/-- `verify_inclusion`, whose loop may take `limit` iterations. -/
def verifyInclusion (limit : ℕ) (proof : InclusionProof) (leaf root : Hash) :
    Panics LogError Unit := do
  Panics.returns (failIf (proof.path.length > maxProofLen) (.proofTooLong proof.path.length))
  Panics.returns (failIf (proof.index ≥ proof.size) (.outOfRange proof.index proof.size))
  let s ← Panics.expect (Inclusion.loop.run limit { index := proof.index, size := proof.size })
  Panics.returns do
    failIf (s.turns.length ≠ proof.path.length) .badProof
    let hash := (proof.path.zip s.turns.reverse).foldl (inclusionStep sha256) leaf
    failIf (hash ≠ root) .badProof

/-- `verify_consistency`, whose loop may take `limit` iterations. -/
def verifyConsistency (limit : ℕ) (proof : ConsistencyProof) (oldRoot newRoot : Hash) :
    Panics LogError Unit := do
  Panics.returns (failIf (proof.path.length > maxProofLen) (.proofTooLong proof.path.length))
  Panics.returns (failIf (proof.oldSize = 0 ∨ proof.oldSize > proof.newSize)
    (.notAPrefix proof.oldSize proof.newSize))
  if proof.oldSize = proof.newSize then
    Panics.returns (failIf (¬(proof.path = [] ∧ oldRoot = newRoot)) .badProof)
  else
    let s ← Panics.expect
      (Consistency.loop.run limit { oldSize := proof.oldSize, newSize := proof.newSize })
    Panics.returns do
      failIf (proof.path.length ≠ s.turns.length + (!s.complete).toNat) .badProof
      let start ← consistencySeed s.complete proof.path oldRoot
      let hashes := (start.2.zip s.turns.reverse).foldl (consistencyStep sha256)
        (start.1, start.1)
      failIf (hashes.1 ≠ oldRoot ∨ hashes.2 ≠ newRoot) .badProof

variable {sha256}

/-- On words, the verifier answers every proof, as it does on numbers. -/
theorem verifyInclusion_returns (proof : InclusionProof) (leaf root : Hash) :
    verifyInclusion sha256 64 proof leaf root =
      Panics.returns (Transparency.verifyInclusion sha256 proof leaf root) := by
  unfold verifyInclusion Transparency.verifyInclusion
  apply Panics.bind_returns
  intro _ _
  apply Panics.bind_returns
  intro _ hrange
  have hlt : proof.index < proof.size := UInt64.not_le.mp (failIf_eq_ok.mp hrange)
  obtain ⟨s, hrun, hturns⟩ := Inclusion.run_turns hlt
  rw [hrun, Panics.expect_some, Panics.returns_ok_bind, hturns]

theorem verifyConsistency_returns (proof : ConsistencyProof) (oldRoot newRoot : Hash) :
    verifyConsistency sha256 64 proof oldRoot newRoot =
      Panics.returns (Transparency.verifyConsistency sha256 proof oldRoot newRoot) := by
  unfold verifyConsistency Transparency.verifyConsistency
  apply Panics.bind_returns
  intro _ _
  apply Panics.bind_returns
  intro _ hrange
  have hsizes := failIf_eq_ok.mp hrange
  by_cases heq : proof.oldSize = proof.newSize
  · rw [if_pos heq, if_pos heq]
  · rw [if_neg heq, if_neg heq]
    have hle : proof.oldSize ≤ proof.newSize := UInt64.not_lt.mp fun hlt => hsizes (Or.inr hlt)
    have hne : proof.oldSize.toNat ≠ 0 := fun hzero =>
      hsizes (Or.inl (UInt64.toNat_inj.mp hzero))
    have hpos : 1 ≤ proof.oldSize := by
      rw [UInt64.le_iff_toNat_le, UInt64.toNat_one]
      omega
    obtain ⟨s, hrun, hdescent⟩ := Consistency.run_descent hpos hle
    rw [hrun, Panics.expect_some, Panics.returns_ok_bind, ← hdescent]

end Verifiers

end HideProtocol.Transparency.Descent
