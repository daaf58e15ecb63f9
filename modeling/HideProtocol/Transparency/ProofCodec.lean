import HideProtocol.Lib.Chunks
import HideProtocol.Transparency.Tree

/-!
# Proofs as bytes

Both kinds of proof travel in one fixed layout: a tag, two sizes, a count and the hashes. Every
field has one encoding, so that the decoder needs no canonical check: it compares the count with
the limit and with the length.
-/

namespace HideProtocol.Transparency

open Lib

def inclusionTag : UInt8 := 0x01
def consistencyTag : UInt8 := 0x02
/-- `tag(1) || u64 || u64 || count(1)`. -/
def proofHeader : ℕ := 18

def encodeProof (tag : UInt8) (first second : UInt64) (path : List Hash) :
    Except LogError Bytes := do
  failIf (path.length > maxProofLen) (.proofTooLong path.length)
  pure ([tag] ++ beBytes 8 first.toNat ++ beBytes 8 second.toNat ++ [UInt8.ofNat path.length] ++
    path.flatMap Vector.toList)

/-- The count is checked against the limit and the exact length before anything is copied. -/
def decodeProof (tag : UInt8) (bytes : Bytes) : Except LogError (UInt64 × UInt64 × List Hash) := do
  failIf (bytes.length < proofHeader ∨ bytes[0]? ≠ some tag) .malformed
  -- eight bytes always convert
  let first := UInt64.ofNat (ofBe ((bytes.drop 1).take 8))
  let second := UInt64.ofNat (ofBe ((bytes.drop 9).take 8))
  let count := (bytes.getD 17 0).toNat
  failIf (count > maxProofLen) (.proofTooLong count)
  failIf (bytes.length ≠ proofHeader + 32 * count) .malformed
  let path ← (chunksExact 32 (bytes.drop proofHeader)).mapM fun chunk =>
    okOr (tryInto 32 chunk) .malformed
  pure (first, second, path)

def InclusionProof.encode (self : InclusionProof) : Except LogError Bytes :=
  encodeProof inclusionTag self.index self.size self.path

def InclusionProof.decode (bytes : Bytes) : Except LogError InclusionProof := do
  let (index, size, path) ← decodeProof inclusionTag bytes
  pure { index, size, path }

def ConsistencyProof.encode (self : ConsistencyProof) : Except LogError Bytes :=
  encodeProof consistencyTag self.oldSize self.newSize self.path

def ConsistencyProof.decode (bytes : Bytes) : Except LogError ConsistencyProof := do
  let (oldSize, newSize, path) ← decodeProof consistencyTag bytes
  pure { oldSize, newSize, path }

/-! ## The layout -/

/-- The bytes of a proof. -/
def proofBytes (tag : UInt8) (first second : UInt64) (path : List Hash) : Bytes :=
  [tag] ++ beBytes 8 first.toNat ++ beBytes 8 second.toNat ++ [UInt8.ofNat path.length] ++
    path.flatMap Vector.toList

theorem encodeProof_eq_ok {tag : UInt8} {first second : UInt64} {path : List Hash} {bytes : Bytes} :
    encodeProof tag first second path = .ok bytes ↔
      path.length ≤ maxProofLen ∧ bytes = proofBytes tag first second path := by
  unfold encodeProof
  rw [check_pure_eq_ok, failIf_eq_ok, not_lt]
  rfl

theorem encodeProof_too_long {tag : UInt8} {first second : UInt64} {path : List Hash}
    (h : maxProofLen < path.length) :
    encodeProof tag first second path = .error (.proofTooLong path.length) := by
  unfold encodeProof
  rw [failIf_pos _ h, error_bind]

theorem length_flatMap_toList (path : List Hash) :
    (path.flatMap Vector.toList).length = 32 * path.length := by
  rw [List.length_flatMap, List.map_congr_left fun hash _ => Vector.length_toList]
  simp [Nat.mul_comm]

/-- Hashes laid out behind each other are read back. -/
theorem mapM_tryInto (path : List Hash) :
    (path.map Vector.toList).mapM (fun chunk => okOr (tryInto 32 chunk) LogError.malformed) =
      .ok path := by
  induction path with
  | nil => rfl
  | cons hash path ih =>
    have hinto : tryInto 32 hash.toList = some hash := tryInto_toList hash
    rw [List.map_cons, List.mapM_cons, hinto, okOr_some, ok_bind, ih, ok_bind]
    rfl

/-- Whatever hashes are read are those that the chunks spell. -/
theorem flatten_of_mapM {chunks : List Bytes} {path : List Hash}
    (h : chunks.mapM (fun chunk => okOr (tryInto 32 chunk) LogError.malformed) = .ok path) :
    chunks.flatten = path.flatMap Vector.toList := by
  have hpairs := forall₂_of_mapM h
  clear h
  induction hpairs with
  | nil => rfl
  | cons hchunk _ ih =>
    rw [List.flatten_cons, List.flatMap_cons, ih, tryInto_eq_some (okOr_eq_ok.mp hchunk)]

/-- A byte string of sufficient length, cut where the fields of a proof stand. -/
theorem exists_fields {bytes : Bytes} (h : proofHeader ≤ bytes.length) :
    ∃ tag first second count rest, bytes = [tag] ++ first ++ second ++ [count] ++ rest ∧
      first.length = 8 ∧ second.length = 8 := by
  have h18 : proofHeader = 18 := rfl
  obtain ⟨tag, bytes, rfl⟩ := List.exists_cons_of_length_pos (by omega : 0 < bytes.length)
  rw [List.length_cons] at h
  obtain ⟨count, rest, hrest⟩ := List.exists_cons_of_length_pos
    (show 0 < ((bytes.drop 8).drop 8).length by rw [List.length_drop, List.length_drop]; omega)
  refine ⟨tag, bytes.take 8, (bytes.drop 8).take 8, count, rest, ?_, ?_, ?_⟩
  · calc tag :: bytes = tag :: (bytes.take 8 ++ ((bytes.drop 8).take 8 ++ (bytes.drop 8).drop 8)) := by
          rw [List.take_append_drop, List.take_append_drop]
      _ = [tag] ++ bytes.take 8 ++ (bytes.drop 8).take 8 ++ [count] ++ rest := by
          rw [hrest]
          simp
  · rw [List.length_take_of_le (by omega)]
  · rw [List.length_take_of_le (by rw [List.length_drop]; omega)]

/-- What the decoder does with the fields. -/
theorem decodeProof_fields {tag found count : UInt8} {first second rest : Bytes}
    (hfirst : first.length = 8) (hsecond : second.length = 8) :
    decodeProof tag ([found] ++ first ++ second ++ [count] ++ rest) = (do
      failIf (found ≠ tag) .malformed
      failIf (count.toNat > maxProofLen) (.proofTooLong count.toNat)
      failIf (rest.length ≠ 32 * count.toNat) .malformed
      let path ← (chunksExact 32 rest).mapM fun chunk => okOr (tryInto 32 chunk) .malformed
      pure (UInt64.ofNat (ofBe first), UInt64.ofNat (ofBe second), path)) := by
  have h18 : proofHeader = 18 := rfl
  have hlen : ([found] ++ first ++ second ++ [count] ++ rest).length = proofHeader + rest.length := by
    simp only [List.length_append, List.length_singleton, hfirst, hsecond, h18]
  have htag : ([found] ++ first ++ second ++ [count] ++ rest)[0]? = some found := rfl
  have hone : (([found] ++ first ++ second ++ [count] ++ rest).drop 1).take 8 = first := by
    simp only [List.append_assoc]
    exact List.take_left' hfirst
  have htwo : (([found] ++ first ++ second ++ [count] ++ rest).drop 9).take 8 = second := by
    have hleft : ([found] ++ first).length = 9 := by
      rw [List.length_append, List.length_singleton, hfirst]
    simp only [List.append_assoc]
    rw [← List.append_assoc [found] first, List.drop_left' hleft]
    exact List.take_left' hsecond
  have hleft : ([found] ++ first ++ second).length = 17 := by
    rw [List.length_append, List.length_append, List.length_singleton, hfirst, hsecond]
  have hcount : ([found] ++ first ++ second ++ [count] ++ rest).getD 17 0 = count := by
    rw [List.append_assoc, List.getD_eq_getElem?_getD, ← hleft, List.getElem?_append_right le_rfl,
      Nat.sub_self]
    rfl
  have hrest : ([found] ++ first ++ second ++ [count] ++ rest).drop proofHeader = rest := by
    apply List.drop_left'
    rw [List.length_append, hleft, h18]
    rfl
  unfold decodeProof
  simp only []
  rw [hone, htwo, hcount, hrest, hlen, htag]
  have hmalformed : (proofHeader + rest.length < proofHeader ∨ some found ≠ some tag) ↔
      found ≠ tag := by
    rw [ne_eq, Option.some_inj]
    constructor
    · intro h
      exact h.resolve_left (by omega)
    · exact Or.inr
  have hexact : proofHeader + rest.length ≠ proofHeader + 32 * count.toNat ↔
      rest.length ≠ 32 * count.toNat := by
    rw [ne_eq, Nat.add_left_cancel_iff]
  simp only [hmalformed, hexact]

/-- The decoder accepts the bytes of a proof and nothing else. -/
theorem decodeProof_eq_ok {tag : UInt8} {first second : UInt64} {path : List Hash} {bytes : Bytes} :
    decodeProof tag bytes = .ok (first, second, path) ↔
      path.length ≤ maxProofLen ∧ bytes = proofBytes tag first second path := by
  have h64 : maxProofLen = 64 := rfl
  constructor
  · intro h
    have hlong : proofHeader ≤ bytes.length := by
      unfold decodeProof at h
      obtain ⟨_, hcheck, -⟩ := bind_eq_ok.mp h
      rw [failIf_eq_ok, not_or, not_lt] at hcheck
      exact hcheck.1
    obtain ⟨found, first', second', count, rest, rfl, hfirst, hsecond⟩ := exists_fields hlong
    rw [decodeProof_fields hfirst hsecond] at h
    simp only [bind_eq_ok, failIf_eq_ok, pure_eq_ok, not_lt, not_not, ne_eq, exists_const,
      Prod.mk.injEq] at h
    obtain ⟨rfl, hcount, hlen, path', hpath, rfl, rfl, rfl⟩ := h
    have hrest : rest = path.flatMap Vector.toList := by
      rw [← flatten_of_mapM hpath, chunksExact, flatten_takeChunks]
      rw [hlen]
      omega
    have hsize : path.length = count.toNat := by
      rw [hrest, length_flatMap_toList] at hlen
      omega
    have hbyte : UInt8.ofNat path.length = count := by
      rw [hsize, UInt8.ofNat_toNat]
    have hfield : ∀ field : Bytes, field.length = 8 →
        beBytes 8 (UInt64.ofNat (ofBe field)).toNat = field := by
      intro field hfield
      have hlt : ofBe field < 2 ^ 64 := by
        have := ofBe_lt field
        rwa [hfield] at this
      rw [UInt64.toNat_ofNat_of_lt' hlt, beBytes_ofBe hfield]
    refine ⟨by omega, ?_⟩
    rw [proofBytes, hfield first' hfirst, hfield second' hsecond, hbyte, hrest]
  · intro h
    obtain ⟨hlen, rfl⟩ := h
    have hcount : (UInt8.ofNat path.length).toNat = path.length := by
      rw [UInt8.toNat_ofNat']
      omega
    have hvalue : ∀ n : UInt64, UInt64.ofNat (ofBe (beBytes 8 n.toNat)) = n := by
      intro n
      rw [ofBe_beBytes n.toNat_lt, UInt64.ofNat_toNat]
    rw [proofBytes, decodeProof_fields (length_beBytes _ _) (length_beBytes _ _), hcount,
      length_flatMap_toList, failIf_neg _ (by simp), ok_bind, failIf_neg _ (by omega), ok_bind,
      failIf_neg _ (by simp), ok_bind, chunksExact_flatMap (by omega) fun _ => Vector.length_toList,
      mapM_tryInto, ok_bind, hvalue, hvalue]
    rfl

/-- A proof says with its first byte of which kind it is. -/
theorem tag_of_decodeProof {tag : UInt8} {bytes : Bytes} {fields : UInt64 × UInt64 × List Hash}
    (h : decodeProof tag bytes = .ok fields) : bytes.head? = some tag := by
  obtain ⟨first, second, path⟩ := fields
  rw [(decodeProof_eq_ok.mp h).2]
  rfl

/-! ## Both kinds of proof -/

theorem InclusionProof.decode_eq_ok {proof : InclusionProof} {bytes : Bytes} :
    InclusionProof.decode bytes = .ok proof ↔ proof.encode = .ok bytes := by
  have hunfold : InclusionProof.decode bytes = .ok proof ↔
      decodeProof inclusionTag bytes = .ok (proof.index, proof.size, proof.path) := by
    unfold InclusionProof.decode
    rw [bind_eq_ok]
    constructor
    · intro h
      obtain ⟨⟨index, size, path⟩, hdecode, hproof⟩ := h
      rw [pure_eq_ok.mp hproof]
      exact hdecode
    · intro h
      exact ⟨_, h, rfl⟩
  rw [hunfold, decodeProof_eq_ok, InclusionProof.encode, encodeProof_eq_ok]

theorem ConsistencyProof.decode_eq_ok {proof : ConsistencyProof} {bytes : Bytes} :
    ConsistencyProof.decode bytes = .ok proof ↔ proof.encode = .ok bytes := by
  have hunfold : ConsistencyProof.decode bytes = .ok proof ↔
      decodeProof consistencyTag bytes = .ok (proof.oldSize, proof.newSize, proof.path) := by
    unfold ConsistencyProof.decode
    rw [bind_eq_ok]
    constructor
    · intro h
      obtain ⟨⟨oldSize, newSize, path⟩, hdecode, hproof⟩ := h
      rw [pure_eq_ok.mp hproof]
      exact hdecode
    · intro h
      exact ⟨_, h, rfl⟩
  rw [hunfold, decodeProof_eq_ok, ConsistencyProof.encode, encodeProof_eq_ok]

/-- No bytes are proofs of both kinds. -/
theorem not_both_kinds {bytes : Bytes} {inclusion : InclusionProof} {consistency : ConsistencyProof}
    (h : InclusionProof.decode bytes = .ok inclusion)
    (h' : ConsistencyProof.decode bytes = .ok consistency) : False := by
  unfold InclusionProof.decode at h
  unfold ConsistencyProof.decode at h'
  obtain ⟨_, hfields, -⟩ := bind_eq_ok.mp h
  obtain ⟨_, hfields', -⟩ := bind_eq_ok.mp h'
  have htag := tag_of_decodeProof hfields
  rw [tag_of_decodeProof hfields'] at htag
  exact absurd (Option.some.inj htag) (by decide)

/-- A proof is written or has too many hashes. -/
theorem encodeProof_cases (tag : UInt8) (first second : UInt64) (path : List Hash) :
    (path.length ≤ maxProofLen → ∃ bytes, encodeProof tag first second path = .ok bytes) ∧
      (maxProofLen < path.length →
        encodeProof tag first second path = .error (.proofTooLong path.length)) :=
  ⟨fun h => ⟨_, encodeProof_eq_ok.mpr ⟨h, rfl⟩⟩, encodeProof_too_long⟩

/-- **Proof byte encoding.** A proof of at most 64 hashes is written and read back, a longer one is
not written; what is read is written back as it was; and no bytes are read as both kinds. -/
theorem proof_codec_exact :
    (∀ proof : InclusionProof,
      (proof.path.length ≤ maxProofLen → (proof.encode >>= InclusionProof.decode) = .ok proof) ∧
      (maxProofLen < proof.path.length →
        proof.encode = .error (.proofTooLong proof.path.length))) ∧
    (∀ proof : ConsistencyProof,
      (proof.path.length ≤ maxProofLen → (proof.encode >>= ConsistencyProof.decode) = .ok proof) ∧
      (maxProofLen < proof.path.length →
        proof.encode = .error (.proofTooLong proof.path.length))) ∧
    (∀ bytes proof, InclusionProof.decode bytes = .ok proof → proof.encode = .ok bytes) ∧
    (∀ bytes proof, ConsistencyProof.decode bytes = .ok proof → proof.encode = .ok bytes) ∧
    ∀ bytes, ¬((∃ proof, InclusionProof.decode bytes = .ok proof) ∧
      ∃ proof, ConsistencyProof.decode bytes = .ok proof) := by
  refine ⟨?_, ?_, ?_, ?_, ?_⟩
  · intro proof
    have ⟨hshort, hlong⟩ := encodeProof_cases inclusionTag proof.index proof.size proof.path
    refine ⟨?_, hlong⟩
    intro hlen
    obtain ⟨bytes, hbytes⟩ := hshort hlen
    exact bind_eq_ok.mpr ⟨bytes, hbytes, InclusionProof.decode_eq_ok.mpr hbytes⟩
  · intro proof
    have ⟨hshort, hlong⟩ :=
      encodeProof_cases consistencyTag proof.oldSize proof.newSize proof.path
    refine ⟨?_, hlong⟩
    intro hlen
    obtain ⟨bytes, hbytes⟩ := hshort hlen
    exact bind_eq_ok.mpr ⟨bytes, hbytes, ConsistencyProof.decode_eq_ok.mpr hbytes⟩
  · intro bytes proof h
    exact InclusionProof.decode_eq_ok.mp h
  · intro bytes proof h
    exact ConsistencyProof.decode_eq_ok.mp h
  · intro bytes hboth
    obtain ⟨⟨inclusion, h⟩, consistency, h'⟩ := hboth
    exact not_both_kinds h h'

theorem proof_codec_exact_two_hashes :
    let proof : InclusionProof := ⟨1, 3, [Vector.replicate 32 7, Vector.replicate 32 9]⟩
    (proof.encode >>= InclusionProof.decode) = .ok proof :=
  (proof_codec_exact.1 _).1 (by decide)

end HideProtocol.Transparency
