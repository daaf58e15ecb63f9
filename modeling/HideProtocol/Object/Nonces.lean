import HideProtocol.Object.ContainerTheorems

/-!
# Nonces

Everything `encryptInner` asks the AEAD to seal, in order: the metadata once under its own key with
a constant nonce, and then the records under the payload key, each with a nonce made of its counter
and its kind. `sealAttempts` lists the calls that are made, also those of runs that fail later or
whose last call is refused; the calls that succeeded are an initial part of it. No call is made
twice with one key and one nonce (`nonces_never_reused`).
-/

namespace HideProtocol.Object

open Lib Format Crypto

section
variable (P : Crypto.Primitives)

/-- The nonces the loop of `encryptRecords` passes to the AEAD. -/
def recordAttempts (key objectId headerHash : Key) (current : Bytes) (input : Reader)
    (counter : ℕ) : List Nonce :=
  if _h : counter ≥ maxChunks then []
  else
    match readChunk input with
    | (.error _, _) => []
    | (.ok next, input) =>
      let kind := if next.length = 0 then final else data
      let aad := chunkAad objectId headerHash counter kind current.length
      nonce counter kind ::
        match sealInPlace P key (nonce counter kind) aad recordLen current with
        | .error _ => []
        | .ok _ =>
          if kind = final then []
          else recordAttempts key objectId headerHash next input (counter + 1)
termination_by maxChunks - counter

/-- The nonces `encryptRecords` passes to the AEAD. -/
def payloadAttempts (key objectId headerHash : Key) (input : Reader) : List Nonce :=
  match readChunk input with
  | (.error _, _) => []
  | (.ok current, input) => recordAttempts P key objectId headerHash current input 0

variable (S : Sign.Primitives)

/-- The metadata as it is sealed, with a confidential signature in it. -/
def finalMetadata (metadata : Metadata) (material : ObjectMaterial)
    (recipients : List RecipientStanza) (signer : Option Signer) (shape : VectorShape)
    (plaintext : Bytes) : Except ObjectError Bytes := do
  let (_, metadata) ← signContents P S metadata material recipients signer shape plaintext
  mapErr ObjectError.format metadata.encode

/-- The calls of a run over a header that is still to be prepared, with `input` to encrypt. -/
def containerAttempts (metadata : Metadata) (material : ObjectMaterial)
    (recipients : List RecipientStanza) (signer : Option Signer) (shape : VectorShape)
    (plaintext : Bytes) (input : Reader) : List (KeyLabel × Nonce) :=
  match finalMetadata P S metadata material recipients signer shape plaintext with
  | .error _ => []
  | .ok _ =>
    (.metadata, metadataNonce) ::
      match prepare P S metadata material recipients signer shape plaintext with
      | .error _ => []
      | .ok prepared =>
        (payloadAttempts P (payloadKey P material.cek material.objectId material.payloadSalt)
          material.objectId (hash P [prepared.protectedBytes]) input).map (KeyLabel.payload, ·)

/-- The key and the nonce of every call of `encryptInner` to the AEAD, in order. -/
def sealAttempts (input : Reader) (metadata : Metadata) (material : ObjectMaterial)
    (recipients : List RecipientStanza) (signer : Option Signer) (shape : VectorShape) :
    List (KeyLabel × Nonce) :=
  match signer with
  | none => containerAttempts P S metadata material recipients none shape [] input
  | some signer =>
    match readSigned input with
    | .error _ => []
    | .ok plaintext =>
      containerAttempts P S metadata material recipients (some signer) shape plaintext
        (Reader.ofBytes plaintext)

end

/-! ## The records -/

/-- The nonces of `n` records from `counter` on, all of them `DATA` but the last. -/
def recordNonces (counter n : ℕ) (kind : UInt8) : List Nonce :=
  (List.range n).map fun k => nonce (counter + k) (if k + 1 = n then kind else data)

theorem recordNonces_succ (counter n : ℕ) (kind : UInt8) (hn : 0 < n) :
    recordNonces counter (n + 1) kind = nonce counter data :: recordNonces (counter + 1) n kind := by
  unfold recordNonces
  rw [List.range_succ_eq_map, List.map_cons, List.map_map]
  apply congrArg₂ List.cons
  · rw [Nat.add_zero, if_neg (by omega)]
  · apply List.map_congr_left
    intro k _
    have hcounter : counter + (k + 1) = counter + 1 + k := by omega
    simp only [Function.comp_apply, Nat.succ_eq_add_one, hcounter, Nat.add_right_cancel_iff]

/-- What the loop passes to the AEAD, next to what it sealed. -/
structure Attempts (counter : ℕ) (run : Encryption) (attempts : List Nonce) : Prop where
  shape : ∃ n kind, counter + n ≤ max counter maxChunks ∧ (kind = data ∨ kind = final) ∧
    attempts = recordNonces counter n kind ∧
    ((∃ total, run.result = .ok total) → 0 < n ∧ kind = final)
  seals : run.seals.map SealCall.nonce <+: attempts
  complete : (∃ total, run.result = .ok total) → run.seals.map SealCall.nonce = attempts

/-- A run that stops before it calls the AEAD. -/
theorem attempts_nil (counter : ℕ) (error : ObjectError) :
    Attempts counter { result := .error error } [] where
  shape := ⟨0, data, by omega, Or.inl rfl, rfl, fun h => by simp at h⟩
  seals := List.nil_prefix
  complete := fun h => by simp at h

section
variable (P : Crypto.Primitives) (key objectId headerHash : Key)

theorem attempts_encryptLoop {current : Bytes} (input : Reader) (counter total : ℕ)
    (hlen : current.length ≤ chunkLen) :
    Attempts counter (encryptLoop P key objectId headerHash current input counter total)
      (recordAttempts P key objectId headerHash current input counter) := by
  -- on the counters that are left
  induction hm : maxChunks - counter generalizing current input counter total with
  | zero =>
    rw [encryptLoop, dif_pos (by omega), recordAttempts, dif_pos (by omega)]
    exact attempts_nil counter _
  | succ m ih =>
    have hne : data ≠ final := by decide
    rcases encryptLoop_turn P key objectId headerHash input counter total hlen with
      ⟨hge, -⟩ | ⟨hlt, error, after, hread, heq⟩ | ⟨hlt, next, after, hread, hseal, heq⟩ |
      ⟨hlt, after, ciphertext, hread, hseal, heq⟩ |
      ⟨hlt, next, after, ciphertext, hread, hnext, hseal, heq⟩
    · omega
    · rw [heq, recordAttempts, dif_neg (by omega), hread]
      exact attempts_nil counter _
    · -- the one call that was made is refused
      have hattempts : recordAttempts P key objectId headerHash current input counter =
          recordNonces counter 1 (if next.length = 0 then final else data) := by
        rw [recordAttempts, dif_neg (by omega), hread]
        simp only [sealInPlace_chunk P key hlen, hseal]
        rfl
      rw [heq, hattempts]
      refine ⟨⟨1, _, by omega, ?_, rfl, fun h => by simp at h⟩, List.nil_prefix,
        fun h => by simp at h⟩
      by_cases hempty : next.length = 0
      · rw [if_pos hempty]
        exact Or.inr rfl
      · rw [if_neg hempty]
        exact Or.inl rfl
    · have hattempts : recordAttempts P key objectId headerHash current input counter =
          recordNonces counter 1 final := by
        rw [recordAttempts, dif_neg (by omega), hread]
        simp only [sealInPlace_chunk P key hlen, List.length_nil, if_true, hseal]
        rfl
      rw [heq, hattempts]
      exact ⟨⟨1, final, by omega, Or.inr rfl, rfl, fun _ => ⟨Nat.one_pos, rfl⟩⟩,
        List.prefix_refl _, fun _ => rfl⟩
    · have hattempts : recordAttempts P key objectId headerHash current input counter =
          nonce counter data ::
            recordAttempts P key objectId headerHash next after (counter + 1) := by
        have hempty : ¬next.length = 0 := by rwa [List.length_eq_zero_iff]
        rw [recordAttempts, dif_neg (by omega), hread]
        simp only [sealInPlace_chunk P key hlen, if_neg hempty, hseal, okOr_some, if_neg hne]
      obtain ⟨⟨n, kind, hn, hkind, hshape, hfinal⟩, hseals, hcomplete⟩ :=
        ih after (counter + 1) (total + current.length) (length_of_readChunk hread) (by omega)
      rw [heq, hattempts]
      refine ⟨?_, ?_, ?_⟩
      · rcases Nat.eq_zero_or_pos n with rfl | hpos
        · -- the next turn stops before it seals
          refine ⟨1, data, by omega, Or.inl rfl, ?_, ?_⟩
          · rw [hshape]
            rfl
          · intro hok
            have := (hfinal hok).1
            omega
        · refine ⟨n + 1, kind, by omega, hkind, ?_, ?_⟩
          · rw [hshape, recordNonces_succ counter n kind hpos]
          · intro hok
            exact ⟨by omega, (hfinal hok).2⟩
      · exact (List.prefix_cons_inj _).mpr hseals
      · intro hok
        show nonce counter data :: _ = _
        rw [hcomplete hok]

theorem attempts_encryptRecords (input : Reader) :
    Attempts 0 (encryptRecords P key objectId headerHash input)
      (payloadAttempts P key objectId headerHash input) := by
  unfold encryptRecords payloadAttempts
  rcases hread : readChunk input with ⟨error | current, after⟩
  · exact attempts_nil 0 _
  · exact attempts_encryptLoop P key objectId headerHash after 0 0 (length_of_readChunk hread)

end

/-- Within the limit, no two records have one nonce. -/
theorem nodup_recordNonces {counter n : ℕ} (kind : UInt8) (h : counter + n ≤ maxChunks) :
    (recordNonces counter n kind).Nodup := by
  unfold recordNonces
  rw [List.nodup_iff_pairwise_ne, List.pairwise_map]
  apply List.pairwise_lt_range.imp_of_mem
  intro i j hi hj hlt heq
  rw [List.mem_range] at hi hj
  have := (nonce_inj (by omega) (by omega) heq).1
  omega

/-! ## Whole runs -/

section
variable (P : Crypto.Primitives) (S : Sign.Primitives) (metadata : Metadata)
  (material : ObjectMaterial) (recipients : List RecipientStanza) (shape : VectorShape)

/-- The calls of a run: none, or one for the metadata and then those of the records. -/
structure RunAttempts (run : ObjectEncryption) (attempts : List (KeyLabel × Nonce)) : Prop where
  shape : attempts = [] ∨ ∃ n kind, n ≤ maxChunks ∧ (kind = data ∨ kind = final) ∧
    attempts = (.metadata, metadataNonce) :: (recordNonces 0 n kind).map (KeyLabel.payload, ·) ∧
    ((∃ total, run.result = .ok total) → 0 < n ∧ kind = final)
  seals : (run.seals.map fun call => (call.1, call.2.nonce)) <+: attempts
  complete : (∃ total, run.result = .ok total) → attempts ≠ [] ∧
    (run.seals.map fun call => (call.1, call.2.nonce)) = attempts

theorem runAttempts_error (error : ObjectError) {attempts : List (KeyLabel × Nonce)}
    (h : attempts = [] ∨ attempts = [(.metadata, metadataNonce)]) :
    RunAttempts { result := .error error } attempts := by
  refine ⟨?_, List.nil_prefix, fun h => by simp at h⟩
  rcases h with h | h
  · exact Or.inl h
  · exact Or.inr ⟨0, data, Nat.zero_le _, Or.inl rfl, h, fun h => by simp at h⟩

/-- What is sealed first in a run that prepares its header. -/
theorem metadataSeal_nonce {signer : Option Signer} {plaintext : Bytes} {prepared : Prepared}
    (h : prepare P S metadata material recipients signer shape plaintext = .ok prepared) :
    prepared.metadataSeal.nonce = metadataNonce ∧
      ∃ encoded, finalMetadata P S metadata material recipients signer shape plaintext =
        .ok encoded := by
  unfold prepare at h
  obtain ⟨⟨header, metadata'⟩, hsign, h⟩ := bind_eq_ok.mp h
  obtain ⟨encoded, hencoded, h⟩ := bind_eq_ok.mp h
  obtain ⟨sealed, -, h⟩ := bind_eq_ok.mp h
  obtain ⟨protectedBytes, -, h⟩ := bind_eq_ok.mp h
  obtain ⟨sized, -, h⟩ := bind_eq_ok.mp h
  obtain ⟨preamble, -, h⟩ := bind_eq_ok.mp h
  obtain ⟨headerBytes, -, h⟩ := bind_eq_ok.mp h
  rw [pure_eq_ok] at h
  subst h
  refine ⟨rfl, encoded, ?_⟩
  rw [finalMetadata, hsign, ok_bind]
  exact hencoded

theorem runAttempts_container (signer : Option Signer) (plaintext : Bytes) (input : Reader) :
    RunAttempts
      (match prepare P S metadata material recipients signer shape plaintext with
        | .error error => { result := .error error }
        | .ok prepared => writeContainer P material prepared input)
      (containerAttempts P S metadata material recipients signer shape plaintext input) := by
  unfold containerAttempts
  rcases hprepare : prepare P S metadata material recipients signer shape plaintext with
    error | prepared
  · rcases finalMetadata P S metadata material recipients signer shape plaintext with _ | _
    · exact runAttempts_error error (Or.inl rfl)
    · exact runAttempts_error error (Or.inr rfl)
  · obtain ⟨hnonce, encoded, hencoded⟩ :=
      metadataSeal_nonce P S metadata material recipients shape hprepare
    obtain ⟨⟨n, kind, hn, hkind, hshape, hfinal⟩, hseals, hcomplete⟩ := attempts_encryptRecords P
      (payloadKey P material.cek material.objectId material.payloadSalt) material.objectId
      (hash P [prepared.protectedBytes]) input
    have hmap : ((writeContainer P material prepared input).seals.map
        fun call => (call.1, call.2.nonce)) = (.metadata, metadataNonce) ::
          ((encryptRecords P (payloadKey P material.cek material.objectId material.payloadSalt)
            material.objectId (hash P [prepared.protectedBytes]) input).seals.map
            SealCall.nonce).map (KeyLabel.payload, ·) := by
      simp [writeContainer, hnonce, Function.comp_def]
    rw [hencoded]
    refine ⟨Or.inr ⟨n, kind, ?_, hkind, ?_, hfinal⟩, ?_, ?_⟩
    · rw [Nat.zero_add, Nat.max_eq_right (Nat.zero_le _)] at hn
      exact hn
    · simp only [hshape]
    · rw [hmap]
      exact (List.prefix_cons_inj _).mpr (hseals.map _)
    · intro hok
      refine ⟨List.cons_ne_nil _ _, ?_⟩
      rw [hmap, hcomplete hok]

theorem runAttempts_encryptInner (input : Reader) (signer : Option Signer) :
    RunAttempts (encryptInner P S input metadata material recipients signer shape)
      (sealAttempts P S input metadata material recipients signer shape) := by
  unfold encryptInner sealAttempts
  rcases signer with _ | signer
  · exact runAttempts_container P S metadata material recipients shape none [] input
  · rcases readSigned input with error | plaintext
    · exact runAttempts_error error (Or.inl rfl)
    · exact runAttempts_container P S metadata material recipients shape (some signer) plaintext
        (Reader.ofBytes plaintext)

end

/-- **No nonce is reused.** In every run of `encryptInner`, whatever its input, its reader and its
signer, the calls to the AEAD have pairwise different pairs of a key and a nonce. They are none at
all, or the metadata once and then one record for each counter from zero on, at most `maxChunks` of
them; if the run succeeds, these are all the seals it made, and the last record is the one that is
`FINAL`. The counter of a record stands in its nonce undiminished. -/
theorem nonces_never_reused (P : Crypto.Primitives) (S : Sign.Primitives) (input : Reader)
    (metadata : Metadata) (material : ObjectMaterial) (recipients : List RecipientStanza)
    (signer : Option Signer) (shape : VectorShape) :
    (sealAttempts P S input metadata material recipients signer shape).Nodup ∧
    RunAttempts (encryptInner P S input metadata material recipients signer shape)
      (sealAttempts P S input metadata material recipients signer shape) ∧
    ∀ counter kind, counter < maxChunks →
      (nonce counter kind).toList =
        [0, 0, 0] ++ beBytes 8 counter ++ [if kind = final then 1 else 0] ∧
      ofBe (beBytes 8 counter) = counter := by
  have hrun := runAttempts_encryptInner P S metadata material recipients shape input signer
  refine ⟨?_, hrun, ?_⟩
  · rcases hrun.shape with hnil | ⟨n, kind, hn, -, hattempts, -⟩
    · rw [hnil]
      exact List.nodup_nil
    · rw [hattempts, List.nodup_cons]
      constructor
      · simp
      · rw [List.nodup_iff_pairwise_ne, List.pairwise_map]
        apply (nodup_recordNonces kind (by omega)).imp
        intro a b hne heq
        exact hne (Prod.mk.inj heq).2
  · intro counter kind hlt
    have hmax : maxChunks < 256 ^ 8 := by decide
    exact ⟨toList_nonce counter kind, ofBe_beBytes (by omega)⟩

end HideProtocol.Object
