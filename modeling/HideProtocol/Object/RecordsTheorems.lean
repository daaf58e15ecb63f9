import HideProtocol.Object.Records

/-!
# The payload stream is exact

With an ideal AEAD, `decryptRecords` accepts one byte string only, the output of the run that
sealed the records. The counter and the kind in the nonce pin every record to its place, so the
reader and the writer are followed record by record (`decryptLoop_exact`): at each counter the
reader either opens exactly the record the writer sealed there, or fails.
-/

namespace HideProtocol.Object

open Lib Format Crypto

/-! ## Nonces and records -/

theorem toList_nonce (counter : ℕ) (kind : UInt8) :
    (nonce counter kind).toList =
      [0, 0, 0] ++ beBytes 8 counter ++ [if kind = final then 1 else 0] := rfl

/-- The nonce determines the counter and whether the record is the last. -/
theorem nonce_inj {counter counter' : ℕ} {kind kind' : UInt8} (hc : counter < maxChunks)
    (hc' : counter' < maxChunks) (h : nonce counter kind = nonce counter' kind') :
    counter = counter' ∧ (kind = final ↔ kind' = final) := by
  have hmax : maxChunks < 256 ^ 8 := by decide
  have hlist := congrArg Vector.toList h
  rw [toList_nonce, toList_nonce] at hlist
  obtain ⟨hpre, hlast⟩ := List.append_inj hlist (by simp)
  refine ⟨beBytes_inj (by omega) (by omega) (List.append_cancel_left hpre), ?_⟩
  by_cases hk : kind = final <;> by_cases hk' : kind' = final <;> simp [hk, hk'] at hlast ⊢

theorem readPayload_eq_ok {n : ℕ} {input bytes rest : Bytes} :
    readPayload n input = .ok (bytes, rest) ↔ bytes.length = n ∧ input = bytes ++ rest := by
  unfold readPayload
  split
  next hlt =>
    constructor
    · intro h
      cases h
    · intro ⟨hlen, heq⟩
      rw [heq, List.length_append] at hlt
      omega
  next hge =>
    simp only [Except.ok.injEq, Prod.mk.injEq]
    constructor
    · intro ⟨h₁, h₂⟩
      rw [← h₁, ← h₂, List.length_take, List.take_append_drop]
      exact ⟨by omega, rfl⟩
    · intro ⟨hlen, heq⟩
      rw [heq, List.take_left' hlen, List.drop_left' hlen]
      exact ⟨rfl, rfl⟩

theorem recordLength_eq_ok {kind : UInt8} {ciphertextLen counter length : ℕ} :
    recordLength kind ciphertextLen counter = .ok length ↔
      ciphertextLen = length + tagLen ∧
        ((kind = data ∧ length = chunkLen) ∨
          (kind = final ∧ length ≤ chunkLen ∧ (length > 0 ∨ counter = 0))) := by
  have hne : data ≠ final := by decide
  unfold recordLength
  simp only [bind_eq_ok, failIf_eq_ok, not_not]
  constructor
  · rintro ⟨_, hbounds, h⟩
    split at h
    next hdata =>
      rw [pure_eq_ok] at h
      exact ⟨by omega, Or.inl ⟨hdata.1, by omega⟩⟩
    next =>
      split at h
      next hfinal =>
        rw [pure_eq_ok] at h
        exact ⟨by omega, Or.inr ⟨hfinal.1, by omega, by omega⟩⟩
      next => cases h
  · rintro ⟨hlen, h⟩
    refine ⟨(), ?_, ?_⟩
    · omega
    · rw [hlen, Nat.add_sub_cancel]
      rcases h with h | ⟨hkind, -, h⟩
      · rw [if_pos h]
        rfl
      · rw [if_neg (by rw [hkind]; exact fun h => hne h.1.symm), if_pos ⟨hkind, h⟩]
        rfl

/-- A record is read exactly where one was written, with a length the reader admits. -/
theorem readRecord_eq_ok {counter : ℕ} {input : Bytes} {record : RecordRead} :
    readRecord counter input = .ok record ↔
      input = encodeRecord record.kind record.ciphertext ++ record.rest ∧
      recordLength record.kind record.ciphertext.length counter = .ok record.length := by
  unfold readRecord
  simp only [bind_eq_ok, pure_eq_ok, Prod.exists]
  constructor
  · rintro ⟨header, input', hheader, length, hlength, ciphertext, rest, hciphertext, heq⟩
    obtain ⟨hlen, hinput⟩ := readPayload_eq_ok.mp hheader
    obtain ⟨hclen, hinput'⟩ := readPayload_eq_ok.mp hciphertext
    subst heq
    cases header with
    | nil => cases hlen
    | cons kind field =>
      have hfield : field.length = 4 := by simpa using hlen
      simp only [List.headD_cons, List.tail_cons] at hlength hclen ⊢
      refine ⟨?_, by rw [hclen]; exact hlength⟩
      rw [hinput, hinput', encodeRecord, hclen, beBytes_ofBe hfield]
      simp
  · rintro ⟨hinput, hlength⟩
    have hbound : record.ciphertext.length < 256 ^ 4 := by
      have := recordLength_eq_ok.mp hlength
      unfold chunkLen tagLen at this
      omega
    refine ⟨record.kind :: beBytes 4 record.ciphertext.length, record.ciphertext ++ record.rest,
      ?_, record.length, ?_, record.ciphertext, record.rest, ?_, rfl⟩
    · apply readPayload_eq_ok.mpr
      refine ⟨by simp, ?_⟩
      rw [hinput, encodeRecord]
      simp
    · rw [List.headD_cons, List.tail_cons, ofBe_beBytes hbound]
      exact hlength
    · rw [List.tail_cons, ofBe_beBytes hbound]
      exact readPayload_eq_ok.mpr ⟨rfl, rfl⟩

/-! ## The writer -/

/-- The call that seals one chunk. -/
def sealCall (objectId headerHash : Key) (counter : ℕ) (kind : UInt8) (plaintext ciphertext : Bytes) :
    SealCall :=
  { nonce := nonce counter kind
    aad := chunkAad objectId headerHash counter kind plaintext.length
    plaintext, ciphertext }

section
variable (P : Crypto.Primitives) (key objectId headerHash : Key)

/-- A chunk with something after it is full. -/
theorem length_take_of_drop {n : ℕ} {bytes : Bytes} (h : bytes.drop n ≠ []) :
    (bytes.take n).length = n := by
  have := List.length_pos_iff.mpr h
  rw [List.length_drop] at this
  rw [List.length_take]
  omega

/-- A run starts its loop at the first chunk. -/
theorem encryptRecords_eq {input : Reader} {plaintext : Bytes}
    (hinput : input.Delivers plaintext) :
    ∃ after : Reader, after.Delivers (plaintext.drop chunkLen) ∧
      encryptRecords P key objectId headerHash input =
        encryptLoop P key objectId headerHash (plaintext.take chunkLen) after 0 0 := by
  obtain ⟨after, hread, hafter⟩ := Reader.readUpTo_of_delivers hinput chunkLen
  refine ⟨after, hafter, ?_⟩
  rw [encryptRecords, readChunk, hread]

/-- What is read fits the buffer it is read into. -/
theorem length_of_readChunk {input after : Reader} {chunk : Bytes}
    (h : readChunk input = (.ok chunk, after)) : chunk.length ≤ chunkLen :=
  Reader.length_of_readUpTo h

/-- A chunk fits the buffer it is sealed in. -/
theorem sealInPlace_chunk {current : Bytes} (hlen : current.length ≤ chunkLen) (n : Nonce)
    (aad : Bytes) :
    sealInPlace P key n aad recordLen current =
      okOr (P.aeadSeal key n aad current) .authentication := by
  have hcap : current.length + tagLength ≤ recordLen := by
    simp only [recordLen, tagLength, tagLen]
    omega
  unfold sealInPlace
  rw [failIf_neg _ (by omega), ok_bind, failIf_neg _ (by omega)]
  rcases P.aeadSeal key n aad current with _ | sealed <;> rfl

/-- One turn of the writer, whatever the reader does: it stops before or at the look-ahead, or
the AEAD refuses, or it seals the last chunk, or seals a chunk and goes on with the next. -/
theorem encryptLoop_turn {current : Bytes} (input : Reader) (counter total : ℕ)
    (hlen : current.length ≤ chunkLen) :
    (maxChunks ≤ counter ∧ encryptLoop P key objectId headerHash current input counter total =
      { result := .error .objectTooLarge }) ∨
    (counter < maxChunks ∧ ∃ error after, readChunk input = (.error error, after) ∧
      encryptLoop P key objectId headerHash current input counter total =
        { result := .error (.io error) }) ∨
    (counter < maxChunks ∧ ∃ next after, readChunk input = (.ok next, after) ∧
      P.aeadSeal key (nonce counter (if next.length = 0 then final else data))
        (chunkAad objectId headerHash counter (if next.length = 0 then final else data)
          current.length) current = none ∧
      encryptLoop P key objectId headerHash current input counter total =
        { result := .error (.crypto .authentication) }) ∨
    (counter < maxChunks ∧ ∃ after ciphertext, readChunk input = (.ok [], after) ∧
      P.aeadSeal key (nonce counter final)
        (chunkAad objectId headerHash counter final current.length) current = some ciphertext ∧
      encryptLoop P key objectId headerHash current input counter total =
        { output := encodeRecord final ciphertext
          seals := [sealCall objectId headerHash counter final current ciphertext]
          result := .ok (total + current.length) }) ∨
    (counter < maxChunks ∧ ∃ next after ciphertext, readChunk input = (.ok next, after) ∧
      next ≠ [] ∧
      P.aeadSeal key (nonce counter data)
        (chunkAad objectId headerHash counter data current.length) current = some ciphertext ∧
      encryptLoop P key objectId headerHash current input counter total =
        let more := encryptLoop P key objectId headerHash next after (counter + 1)
          (total + current.length)
        { output := encodeRecord data ciphertext ++ more.output
          seals := sealCall objectId headerHash counter data current ciphertext :: more.seals
          result := more.result }) := by
  by_cases hlt : counter < maxChunks
  · right
    rcases hread : readChunk input with ⟨error | next, after⟩
    · left
      refine ⟨hlt, error, after, rfl, ?_⟩
      rw [encryptLoop, dif_neg (by omega), hread]
    · right
      have hne : data ≠ final := by decide
      rw [encryptLoop, dif_neg (by omega), hread]
      simp only [sealInPlace_chunk P key hlen]
      by_cases hnext : next = []
      · -- nothing follows: this is the last record
        subst hnext
        rw [if_pos List.length_nil]
        rcases hseal : P.aeadSeal key (nonce counter final)
          (chunkAad objectId headerHash counter final current.length) current with _ | ciphertext
        · left
          exact ⟨hlt, [], after, rfl, hseal, rfl⟩
        · right
          left
          exact ⟨hlt, after, ciphertext, rfl, rfl, rfl⟩
      · rw [if_neg (by rwa [List.length_eq_zero_iff])]
        rcases hseal : P.aeadSeal key (nonce counter data)
          (chunkAad objectId headerHash counter data current.length) current with _ | ciphertext
        · left
          refine ⟨hlt, next, after, rfl, ?_, rfl⟩
          rw [if_neg (by rwa [List.length_eq_zero_iff])]
          exact hseal
        · right
          right
          exact ⟨hlt, next, after, ciphertext, rfl, hnext, rfl, if_neg hne⟩
  · left
    rw [encryptLoop, dif_pos (by omega)]
    exact ⟨by omega, rfl⟩

/-- One turn of the writer, on an input that still delivers `rest`. -/
theorem encryptLoop_cases {current rest : Bytes} {input : Reader} (counter total : ℕ)
    (hinput : input.Delivers rest) (hlen : current.length ≤ chunkLen) :
    (∃ error, (maxChunks ≤ counter ∧ error = .objectTooLarge ∨
        ∃ nonce aad, P.aeadSeal key nonce aad current = none) ∧
      encryptLoop P key objectId headerHash current input counter total =
        { result := .error error }) ∨
    (rest = [] ∧ counter < maxChunks ∧ ∃ ciphertext,
      P.aeadSeal key (nonce counter final)
        (chunkAad objectId headerHash counter final current.length) current = some ciphertext ∧
      encryptLoop P key objectId headerHash current input counter total =
        { output := encodeRecord final ciphertext
          seals := [sealCall objectId headerHash counter final current ciphertext]
          result := .ok (total + current.length) }) ∨
    (rest ≠ [] ∧ counter < maxChunks ∧ ∃ ciphertext, ∃ after : Reader,
      P.aeadSeal key (nonce counter data)
        (chunkAad objectId headerHash counter data current.length) current = some ciphertext ∧
      after.Delivers (rest.drop chunkLen) ∧
      encryptLoop P key objectId headerHash current input counter total =
        let more := encryptLoop P key objectId headerHash (rest.take chunkLen) after (counter + 1)
          (total + current.length)
        { output := encodeRecord data ciphertext ++ more.output
          seals := sealCall objectId headerHash counter data current ciphertext :: more.seals
          result := more.result }) := by
  obtain ⟨after, hread, hafter⟩ := Reader.readUpTo_of_delivers hinput chunkLen
  have hempty : rest.take chunkLen = [] ↔ rest = [] := by
    rw [List.take_eq_nil_iff]
    simp [chunkLen]
  rcases encryptLoop_turn P key objectId headerHash input counter total hlen with
    ⟨hge, heq⟩ | ⟨-, error, _, hfail, -⟩ | ⟨-, next, _, -, hnone, heq⟩ |
    ⟨hlt, _, ciphertext, hnext, hseal, heq⟩ | ⟨hlt, next, _, ciphertext, hnext, hne, hseal, heq⟩
  · left
    exact ⟨_, Or.inl ⟨hge, rfl⟩, heq⟩
  · rw [readChunk, hread] at hfail
    cases hfail
  · left
    exact ⟨_, Or.inr ⟨_, _, hnone⟩, heq⟩
  · right
    left
    rw [readChunk, hread] at hnext
    exact ⟨hempty.mp (Except.ok.inj (Prod.mk.inj hnext).1), hlt, ciphertext, hseal, heq⟩
  · right
    right
    rw [readChunk, hread] at hnext
    cases hnext
    exact ⟨mt hempty.mpr hne, hlt, ciphertext, after, hseal, hafter, heq⟩

/-- With an AEAD that never refuses, a run succeeds on every input that fits the chunk limit. -/
theorem encryptLoop_succeeds {current rest : Bytes} {input : Reader} (counter total : ℕ)
    (hseal : ∀ nonce aad plaintext, P.aeadSeal key nonce aad plaintext ≠ none)
    (hinput : input.Delivers rest) (hlen : current.length ≤ chunkLen) (hlt : counter < maxChunks)
    (hfits : counter * chunkLen + chunkLen + rest.length ≤ maxChunks * chunkLen) :
    (encryptLoop P key objectId headerHash current input counter total).result =
      .ok (total + current.length + rest.length) := by
  induction hn : rest.length using Nat.strongRecOn generalizing current rest input counter total with
  | ind n ih =>
    subst hn
    rcases encryptLoop_cases P key objectId headerHash counter total hinput hlen with
      ⟨_, hstop, -⟩ | ⟨hrest, -, ciphertext, -, heq⟩ | ⟨hrest, -, ciphertext, after, -, hafter, heq⟩
    · rcases hstop with ⟨hstop, -⟩ | ⟨nonce, aad, hnone⟩
      · omega
      · exact absurd hnone (hseal nonce aad current)
    · rw [heq, hrest]
      rfl
    · have hpos := List.length_pos_iff.mpr hrest
      have hdrop : (rest.drop chunkLen).length = rest.length - chunkLen := List.length_drop
      have htake : (rest.take chunkLen).length = min chunkLen rest.length := List.length_take
      have hchunk : 0 < chunkLen := by decide
      -- the chunk after this one still starts below the limit
      have hnext : counter + 1 < maxChunks := by
        by_contra hge
        have hmax : maxChunks = counter + 1 := by omega
        rw [hmax, Nat.add_mul, Nat.one_mul] at hfits
        omega
      have hfits' : (counter + 1) * chunkLen + chunkLen + (rest.drop chunkLen).length ≤
          maxChunks * chunkLen := by
        have hlarger : (counter + 2) * chunkLen ≤ maxChunks * chunkLen :=
          Nat.mul_le_mul_right _ (by omega)
        rw [Nat.add_mul] at hlarger
        rw [hdrop, Nat.add_mul, Nat.one_mul]
        omega
      have hmore := ih _ (by rw [hdrop]; omega) (counter + 1) (total + current.length)
        hafter (List.length_take_le chunkLen rest) hnext hfits' rfl
      have hsum : total + current.length + min chunkLen rest.length + (rest.length - chunkLen) =
          total + current.length + rest.length := by omega
      rw [heq]
      show (encryptLoop P key objectId headerHash _ _ _ _).result = _
      rw [hmore, hdrop, htake, hsum]

/-- Every nonce a run uses is that of a counter it went through. -/
theorem seals_counter {current : Bytes} (input : Reader) (counter total : ℕ)
    (hlen : current.length ≤ chunkLen) :
    ∀ call ∈ (encryptLoop P key objectId headerHash current input counter total).seals,
      ∃ counter' kind, counter ≤ counter' ∧ counter' < maxChunks ∧
        call.nonce = nonce counter' kind := by
  -- on the counters that are left, of which every turn that goes on uses one
  induction hn : maxChunks - counter generalizing current input counter total with
  | zero =>
    intro call hcall
    rw [encryptLoop, dif_pos (by omega)] at hcall
    simp at hcall
  | succ n ih =>
    intro call hcall
    rcases encryptLoop_turn P key objectId headerHash input counter total hlen with
      ⟨-, heq⟩ | ⟨-, _, _, -, heq⟩ | ⟨-, _, _, -, -, heq⟩ | ⟨hlt, _, ciphertext, -, -, heq⟩ |
      ⟨hlt, next, after, ciphertext, hread, -, -, heq⟩
    · rw [heq] at hcall
      simp at hcall
    · rw [heq] at hcall
      simp at hcall
    · rw [heq] at hcall
      simp at hcall
    · rw [heq, List.mem_singleton] at hcall
      rw [hcall]
      exact ⟨counter, final, le_rfl, hlt, rfl⟩
    · rw [heq, List.mem_cons] at hcall
      rcases hcall with hcall | hcall
      · rw [hcall]
        exact ⟨counter, data, le_rfl, hlt, rfl⟩
      · obtain ⟨counter', kind, hle, hlt', hnonce⟩ := ih after (counter + 1) _
          (length_of_readChunk hread) (by omega) call hcall
        exact ⟨counter', kind, by omega, hlt', hnonce⟩

/-! ## The reader -/

/-- The lengths a reader admits for a record of each kind. -/
def Admits (kind : UInt8) (length counter : ℕ) : Prop :=
  (kind = data ∧ length = chunkLen) ∨
    (kind = final ∧ length ≤ chunkLen ∧ (length > 0 ∨ counter = 0))

/-- What the reader does after opening `chunk` at `counter`, with `rest` still to come. -/
def afterRecord (kind : UInt8) (chunk rest : Bytes) (counter total : ℕ) : Decryption :=
  if kind = final then
    if rest ≠ [] then { result := .error .trailingData }
    else { staging := chunk, result := .ok (total + chunk.length) }
  else
    let next := decryptLoop P key objectId headerHash rest (counter + 1) (total + chunk.length)
    { staging := chunk ++ next.staging, result := next.result }

/-- A record that opens is taken off the input. -/
theorem decryptLoop_open {kind : UInt8} {chunk ciphertext : Bytes} {counter : ℕ} (rest : Bytes)
    (total : ℕ) (hlt : counter < maxChunks)
    (hopen : P.aeadOpen key (nonce counter kind)
      (chunkAad objectId headerHash counter kind chunk.length) ciphertext = some chunk)
    (hlen : ciphertext.length = chunk.length + tagLen) (hadmits : Admits kind chunk.length counter) :
    decryptLoop P key objectId headerHash (encodeRecord kind ciphertext ++ rest) counter total =
      afterRecord P key objectId headerHash kind chunk rest counter total := by
  have hread : readRecord counter (encodeRecord kind ciphertext ++ rest) =
      .ok ⟨kind, chunk.length, ciphertext, rest⟩ :=
    readRecord_eq_ok.mpr ⟨rfl, recordLength_eq_ok.mpr ⟨hlen, hadmits⟩⟩
  have hopened : openInPlace P key (nonce counter kind)
      (chunkAad objectId headerHash counter kind chunk.length) ciphertext = .ok chunk := by
    unfold openInPlace
    rw [failIf_neg _ (by rw [hlen, tagLen, tagLength]; omega), ok_bind, hopen, okOr_some]
  rw [decryptLoop, dif_pos hlt, hread]
  simp only [hopened]
  rfl

/-- One turn of the reader: it stops having written nothing, or some record in front of the
input opens. -/
theorem decryptLoop_cases (input : Bytes) {counter : ℕ} (total : ℕ) (hlt : counter < maxChunks) :
    (∃ error, decryptLoop P key objectId headerHash input counter total =
      { result := .error error }) ∨
    (∃ kind ciphertext length opened rest,
      input = encodeRecord kind ciphertext ++ rest ∧
      (kind = data ∨ kind = final) ∧
      P.aeadOpen key (nonce counter kind) (chunkAad objectId headerHash counter kind length)
        ciphertext = some opened ∧
      decryptLoop P key objectId headerHash input counter total =
        afterRecord P key objectId headerHash kind opened rest counter total ∧
      ciphertext.length ≤ chunkLen + tagLen) := by
  rw [decryptLoop, dif_pos hlt]
  rcases hread : readRecord counter input with error | record
  · left
    exact ⟨error, rfl⟩
  · obtain ⟨hinput, hlength⟩ := readRecord_eq_ok.mp hread
    have hkind : record.kind = data ∨ record.kind = final := by
      rcases (recordLength_eq_ok.mp hlength).2 with h | h
      · exact Or.inl h.1
      · exact Or.inr h.1
    rcases hopened : openInPlace P key (nonce counter record.kind)
      (chunkAad objectId headerHash counter record.kind record.length) record.ciphertext
      with error | opened
    · left
      simp only [hopened]
      exact ⟨_, rfl⟩
    · right
      have hopen := hopened
      unfold openInPlace at hopen
      obtain ⟨_, -, hopen⟩ := bind_eq_ok.mp hopen
      rw [okOr_eq_ok] at hopen
      have hle : record.ciphertext.length ≤ chunkLen + tagLen := by
        obtain ⟨hlen, hadmits⟩ := recordLength_eq_ok.mp hlength
        rcases hadmits with h | h
        · omega
        · omega
      refine ⟨record.kind, record.ciphertext, record.length, opened, record.rest, hinput, hkind,
        hopen, ?_, hle⟩
      simp only [hopened]
      rfl

/-- Opening removes the tag. -/
def AeadShrinks : Prop :=
  ∀ key nonce aad ciphertext plaintext, P.aeadOpen key nonce aad ciphertext = some plaintext →
    ciphertext.length = plaintext.length + tagLen

/-- The reader counts what it stages, and stages at most a chunk per counter value. -/
theorem decryptLoop_total {input : Bytes} {counter total n : ℕ}
    (hok : (decryptLoop P key objectId headerHash input counter total).result = .ok n) :
    n = total + (decryptLoop P key objectId headerHash input counter total).staging.length ∧
      (AeadShrinks P →
        (decryptLoop P key objectId headerHash input counter total).staging.length ≤
          (maxChunks - counter) * chunkLen) := by
  -- on the counter values that are left
  induction hleft : maxChunks - counter generalizing input counter total with
  | zero =>
    rw [decryptLoop, dif_neg (by omega)] at hok
    cases hok
  | succ left ih =>
    have hlt : counter < maxChunks := by omega
    rcases decryptLoop_cases P key objectId headerHash input total hlt with
      ⟨error, hdec⟩ | ⟨kind, ciphertext, length, opened, rest, -, -, hopen, hdec, hle⟩
    · rw [hdec] at hok
      cases hok
    · have hopened : AeadShrinks P → opened.length ≤ chunkLen := by
        intro hP
        have := hP _ _ _ _ _ hopen
        omega
      rw [Nat.add_mul, Nat.one_mul]
      rw [hdec] at hok ⊢
      unfold afterRecord at hok ⊢
      by_cases hkind : kind = final
      · rw [if_pos hkind] at hok ⊢
        by_cases hrest : rest ≠ []
        · rw [if_pos hrest] at hok
          cases hok
        · rw [if_neg hrest] at hok ⊢
          exact ⟨(Except.ok.inj hok).symm, fun hP => le_add_of_le_right (hopened hP)⟩
      · rw [if_neg hkind] at hok ⊢
        obtain ⟨htotal, hbound⟩ := ih hok (by omega)
        simp only [List.length_append]
        refine ⟨by omega, fun hP => ?_⟩
        have hchunk := hopened hP
        have hrest := hbound hP
        omega

/-! ## Exactness -/

/-- What was sealed under `key` opens again, and a ciphertext is longer by its tag. -/
structure Reopens (calls : List SealCall) : Prop where
  opens : ∀ call ∈ calls,
    P.aeadOpen key call.nonce call.aad call.ciphertext = some call.plaintext
  length : ∀ call ∈ calls, call.ciphertext.length = call.plaintext.length + tagLen

/-- An ideal AEAD: moreover, nothing opens under `key` but what `calls` sealed. -/
structure IdealAead (calls : List SealCall) : Prop extends Reopens P key calls where
  only : ∀ nonce aad ciphertext plaintext,
    P.aeadOpen key nonce aad ciphertext = some plaintext →
      ∃ call ∈ calls, call.nonce = nonce ∧ call.aad = aad ∧ call.ciphertext = ciphertext

/-- The part of an ideal AEAD that concerns the records from `counter` on. -/
def OnlyFrom (counter : ℕ) (calls : List SealCall) : Prop :=
  ∀ counter' kind aad ciphertext plaintext, counter ≤ counter' → counter' < maxChunks →
    P.aeadOpen key (nonce counter' kind) aad ciphertext = some plaintext →
      ∃ call ∈ calls, call.nonce = nonce counter' kind ∧ call.aad = aad ∧
        call.ciphertext = ciphertext

/-- Either the input is the output of a run that succeeded, and then the plaintext is staged
whole; or the reader fails, having staged full chunks and never the last one. -/
def Exact (plaintext : Bytes) (run : Encryption) (input : Bytes) (total : ℕ)
    (read : Decryption) : Prop :=
  ((∃ n, run.result = .ok n) ∧ input = run.output ∧
    read = { staging := plaintext, result := .ok (total + plaintext.length) }) ∨
  (¬((∃ n, run.result = .ok n) ∧ input = run.output) ∧ (∃ error, read.result = .error error) ∧
    ∃ k, read.staging = plaintext.take (k * chunkLen) ∧
      (k = 0 ∨ k * chunkLen < plaintext.length))

theorem exact_of_error {plaintext : Bytes} {run : Encryption} {input : Bytes} {total : ℕ}
    {read : Decryption} {error : ObjectError} (hread : read = { result := .error error })
    (h : ¬((∃ n, run.result = .ok n) ∧ input = run.output)) :
    Exact plaintext run input total read := by
  right
  rw [hread]
  exact ⟨h, ⟨error, rfl⟩, 0, by simp, Or.inl rfl⟩

section Turn
variable {P key objectId headerHash}

/-- A record the writer sealed is taken off the input. -/
theorem decryptLoop_sealed {kind : UInt8} {chunk ciphertext : Bytes} {counter : ℕ}
    {calls : List SealCall} (hreopens : Reopens P key calls)
    (hmem : sealCall objectId headerHash counter kind chunk ciphertext ∈ calls)
    (hlt : counter < maxChunks) (hadmits : Admits kind chunk.length counter) (tail : Bytes)
    (total : ℕ) :
    decryptLoop P key objectId headerHash (encodeRecord kind ciphertext ++ tail) counter total =
      afterRecord P key objectId headerHash kind chunk tail counter total :=
  decryptLoop_open P key objectId headerHash tail total hlt (hreopens.opens _ hmem)
    (hreopens.length _ hmem) hadmits

/-- If the calls from `counter` on start with one at `counter`, a record that opens there is
the one it sealed. -/
theorem sealed_of_open {kind kind' : UInt8} {chunk ciphertext ciphertext' aad opened : Bytes}
    {counter : ℕ} {calls : List SealCall} (hlt : counter < maxChunks)
    (honly : OnlyFrom P key counter
      (sealCall objectId headerHash counter kind chunk ciphertext :: calls))
    (hlater : ∀ call ∈ calls, ∃ counter' kind', counter + 1 ≤ counter' ∧ counter' < maxChunks ∧
      call.nonce = nonce counter' kind')
    (hopen : P.aeadOpen key (nonce counter kind') aad ciphertext' = some opened) :
    (kind = final ↔ kind' = final) ∧ ciphertext' = ciphertext := by
  obtain ⟨call, hmem, hnonce, -, hct⟩ := honly counter kind' _ _ _ le_rfl hlt hopen
  rcases List.mem_cons.mp hmem with hmem | hmem
  · rw [hmem] at hnonce hct
    exact ⟨(nonce_inj hlt hlt hnonce).2, hct.symm⟩
  · -- a later record has a later counter in its nonce
    obtain ⟨counter', kind'', hle, hlt', hnonce'⟩ := hlater call hmem
    have := (nonce_inj hlt' hlt (hnonce'.symm.trans hnonce)).1
    omega

theorem Reopens.tail {call : SealCall} {calls : List SealCall}
    (h : Reopens P key (call :: calls)) : Reopens P key calls where
  opens := fun other hmem => h.opens other (List.mem_cons_of_mem _ hmem)
  length := fun other hmem => h.length other (List.mem_cons_of_mem _ hmem)

/-- Past the first call, only the others concern the later counters. -/
theorem OnlyFrom.tail {kind : UInt8} {chunk ciphertext : Bytes} {counter : ℕ}
    {calls : List SealCall} (hlt : counter < maxChunks)
    (h : OnlyFrom P key counter
      (sealCall objectId headerHash counter kind chunk ciphertext :: calls)) :
    OnlyFrom P key (counter + 1) calls := by
  intro counter' kind' aad ct pt hle hlt' hopen
  obtain ⟨call, hmem, hnonce, haad, hct⟩ := h counter' kind' aad ct pt (by omega) hlt' hopen
  rcases List.mem_cons.mp hmem with hmem | hmem
  · rw [hmem] at hnonce
    have := (nonce_inj hlt hlt' hnonce).1
    omega
  · exact ⟨call, hmem, hnonce, haad, hct⟩

/-- The last record: it is accepted where the input ends after it, and nothing else is. -/
theorem exact_final {current ciphertext : Bytes} {counter : ℕ} (n : ℕ) (hlt : counter < maxChunks)
    (hadmits : Admits final current.length counter)
    (hreopens : Reopens P key [sealCall objectId headerHash counter final current ciphertext])
    (honly : OnlyFrom P key counter
      [sealCall objectId headerHash counter final current ciphertext])
    (bytes : Bytes) (total : ℕ) :
    Exact current
      { output := encodeRecord final ciphertext
        seals := [sealCall objectId headerHash counter final current ciphertext]
        result := .ok n }
      bytes total (decryptLoop P key objectId headerHash bytes counter total) := by
  have haccept := fun tail =>
    decryptLoop_sealed hreopens List.mem_cons_self hlt hadmits tail total
  have hend : afterRecord P key objectId headerHash final current [] counter total =
      { staging := current, result := .ok (total + current.length) } := by
    simp [afterRecord]
  rcases decryptLoop_cases P key objectId headerHash bytes total hlt with
    ⟨error, hdec⟩ | ⟨kind, ct, length, opened, tail, hbytes, hkind, hopen, -⟩
  · apply exact_of_error hdec
    intro ⟨_, hout⟩
    have hout : bytes = encodeRecord final ciphertext ++ [] := by
      rw [List.append_nil]
      exact hout
    rw [hout, haccept [], hend] at hdec
    simp at hdec
  · obtain ⟨hfinal, hct⟩ := sealed_of_open hlt honly (by simp) hopen
    rw [hbytes, hfinal.mp rfl, hct, haccept tail]
    by_cases htail : tail = []
    · left
      rw [htail, List.append_nil]
      exact ⟨⟨n, rfl⟩, rfl, hend⟩
    · have hafter : afterRecord P key objectId headerHash final current tail counter total =
          { result := .error .trailingData } := by
        simp [afterRecord, htail]
      apply exact_of_error hafter
      intro ⟨_, hout⟩
      exact htail (by simpa using hout)

/-- A full record: reading it leaves the reader where the writer goes on. -/
theorem exact_data {current rest ciphertext : Bytes} {counter : ℕ} {more : Encryption}
    (hlt : counter < maxChunks) (hcur : current.length = chunkLen) (hrest : rest ≠ [])
    (hreopens : Reopens P key
      (sealCall objectId headerHash counter data current ciphertext :: more.seals))
    (honly : OnlyFrom P key counter
      (sealCall objectId headerHash counter data current ciphertext :: more.seals))
    (hlater : ∀ call ∈ more.seals, ∃ counter' kind', counter + 1 ≤ counter' ∧
      counter' < maxChunks ∧ call.nonce = nonce counter' kind')
    (bytes : Bytes) (total : ℕ)
    (hmore : ∀ tail, Exact rest more tail (total + current.length)
      (decryptLoop P key objectId headerHash tail (counter + 1) (total + current.length))) :
    Exact (current ++ rest)
      { output := encodeRecord data ciphertext ++ more.output
        seals := sealCall objectId headerHash counter data current ciphertext :: more.seals
        result := more.result }
      bytes total (decryptLoop P key objectId headerHash bytes counter total) := by
  have haccept := fun tail => decryptLoop_sealed hreopens List.mem_cons_self hlt
    (Or.inl ⟨rfl, hcur⟩) tail total
  have hne : data ≠ final := by decide
  rcases decryptLoop_cases P key objectId headerHash bytes total hlt with
    ⟨error, hdec⟩ | ⟨kind, ct, length, opened, tail, hbytes, hkind, hopen, -⟩
  · apply exact_of_error hdec
    intro ⟨_, hout⟩
    -- on the writer's output the reader stages at least the first chunk
    rw [show bytes = encodeRecord data ciphertext ++ more.output from hout, haccept,
      afterRecord, if_neg hne] at hdec
    have hstaging : current ++ _ = [] := congrArg Decryption.staging hdec
    rw [(List.append_eq_nil_iff.mp hstaging).1] at hcur
    exact absurd hcur (by decide)
  · obtain ⟨hfinal, hct⟩ := sealed_of_open hlt honly hlater hopen
    have hkind : kind = data := by
      rcases hkind with hkind | hkind
      · exact hkind
      · exact absurd (hfinal.mpr hkind) hne
    rw [hbytes, hkind, hct, haccept tail, afterRecord, if_neg hne]
    rcases hmore tail with ⟨hok, htail, hdec⟩ | ⟨hno, hfail, k, hstaging, hk⟩
    · left
      refine ⟨hok, by rw [htail], ?_⟩
      simp only [hdec, List.length_append, Nat.add_assoc]
    · right
      refine ⟨?_, hfail, k + 1, ?_, ?_⟩
      · intro ⟨hok, hout⟩
        exact hno ⟨hok, List.append_cancel_left hout⟩
      · show current ++ _ = _
        rw [hstaging, Nat.succ_mul, Nat.add_comm, ← hcur, List.take_length_add_append]
      · right
        have := List.length_pos_iff.mpr hrest
        rw [List.length_append, hcur, Nat.succ_mul]
        rcases hk with hk | hk
        · rw [hk]
          omega
        · omega

end Turn

/-- The AEAD opens what it sealed, and a ciphertext is longer by its tag. -/
structure AeadCorrect : Prop where
  opens : ∀ key nonce aad plaintext ciphertext,
    P.aeadSeal key nonce aad plaintext = some ciphertext →
      P.aeadOpen key nonce aad ciphertext = some plaintext
  length : ∀ key nonce aad plaintext ciphertext,
    P.aeadSeal key nonce aad plaintext = some ciphertext →
      ciphertext.length = plaintext.length + tagLen

theorem toy_aeadCorrect : AeadCorrect Crypto.Primitives.toy where
  opens := by
    intro key nonce aad plaintext ciphertext h
    have h : plaintext ++ List.replicate 16 0 = ciphertext := Option.some.inj h
    subst h
    simp [Crypto.Primitives.toy]
  length := by
    intro key nonce aad plaintext ciphertext h
    have h : plaintext ++ List.replicate 16 0 = ciphertext := Option.some.inj h
    subst h
    simp [tagLen]

variable {P} in
/-- What a run that succeeds writes is read back whole. -/
theorem decryptLoop_output (hP : AeadCorrect P) {current rest : Bytes} {input : Reader}
    (counter total n : ℕ) (hinput : input.Delivers rest) (hlen : current.length ≤ chunkLen)
    (hfull : rest ≠ [] → current.length = chunkLen) (hne : current.length > 0 ∨ counter = 0)
    (hok : (encryptLoop P key objectId headerHash current input counter total).result = .ok n)
    (total' : ℕ) :
    decryptLoop P key objectId headerHash
        (encryptLoop P key objectId headerHash current input counter total).output counter total' =
      { staging := current ++ rest, result := .ok (total' + (current ++ rest).length) } ∧
    n = total + (current ++ rest).length := by
  induction hn : rest.length using Nat.strongRecOn
    generalizing current rest input counter total total' with
  | ind m ih =>
    subst hn
    rcases encryptLoop_cases P key objectId headerHash counter total hinput hlen with
      ⟨error, -, heq⟩ | ⟨hrest, hlt, ciphertext, hseal, heq⟩ |
      ⟨hrest, hlt, ciphertext, after, hseal, hafter, heq⟩
    · rw [heq] at hok
      cases hok
    · have hread := decryptLoop_open P key objectId headerHash [] total' hlt
        (hP.opens _ _ _ _ _ hseal) (hP.length _ _ _ _ _ hseal) (Or.inr ⟨rfl, hlen, hne⟩)
      rw [heq] at hok ⊢
      rw [List.append_nil] at hread
      rw [hrest, List.append_nil, hread]
      refine ⟨by simp [afterRecord], ?_⟩
      exact (Except.ok.inj hok).symm
    · have hpos := List.length_pos_iff.mpr hrest
      have hshorter : (rest.drop chunkLen).length < rest.length := by
        rw [List.length_drop, chunkLen]
        omega
      have hne' : data ≠ final := by decide
      rw [heq] at hok ⊢
      obtain ⟨hmore, hn⟩ := ih _ hshorter (counter + 1) (total + current.length) hafter
        (List.length_take_le _ _)
        length_take_of_drop
        (by
          left
          rw [List.length_take, chunkLen]
          omega)
        hok (total' + current.length) rfl
      rw [List.take_append_drop] at hmore hn
      rw [decryptLoop_open P key objectId headerHash _ total' hlt
        (hP.opens _ _ _ _ _ hseal) (hP.length _ _ _ _ _ hseal) (Or.inl ⟨rfl, hfull hrest⟩),
        afterRecord, if_neg hne', hmore]
      simp only [List.length_append, Nat.add_assoc, true_and]
      rw [hn, Nat.add_assoc]

/-- What a writer that is at `counter` with `current` still to seal goes on to write is read
exactly by a reader at the same counter. -/
theorem decryptLoop_exact {current rest : Bytes} {input : Reader} (counter total : ℕ)
    (hinput : input.Delivers rest) (hlen : current.length ≤ chunkLen)
    (hfull : rest ≠ [] → current.length = chunkLen) (hne : current.length > 0 ∨ counter = 0)
    (hreopens : Reopens P key
      (encryptLoop P key objectId headerHash current input counter total).seals)
    (honly : OnlyFrom P key counter
      (encryptLoop P key objectId headerHash current input counter total).seals)
    (bytes : Bytes) (total' : ℕ) :
    Exact (current ++ rest) (encryptLoop P key objectId headerHash current input counter total)
      bytes total' (decryptLoop P key objectId headerHash bytes counter total') := by
  -- on what the writer has left to read
  induction hn : rest.length using Nat.strongRecOn
    generalizing current rest input counter total bytes total' with
  | ind n ih =>
    subst hn
    rcases encryptLoop_cases P key objectId headerHash counter total hinput hlen with
      ⟨error, -, heq⟩ | ⟨hrest, hlt, ciphertext, -, heq⟩ |
      ⟨hrest, hlt, ciphertext, after, -, hafter, heq⟩
    · -- the writer sealed nothing more, so nothing more opens
      rw [heq] at honly ⊢
      by_cases hlt : counter < maxChunks
      · rcases decryptLoop_cases P key objectId headerHash bytes total' hlt with
          ⟨error', hdec⟩ | ⟨kind, ct, length, opened, tail, -, -, hopen, -⟩
        · apply exact_of_error hdec
          simp
        · obtain ⟨call, hcall, -⟩ := honly counter kind _ _ _ le_rfl hlt hopen
          simp at hcall
      · rw [decryptLoop, dif_neg hlt]
        apply exact_of_error rfl
        simp
    · rw [heq] at hreopens honly ⊢
      rw [hrest, List.append_nil]
      exact exact_final _ hlt (Or.inr ⟨rfl, hlen, hne⟩) hreopens honly bytes total'
    · have hlater := seals_counter P key objectId headerHash after (counter + 1)
        (total + current.length) (List.length_take_le chunkLen rest)
      have hpos := List.length_pos_iff.mpr hrest
      rw [heq] at hreopens honly ⊢
      apply exact_data hlt (hfull hrest) hrest hreopens honly hlater
      intro tail
      have hshorter : (rest.drop chunkLen).length < rest.length := by
        rw [List.length_drop, chunkLen]
        omega
      have hrec := @ih _ hshorter (rest.take chunkLen) (rest.drop chunkLen) after (counter + 1)
        (total + current.length) hafter (List.length_take_le _ _)
      rw [List.take_append_drop] at hrec
      apply hrec
      · exact length_take_of_drop
      · left
        rw [List.length_take, chunkLen]
        omega
      · exact hreopens.tail
      · exact honly.tail hlt
      · rfl

/-- A payload of at most `maxChunks` chunks is written. -/
theorem encryptRecords_succeeds {plaintext : Bytes} {input : Reader}
    (hseal : ∀ nonce aad plaintext, P.aeadSeal key nonce aad plaintext ≠ none)
    (hinput : input.Delivers plaintext) (hfits : plaintext.length ≤ maxChunks * chunkLen) :
    (encryptRecords P key objectId headerHash input).result = .ok plaintext.length := by
  obtain ⟨after, hafter, hrun⟩ := encryptRecords_eq P key objectId headerHash hinput
  rw [hrun]
  have hdrop : (plaintext.drop chunkLen).length = plaintext.length - chunkLen := List.length_drop
  have htake : (plaintext.take chunkLen).length = min chunkLen plaintext.length := List.length_take
  have hmax : chunkLen ≤ maxChunks * chunkLen := Nat.le_mul_of_pos_left _ (by decide)
  have hsum : 0 + min chunkLen plaintext.length + (plaintext.length - chunkLen) =
      plaintext.length := by omega
  rw [encryptLoop_succeeds P key objectId headerHash 0 0 hseal hafter (List.length_take_le _ _)
    (by decide) (by rw [hdrop]; omega), hdrop, htake, hsum]

variable {P} in
/-- A payload that was written is read back whole. -/
theorem decryptRecords_output (hP : AeadCorrect P) {plaintext : Bytes} {input : Reader} {n : ℕ}
    (hinput : input.Delivers plaintext)
    (hok : (encryptRecords P key objectId headerHash input).result = .ok n) :
    decryptRecords P key objectId headerHash
        (encryptRecords P key objectId headerHash input).output =
      { staging := plaintext, result := .ok plaintext.length } ∧ n = plaintext.length := by
  obtain ⟨after, hafter, hrun⟩ := encryptRecords_eq P key objectId headerHash hinput
  rw [hrun] at hok ⊢
  have hread := decryptLoop_output key objectId headerHash hP 0 0 n hafter
    (List.length_take_le _ _) length_take_of_drop (Or.inr rfl) hok 0
  rw [List.take_append_drop, Nat.zero_add] at hread
  exact hread

/-- **The payload stream is exact.** Let `input` deliver `plaintext` in any schedule, and let
nothing open under the payload key but what the run of `encryptRecords` over it sealed. Then
`decryptRecords` accepts a byte string exactly when that run succeeded and the string is its
output, staging the plaintext whole and returning its length; on any other it fails, having
staged a prefix of full chunks that never includes the last one. -/
theorem decryptRecords_exact (plaintext : Bytes) (input : Reader)
    (hinput : input.Delivers plaintext)
    (hideal : IdealAead P key (encryptRecords P key objectId headerHash input).seals)
    (bytes : Bytes) :
    ((∃ total, (decryptRecords P key objectId headerHash bytes).result = .ok total) ↔
      (∃ total, (encryptRecords P key objectId headerHash input).result = .ok total) ∧
        bytes = (encryptRecords P key objectId headerHash input).output) ∧
    ((∃ total, (decryptRecords P key objectId headerHash bytes).result = .ok total) →
      (decryptRecords P key objectId headerHash bytes).staging = plaintext ∧
      (decryptRecords P key objectId headerHash bytes).result = .ok plaintext.length) ∧
    ((¬∃ total, (decryptRecords P key objectId headerHash bytes).result = .ok total) →
      ∃ k, (decryptRecords P key objectId headerHash bytes).staging =
          plaintext.take (k * chunkLen) ∧
        (k = 0 ∨ k * chunkLen < plaintext.length)) := by
  obtain ⟨after, hafter, hrun⟩ := encryptRecords_eq P key objectId headerHash hinput
  rw [hrun] at hideal ⊢
  have hexact := decryptLoop_exact P key objectId headerHash 0 0 hafter
    (List.length_take_le _ _) length_take_of_drop (Or.inr rfl) hideal.toReopens
    (fun _ _ aad ct pt _ _ hopen => hideal.only _ aad ct pt hopen) bytes 0
  rw [List.take_append_drop, ← decryptRecords] at hexact
  rcases hexact with ⟨hok, hbytes, hdec⟩ | ⟨hno, ⟨error, hfail⟩, hstaging⟩
  · rw [Nat.zero_add] at hdec
    have hdone : ∃ total, (decryptRecords P key objectId headerHash bytes).result = .ok total :=
      ⟨_, congrArg Decryption.result hdec⟩
    refine ⟨⟨fun _ => ⟨hok, hbytes⟩, fun _ => hdone⟩, fun _ => ?_, fun h => absurd hdone h⟩
    rw [hdec]
    exact ⟨rfl, rfl⟩
  · have hnot : ¬∃ total, (decryptRecords P key objectId headerHash bytes).result = .ok total := by
      rw [hfail]
      simp
    exact ⟨⟨fun h => absurd h hnot, fun h => absurd h hno⟩, fun h => absurd h hnot,
      fun _ => hstaging⟩

/-- The theorem at a payload of three bytes, with an AEAD that appends a zero tag and opens
nothing but the one record of that run. -/
theorem decryptRecords_exact_three_bytes :
    let zero : Key := Vector.replicate 32 0
    let record : Bytes := [1, 2, 3] ++ List.replicate 16 0
    let aad := chunkAad zero zero 0 final 3
    let P : Crypto.Primitives :=
      { Crypto.Primitives.toy with
        aeadOpen := fun _ n a c =>
          if n = nonce 0 final ∧ a = aad ∧ c = record then some [1, 2, 3] else none }
    let input := Reader.ofBytes [1, 2, 3]
    IdealAead P zero (encryptRecords P zero zero zero input).seals ∧
      ((∃ total, (decryptRecords P zero zero zero (encodeRecord final record)).result = .ok total) ↔
        (∃ total, (encryptRecords P zero zero zero input).result = .ok total) ∧
          encodeRecord final record = (encryptRecords P zero zero zero input).output) := by
  intro zero record aad P input
  have hrun : encryptRecords P zero zero zero input =
      { output := encodeRecord final record
        seals := [sealCall zero zero 0 final [1, 2, 3] record]
        result := .ok 3 } := by
    have hread : readChunk input = (.ok [1, 2, 3], []) := by
      simp [readChunk, input, Reader.ofBytes, Reader.readUpTo, chunkLen, Except.map]
    rw [encryptRecords, hread]
    show encryptLoop P zero zero zero [1, 2, 3] [] 0 0 = _
    rw [encryptLoop, dif_neg (by decide)]
    rfl
  have hideal : IdealAead P zero (encryptRecords P zero zero zero input).seals := by
    rw [hrun]
    refine ⟨⟨?_, ?_⟩, ?_⟩
    · intro call hcall
      rw [List.mem_singleton.mp hcall]
      show (if nonce 0 final = nonce 0 final ∧ aad = aad ∧ record = record
        then some [1, 2, 3] else none) = _
      simp [sealCall]
    · intro call hcall
      rw [List.mem_singleton.mp hcall]
      rfl
    · intro n a c plaintext hopen
      by_cases h : n = nonce 0 final ∧ a = aad ∧ c = record
      · exact ⟨_, List.mem_singleton_self _, h.1.symm, h.2.1.symm, h.2.2.symm⟩
      · have hnone : P.aeadOpen zero n a c = none := if_neg h
        rw [hnone] at hopen
        cases hopen
  exact ⟨hideal, (decryptRecords_exact P zero zero zero [1, 2, 3] input
    (Reader.delivers_ofBytes _) hideal (encodeRecord final record)).1⟩

end

end HideProtocol.Object
