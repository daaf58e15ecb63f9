import HideProtocol.Object.RecordsTheorems

/-!
# How the plaintext arrives

The writer asks its reader for chunk after chunk and takes a short chunk for the last one. For a
reader that delivers its bytes and then stays at its end, the schedule of its answers makes no
difference: the records are those of the payload cut into chunks (`schedule_independence`). A
reader may also report an end of input and go on, as a file that is being appended to does. If it
does so inside a chunk, the writer puts a short chunk into a `DATA` record, which no reader of the
format admits (`encryption_opens_iff`).
-/

namespace HideProtocol.Object

open Lib Format Crypto

/-! ## A payload cut into chunks -/

/-- Full chunks and a last one, which is empty only if there is nothing to cut. -/
def cut (payload : Bytes) : List Bytes :=
  if _h : payload.length ≤ chunkLen then [payload]
  else payload.take chunkLen :: cut (payload.drop chunkLen)
termination_by payload.length
decreasing_by
  rw [List.length_drop, chunkLen]
  rw [chunkLen] at _h
  omega

theorem cut_short {payload : Bytes} (h : payload.length ≤ chunkLen) : cut payload = [payload] := by
  rw [cut, dif_pos h]

theorem cut_append {chunk rest : Bytes} (hchunk : chunk.length = chunkLen) (hrest : rest ≠ []) :
    cut (chunk ++ rest) = chunk :: cut rest := by
  have hpos := List.length_pos_iff.mpr hrest
  have hlong : ¬(chunk ++ rest).length ≤ chunkLen := by
    rw [List.length_append, hchunk]
    omega
  rw [cut, dif_neg hlong, List.take_left' hchunk, List.drop_left' hchunk]

theorem cut_ne_nil (payload : Bytes) : cut payload ≠ [] := by
  rw [cut]
  split
  next => exact List.cons_ne_nil _ _
  next => exact List.cons_ne_nil _ _

/-- What a payload is cut into: nothing is lost, all chunks but the last are full, and the last is
empty only for the empty payload and full for a payload of full chunks. -/
structure CutInto (payload : Bytes) (chunks : List Bytes) : Prop where
  flatten : chunks.flatten = payload
  full : ∀ chunk ∈ chunks.dropLast, chunk.length = chunkLen
  last : ∃ last, chunks.getLast? = some last ∧ last.length ≤ chunkLen ∧
    (last = [] ↔ payload = []) ∧
    (payload ≠ [] → payload.length % chunkLen = 0 → last.length = chunkLen)

theorem cutInto_cut (payload : Bytes) : CutInto payload (cut payload) := by
  induction hn : payload.length using Nat.strongRecOn generalizing payload with
  | ind n ih =>
    subst hn
    by_cases hshort : payload.length ≤ chunkLen
    · rw [cut_short hshort]
      refine ⟨by simp, by simp, payload, rfl, hshort, Iff.rfl, ?_⟩
      intro hne hdvd
      have hpos := List.length_pos_iff.mpr hne
      by_contra hlt
      rw [Nat.mod_eq_of_lt (by omega)] at hdvd
      omega
    · have hlen : (payload.drop chunkLen).length = payload.length - chunkLen := List.length_drop
      have hchunk : 0 < chunkLen := by decide
      obtain ⟨hflatten, hfull, last, hlast, hle, hempty, hmod⟩ :=
        ih (payload.drop chunkLen).length (by omega) (payload.drop chunkLen) rfl
      have hne : payload.drop chunkLen ≠ [] := by
        rw [ne_eq, List.drop_eq_nil_iff]
        omega
      have hpayload : payload ≠ [] := by
        rintro rfl
        simp at hshort
      rw [cut, dif_neg hshort]
      refine ⟨?_, ?_, last, ?_, hle, ?_, ?_⟩
      · rw [List.flatten_cons, hflatten, List.take_append_drop]
      · intro chunk hmem
        rw [List.dropLast_cons_of_ne_nil (cut_ne_nil _), List.mem_cons] at hmem
        rcases hmem with rfl | hmem
        · rw [List.length_take]
          omega
        · exact hfull chunk hmem
      · rw [List.getLast?_cons, hlast]
        rfl
      · rw [hempty]
        exact ⟨fun h => absurd h hne, fun h => absurd h hpayload⟩
      · intro _ hdvd
        apply hmod hne
        rw [hlen, ← Nat.mod_eq_sub_mod (by omega)]
        exact hdvd

/-! ## The records of a payload -/

section
variable (P : Crypto.Primitives) (key objectId headerHash : Key)

/-- The record of one chunk. -/
def recordOf (counter : ℕ) (kind : UInt8) (chunk : Bytes) : Bytes :=
  encodeRecord kind ((P.aeadSeal key (nonce counter kind)
    (chunkAad objectId headerHash counter kind chunk.length) chunk).getD [])

/-- The records of some chunks: the last is `FINAL`, all others are `DATA`. -/
def recordStream : ℕ → List Bytes → Bytes
  | _, [] => []
  | counter, chunk :: chunks =>
    if chunks = [] then recordOf P key objectId headerHash counter final chunk
    else recordOf P key objectId headerHash counter data chunk ++ recordStream (counter + 1) chunks

/-- The AEAD seals whatever fits a chunk. -/
def SealsChunks : Prop :=
  ∀ nonce aad plaintext, plaintext.length ≤ chunkLen → P.aeadSeal key nonce aad plaintext ≠ none

/-- The loop writes the records of what is left, or runs out of counters. -/
theorem encryptLoop_stream (hseal : SealsChunks P key) {current rest : Bytes} {input : Reader}
    (counter total : ℕ) (hinput : input.Delivers rest) (hlen : current.length ≤ chunkLen)
    (hfull : rest ≠ [] → current.length = chunkLen) (hcounter : counter ≤ maxChunks) :
    (counter + (cut (current ++ rest)).length ≤ maxChunks →
      (encryptLoop P key objectId headerHash current input counter total).output =
        recordStream P key objectId headerHash counter (cut (current ++ rest)) ∧
      (encryptLoop P key objectId headerHash current input counter total).result =
        .ok (total + (current ++ rest).length)) ∧
    (maxChunks < counter + (cut (current ++ rest)).length →
      (encryptLoop P key objectId headerHash current input counter total).result =
        .error .objectTooLarge) := by
  induction hn : rest.length using Nat.strongRecOn generalizing current rest input counter total with
  | ind n ih =>
    subst hn
    have hpos := List.length_pos_iff.mpr (cut_ne_nil (current ++ rest))
    rcases encryptLoop_cases P key objectId headerHash counter total hinput hlen with
      ⟨error, hstop, heq⟩ | ⟨hrest, hlt, ciphertext, hsealed, heq⟩ |
      ⟨hrest, hlt, ciphertext, after, hsealed, hafter, heq⟩
    · rcases hstop with ⟨hge, rfl⟩ | ⟨nonce, aad, hnone⟩
      · refine ⟨fun hle => ?_, fun _ => by rw [heq]⟩
        omega
      · exact absurd hnone (hseal nonce aad current hlen)
    · rw [hrest, List.append_nil, cut_short hlen, heq]
      refine ⟨fun _ => ⟨?_, rfl⟩, fun hlarge => ?_⟩
      · simp [recordStream, recordOf, hsealed]
      · rw [List.length_singleton] at hlarge
        omega
    · have hrestpos := List.length_pos_iff.mpr hrest
      have hshorter : (rest.drop chunkLen).length < rest.length := by
        rw [List.length_drop, chunkLen]
        omega
      have hmore := ih _ hshorter (counter + 1) (total + current.length) hafter
        (List.length_take_le _ _) length_take_of_drop hlt rfl
      rw [List.take_append_drop] at hmore
      rw [cut_append (hfull hrest) hrest, heq, List.length_cons]
      refine ⟨fun hle => ?_, fun hlarge => hmore.2 (by omega)⟩
      obtain ⟨houtput, hresult⟩ := hmore.1 (by omega)
      refine ⟨?_, ?_⟩
      · show encodeRecord data ciphertext ++ _ = _
        rw [houtput, recordStream, if_neg (cut_ne_nil rest), recordOf, hsealed, Option.getD_some]
      · show (encryptLoop P key objectId headerHash _ after _ _).result = _
        rw [hresult, List.length_append, Nat.add_assoc]

/-- Two readers that deliver the same bytes are the same to the loop. -/
theorem encryptLoop_congr {current rest : Bytes} {input input' : Reader} (counter total : ℕ)
    (hinput : input.Delivers rest) (hinput' : input'.Delivers rest) :
    encryptLoop P key objectId headerHash current input counter total =
      encryptLoop P key objectId headerHash current input' counter total := by
  induction hn : maxChunks - counter generalizing current rest input input' counter total with
  | zero =>
    rw [encryptLoop, dif_pos (by omega), encryptLoop, dif_pos (by omega)]
  | succ n ih =>
    obtain ⟨after, hread, hafter⟩ := Reader.readUpTo_of_delivers hinput chunkLen
    obtain ⟨after', hread', hafter'⟩ := Reader.readUpTo_of_delivers hinput' chunkLen
    have hnext := fun total => @ih (rest.take chunkLen) (rest.drop chunkLen) after after'
      (counter + 1) total hafter hafter' (by omega)
    rw [encryptLoop, encryptLoop, readChunk, readChunk, hread, hread']
    simp only [hnext]

/-- **The schedule does not matter.** For a reader that delivers `payload` in whatever schedule of
short reads and interruptions, the output is the record stream of the payload cut into chunks and
the result its length, and the object is too large exactly if there are more than `maxChunks` of
these. Any other reader that delivers it has the same run. -/
theorem schedule_independence (hseal : SealsChunks P key) (payload : Bytes) (input : Reader)
    (hinput : input.Delivers payload) :
    CutInto payload (cut payload) ∧
    ((cut payload).length ≤ maxChunks →
      (encryptRecords P key objectId headerHash input).output =
        recordStream P key objectId headerHash 0 (cut payload) ∧
      (encryptRecords P key objectId headerHash input).result = .ok payload.length) ∧
    ((encryptRecords P key objectId headerHash input).result = .error .objectTooLarge ↔
      maxChunks < (cut payload).length) ∧
    ∀ input' : Reader, input'.Delivers payload →
      encryptRecords P key objectId headerHash input' =
        encryptRecords P key objectId headerHash input := by
  obtain ⟨after, hafter, hrun⟩ := encryptRecords_eq P key objectId headerHash hinput
  have hstream := encryptLoop_stream P key objectId headerHash hseal 0 0 hafter
    (List.length_take_le _ _) length_take_of_drop (Nat.zero_le _)
  rw [List.take_append_drop, Nat.zero_add, Nat.zero_add, ← hrun] at hstream
  refine ⟨cutInto_cut payload, hstream.1, ⟨fun herror => ?_, hstream.2⟩, ?_⟩
  · by_contra hle
    rw [(hstream.1 (by omega)).2] at herror
    cases herror
  · intro input' hinput'
    obtain ⟨after', hafter', hrun'⟩ := encryptRecords_eq P key objectId headerHash hinput'
    rw [hrun, hrun']
    exact encryptLoop_congr P key objectId headerHash 0 0 hafter' hafter

end

/-- The theorem at three bytes that arrive one by one, with an interruption between them. -/
theorem schedule_independence_three_bytes :
    let zero : Key := Vector.replicate 32 0
    let input : Reader := [.data [1], .interrupted, .data [2], .data [3]]
    (encryptRecords Crypto.Primitives.toy zero zero zero input).output =
        recordStream Crypto.Primitives.toy zero zero zero 0 (cut [1, 2, 3]) ∧
      (encryptRecords Crypto.Primitives.toy zero zero zero input).result = .ok 3 := by
  intro zero input
  have hinput : input.Delivers [1, 2, 3] :=
    .data [1] (by decide) (.interrupted (.data [2] (by decide) (.data [3] (by decide) .done)))
  have hcut : (cut [1, 2, 3]).length ≤ maxChunks := by
    rw [cut_short (by decide)]
    decide
  exact (schedule_independence Crypto.Primitives.toy zero zero zero (by simp [SealsChunks,
    Crypto.Primitives.toy]) [1, 2, 3] input hinput).2.1 hcut

/-! ## Readers that go on after an end of input -/

section
variable {P : Crypto.Primitives} (key objectId headerHash : Key)

/-- A `DATA` record that is not full is refused. -/
theorem decryptLoop_short {ciphertext : Bytes} (rest : Bytes) {counter : ℕ} (total : ℕ)
    (hlt : counter < maxChunks) (hshort : ciphertext.length < chunkLen + tagLen) :
    decryptLoop P key objectId headerHash (encodeRecord data ciphertext ++ rest) counter total =
      { result := .error .invalidRecord } := by
  have hbound : ciphertext.length < 256 ^ 4 := by
    rw [chunkLen, tagLen] at hshort
    omega
  have hheader : readPayload 5 (encodeRecord data ciphertext ++ rest) =
      .ok (data :: beBytes 4 ciphertext.length, ciphertext ++ rest) :=
    readPayload_eq_ok.mpr ⟨by simp, by simp [encodeRecord]⟩
  have hrecord : recordLength data ciphertext.length counter = .error .invalidRecord := by
    have hne : data ≠ final := by decide
    unfold recordLength
    by_cases htag : tagLen ≤ ciphertext.length ∧ ciphertext.length ≤ chunkLen + tagLen
    · rw [failIf_neg _ (by rwa [not_not]), ok_bind, if_neg (by omega), if_neg (fun h => hne h.1)]
    · rw [failIf_pos _ htag]
      rfl
  have hread : readRecord counter (encodeRecord data ciphertext ++ rest) =
      .error .invalidRecord := by
    unfold readRecord
    rw [hheader, ok_bind]
    simp only [List.headD_cons, List.tail_cons, ofBe_beBytes hbound, hrecord]
    rfl
  rw [decryptLoop, dif_pos hlt, hread]

/-- Whether a writer that holds `current` and will read `input` goes on to write full `DATA`
records only. -/
def writesFull (current : Bytes) (input : Reader) (counter : ℕ) : Bool :=
  if current.length = chunkLen then input.settled chunkLen ((counter + 1) * chunkLen)
  else !input.dataNext

/-- What the condition says of the chunk that is read next. -/
theorem writesFull_of_readChunk {got counter : ℕ} {next : Bytes} {input after : Reader}
    (hgot : got = counter * chunkLen) (hread : readChunk input = (.ok next, after))
    (hfirst : got = 0 ∨ next ≠ []) :
    input.settled chunkLen got = writesFull next after counter := by
  have hchunk : 0 < chunkLen := by decide
  unfold writesFull
  rcases Reader.settled_of_readUpTo hchunk hread with ⟨hlen, heq⟩ | ⟨hlen, heq⟩
  · rw [if_pos hlen, heq, hgot, Nat.add_mul, Nat.one_mul]
  · have hinside : ¬(0 < got + next.length ∧ (got + next.length) % chunkLen = 0) := by
      rintro ⟨hpos, hmod⟩
      rw [hgot, Nat.mul_add_mod_self_right, Nat.mod_eq_of_lt hlen, List.length_eq_zero_iff] at hmod
      rcases hfirst with hzero | hne
      · rw [hzero, hmod] at hpos
        exact absurd hpos (by decide)
      · exact hne hmod
    rw [if_neg (by omega), heq]
    simp only [Bool.or_eq_right_iff_imp, Bool.and_eq_true, decide_eq_true_eq]
    exact fun h => absurd h hinside

/-- What the rest of a successful run writes is read back whole, or refused, depending on whether
its `DATA` records are full. -/
theorem decryptLoop_of_writesFull (hP : AeadCorrect P) {current : Bytes} {input : Reader}
    (counter total n : ℕ) (hlen : current.length ≤ chunkLen) (hne : current.length > 0 ∨ counter = 0)
    (hok : (encryptLoop P key objectId headerHash current input counter total).result = .ok n)
    (total' : ℕ) :
    n = total + (current ++ (input.chunks chunkLen).flatten).length ∧
    (writesFull current input counter = true →
      decryptLoop P key objectId headerHash
          (encryptLoop P key objectId headerHash current input counter total).output counter total' =
        { staging := current ++ (input.chunks chunkLen).flatten
          result := .ok (total' + (current ++ (input.chunks chunkLen).flatten).length) }) ∧
    (writesFull current input counter = false →
      ∃ error, (decryptLoop P key objectId headerHash
        (encryptLoop P key objectId headerHash current input counter total).output counter
        total').result = .error error) := by
  -- on the counters that are left
  induction hm : maxChunks - counter generalizing current input counter total total' with
  | zero =>
    rw [encryptLoop, dif_pos (by omega)] at hok
    cases hok
  | succ m ih =>
    have hchunk : 0 < chunkLen := by decide
    -- the first three turns end the run with an error
    rcases encryptLoop_turn P key objectId headerHash input counter total hlen with
      ⟨-, heq⟩ | ⟨-, _, _, -, heq⟩ | ⟨-, _, _, -, -, heq⟩ |
      ⟨hlt, after, ciphertext, hread, hseal, heq⟩ |
      ⟨hlt, next, after, ciphertext, hread, hnext, hseal, heq⟩
    · rw [heq] at hok
      cases hok
    · rw [heq] at hok
      cases hok
    · rw [heq] at hok
      cases hok
    · -- the last record, whatever its length
      have hopen := decryptLoop_open P key objectId headerHash [] total' hlt
        (hP.opens _ _ _ _ _ hseal) (hP.length _ _ _ _ _ hseal) (Or.inr ⟨rfl, hlen, hne⟩)
      rw [List.append_nil] at hopen
      rw [heq] at hok ⊢
      rw [Reader.chunks_nil hread, List.flatten_nil, List.append_nil, hopen]
      refine ⟨(Except.ok.inj hok).symm, fun _ => by simp [afterRecord], fun hfull => ?_⟩
      have hquiet : input.dataNext = false := Reader.dataNext_of_readUpTo hchunk hread
      have hsettled : input.settled chunkLen ((counter + 1) * chunkLen) = true := by
        rcases Reader.settled_of_readUpTo hchunk hread with ⟨hfilled, -⟩ | ⟨-, hsettled⟩
        · rw [List.length_nil] at hfilled
          omega
        · rw [hsettled, List.length_nil, Nat.add_zero, Nat.mul_mod_left]
          simp [chunkLen]
      unfold writesFull at hfull
      rw [hsettled, hquiet] at hfull
      simp at hfull
    · -- a `DATA` record, and the rest of the run after it
      rw [heq] at hok ⊢
      have hdata : data ≠ final := by decide
      have hflatten : current ++ (input.chunks chunkLen).flatten =
          current ++ (next ++ (after.chunks chunkLen).flatten) := by
        rw [Reader.chunks_cons hnext hread, List.flatten_cons]
      have hcipher := hP.length _ _ _ _ _ hseal
      obtain ⟨hn, hwhole, hrefused⟩ := ih (counter + 1) (total + current.length)
        (length_of_readChunk hread) (Or.inl (List.length_pos_iff.mpr hnext)) hok
        (total' + current.length) (by omega)
      rw [hflatten]
      refine ⟨?_, ?_, ?_⟩
      · simp only [hn, List.length_append, Nat.add_assoc]
      · intro hfull
        by_cases hcurrent : current.length = chunkLen
        · have hrest : writesFull next after (counter + 1) = true := by
            rw [← writesFull_of_readChunk rfl hread (Or.inr hnext)]
            rwa [writesFull, if_pos hcurrent] at hfull
          rw [decryptLoop_open P key objectId headerHash _ total' hlt (hP.opens _ _ _ _ _ hseal)
            hcipher (Or.inl ⟨rfl, hcurrent⟩), afterRecord, if_neg hdata, hwhole hrest]
          simp only [List.length_append, Nat.add_assoc]
        · -- a short chunk with more data after it
          rw [writesFull, if_neg hcurrent, Reader.dataNext_of_readUpTo hchunk hread] at hfull
          simp [hnext] at hfull
      · intro hfull
        by_cases hcurrent : current.length = chunkLen
        · have hrest : writesFull next after (counter + 1) = false := by
            rw [← writesFull_of_readChunk rfl hread (Or.inr hnext)]
            rwa [writesFull, if_pos hcurrent] at hfull
          rw [decryptLoop_open P key objectId headerHash _ total' hlt (hP.opens _ _ _ _ _ hseal)
            hcipher (Or.inl ⟨rfl, hcurrent⟩), afterRecord, if_neg hdata]
          exact hrefused hrest
        · -- a short `DATA` record is refused
          rw [decryptLoop_short key objectId headerHash _ total' hlt (by omega)]
          exact ⟨_, rfl⟩

/-- The same for a whole run. -/
theorem decryptRecords_of_settled (hP : AeadCorrect P) {input : Reader} {total : ℕ}
    (hok : (encryptRecords P key objectId headerHash input).result = .ok total) :
    total = (input.bytesRead chunkLen).length ∧
    (input.settled chunkLen 0 = true →
      decryptRecords P key objectId headerHash
          (encryptRecords P key objectId headerHash input).output =
        { staging := input.bytesRead chunkLen, result := .ok total }) ∧
    (input.settled chunkLen 0 = false →
      ∃ error, (decryptRecords P key objectId headerHash
        (encryptRecords P key objectId headerHash input).output).result = .error error) := by
  unfold encryptRecords at hok ⊢
  rcases hread : readChunk input with ⟨error | first, after⟩
  · rw [hread] at hok
    cases hok
  · rw [hread] at hok
    have hbytes : input.bytesRead chunkLen = first ++ (after.chunks chunkLen).flatten := by
      unfold Reader.bytesRead
      rw [show Reader.readUpTo chunkLen input = _ from hread]
    obtain ⟨htotal, hwhole, hrefused⟩ := decryptLoop_of_writesFull key objectId headerHash hP 0 0
      total (length_of_readChunk hread) (Or.inr rfl) hok 0
    rw [Nat.zero_add, ← hbytes] at htotal
    rw [Nat.zero_add, ← hbytes, ← htotal] at hwhole
    rw [writesFull_of_readChunk (Nat.zero_mul chunkLen).symm hread (Or.inl rfl)]
    exact ⟨htotal, hwhole, hrefused⟩

/-- **When a reported success can be opened.** Let a run return `total`, on whatever reader. Then
`decryptRecords` accepts what it wrote and stages the `total` bytes that were read, if and only if
the first end of input the reader reports is either at the end of a full chunk or not followed by
more data. -/
theorem encryption_opens_iff (hP : AeadCorrect P) (input : Reader) (total : ℕ)
    (hok : (encryptRecords P key objectId headerHash input).result = .ok total) :
    (total = (input.bytesRead chunkLen).length ∧
      decryptRecords P key objectId headerHash
          (encryptRecords P key objectId headerHash input).output =
        { staging := input.bytesRead chunkLen, result := .ok total }) ↔
      input.settled chunkLen 0 = true := by
  obtain ⟨htotal, hwhole, hrefused⟩ := decryptRecords_of_settled key objectId headerHash hP hok
  constructor
  · rintro ⟨-, hopened⟩
    rw [← Bool.not_eq_false]
    intro hunsettled
    obtain ⟨error, herror⟩ := hrefused hunsettled
    rw [hopened] at herror
    cases herror
  · intro hsettled
    exact ⟨htotal, hwhole hsettled⟩

end

/-- A toy run over two chunks, the first of which an end of input cut short. -/
theorem encryptRecords_growing :
    let zero : Key := Vector.replicate 32 0
    (encryptRecords Crypto.Primitives.toy zero zero zero [.data [1, 2, 3], .data [], .data [4]]).result =
      .ok 4 := by
  intro zero
  have hfirst : readChunk [.data [1, 2, 3], .data [], .data [4]] = (.ok [1, 2, 3], [.data [4]]) := by
    simp [readChunk, Reader.readUpTo, chunkLen, Except.map]
  have hsecond : readChunk [.data [4]] = (.ok [4], []) := by
    simp [readChunk, Reader.readUpTo, chunkLen, Except.map]
  rw [encryptRecords, hfirst]
  show (encryptLoop _ zero zero zero [1, 2, 3] [.data [4]] 0 0).result = _
  rw [encryptLoop, dif_neg (by decide), hsecond]
  show (encryptLoop _ zero zero zero [4] [] 1 3).result = _
  rw [encryptLoop, dif_neg (by decide)]
  rfl

/-- The theorem at three bytes with an end of input that is the end. -/
theorem encryption_opens_three_bytes :
    let zero : Key := Vector.replicate 32 0
    let input : Reader := [.data [1, 2], .interrupted, .data [3], .data [], .interrupted]
    decryptRecords Crypto.Primitives.toy zero zero zero
        (encryptRecords Crypto.Primitives.toy zero zero zero input).output =
      { staging := input.bytesRead chunkLen, result := .ok 3 } := by
  intro zero input
  have hfirst : readChunk input = (.ok [1, 2, 3], [.interrupted]) := by
    simp [input, readChunk, Reader.readUpTo, chunkLen, Except.map]
  have hsecond : readChunk [.interrupted] = (.ok [], []) := by
    simp [readChunk, Reader.readUpTo, chunkLen]
  have hok : (encryptRecords Crypto.Primitives.toy zero zero zero input).result = .ok 3 := by
    rw [encryptRecords, hfirst]
    show (encryptLoop _ zero zero zero [1, 2, 3] [.interrupted] 0 0).result = _
    rw [encryptLoop, dif_neg (by decide), hsecond]
    rfl
  exact ((encryption_opens_iff zero zero zero toy_aeadCorrect input 3 hok).mpr (by decide)).2

/-- Three bytes, an end of input, and one byte more: four bytes are reported as encrypted, and the
output does not open. -/
theorem growing_input_does_not_open :
    let zero : Key := Vector.replicate 32 0
    let input : Reader := [.data [1, 2, 3], .data [], .data [4]]
    (encryptRecords Crypto.Primitives.toy zero zero zero input).result = .ok 4 ∧
      ∀ total, (decryptRecords Crypto.Primitives.toy zero zero zero
        (encryptRecords Crypto.Primitives.toy zero zero zero input).output).result ≠ .ok total := by
  intro zero input
  have hok := encryptRecords_growing
  obtain ⟨-, -, hrefused⟩ := decryptRecords_of_settled zero zero zero toy_aeadCorrect hok
  obtain ⟨error, herror⟩ := hrefused (by decide)
  refine ⟨hok, fun total h => ?_⟩
  rw [herror] at h
  cases h

end HideProtocol.Object
