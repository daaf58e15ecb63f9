import HideProtocol.Lib.Parser

/-!
# Readers

What `std::io::Read` may do, as the list of answers to successive `read` calls: some bytes, an
interruption, or a failure. Bytes beyond what a call asked for stay for the next one, no bytes
at all is an end of input, and after the last answer every call returns an end of input. A
reader may go on after an end of input, as a file that is being appended to does.
-/

namespace HideProtocol.Lib

/-- Any I/O error other than an interruption. -/
structure IoError where
  code : ℕ
deriving DecidableEq, Repr

/-- One answer to a `read` call. -/
inductive ReadStep where
  | data (bytes : Bytes)
  | interrupted
  | failed (error : IoError)
deriving DecidableEq, Repr

abbrev Reader := List ReadStep

namespace Reader

/-- Reads until `want` bytes have arrived or the reader reports an end of input, retrying
interruptions. Returns what arrived and the reader after it. -/
def readUpTo : ℕ → Reader → Except IoError Bytes × Reader
  | 0, reader => (.ok [], reader)
  | _, [] => (.ok [], [])
  | want, .interrupted :: reader => readUpTo want reader
  | _, .failed error :: reader => (.error error, reader)
  | want, .data bytes :: reader =>
    if bytes = [] then (.ok [], reader)
    else if bytes.length ≤ want then
      -- a short read: ask again for the rest
      let (more, reader) := readUpTo (want - bytes.length) reader
      (more.map (bytes ++ ·), reader)
    else (.ok (bytes.take want), .data (bytes.drop want) :: reader)

/-- No more than `want` bytes are read. -/
theorem length_of_readUpTo {want : ℕ} {reader after : Reader} {bytes : Bytes}
    (h : readUpTo want reader = (.ok bytes, after)) : bytes.length ≤ want := by
  fun_induction readUpTo want reader generalizing bytes after with
  | case1 => cases h; exact Nat.zero_le _
  | case2 => cases h; exact Nat.zero_le _
  | case3 want reader _ ih => exact ih h
  | case4 => cases h
  | case5 => cases h; exact Nat.zero_le _
  | case6 want first reader _ hne hle more rest hread ih =>
    rcases more with error | more
    · cases h
    · cases h
      have hmore := ih hread
      rw [List.length_append]
      omega
  | case7 want first reader _ hne hgt =>
    cases h
    exact List.length_take_le _ _

/-- The reader hands out exactly `bytes`, in some schedule of short reads and interruptions,
and then an end of input for ever. -/
inductive Delivers : Reader → Bytes → Prop
  | done : Delivers [] []
  | interrupted {reader : Reader} {bytes : Bytes} (h : Delivers reader bytes) :
      Delivers (.interrupted :: reader) bytes
  | data {reader : Reader} {bytes : Bytes} (first : Bytes) (hne : first ≠ [])
      (h : Delivers reader bytes) : Delivers (.data first :: reader) (first ++ bytes)

/-- A byte slice as a reader. -/
def ofBytes (bytes : Bytes) : Reader := if bytes = [] then [] else [.data bytes]

theorem delivers_ofBytes (bytes : Bytes) : Delivers (ofBytes bytes) bytes := by
  unfold ofBytes
  split
  next h =>
    rw [h]
    exact .done
  next h =>
    have hd := Delivers.data bytes h .done
    rwa [List.append_nil] at hd

/-- Reading from a reader that delivers `bytes` yields their first `want`, and leaves a reader
that delivers the rest, whatever the schedule. -/
theorem readUpTo_of_delivers {reader : Reader} {bytes : Bytes} (h : Delivers reader bytes)
    (want : ℕ) :
    ∃ after, readUpTo want reader = (.ok (bytes.take want), after) ∧
      Delivers after (bytes.drop want) := by
  induction h generalizing want with
  | done =>
    refine ⟨[], ?_, ?_⟩
    · cases want <;> simp [readUpTo]
    · rw [List.drop_nil]
      exact .done
  | @interrupted reader bytes h ih =>
    match want with
    | 0 => exact ⟨.interrupted :: reader, by simp [readUpTo], Delivers.interrupted h⟩
    | want + 1 =>
      obtain ⟨after, hread, hafter⟩ := ih (want + 1)
      exact ⟨after, by rw [readUpTo, hread]; omega, hafter⟩
  | @data reader bytes first hne h ih =>
    match want with
    | 0 => exact ⟨.data first :: reader, by simp [readUpTo], Delivers.data first hne h⟩
    | want + 1 =>
      by_cases hle : first.length ≤ want + 1
      · obtain ⟨after, hread, hafter⟩ := ih (want + 1 - first.length)
        refine ⟨after, ?_, ?_⟩
        · rw [readUpTo, if_neg hne, if_pos hle, hread, List.take_append]
          · simp [Except.map, List.take_of_length_le hle]
          · omega
        · rw [List.drop_append, List.drop_of_length_le hle, List.nil_append]
          exact hafter
      · have hlt : want + 1 ≤ first.length := by omega
        refine ⟨.data (first.drop (want + 1)) :: reader, ?_, ?_⟩
        · rw [readUpTo, if_neg hne, if_neg hle, List.take_append_of_le_length hlt]
          omega
        · rw [List.drop_append_of_le_length hlt]
          apply Delivers.data _ _ h
          intro hnil
          rw [List.drop_eq_nil_iff] at hnil
          omega

/-! ## Reading in chunks

A caller that reads chunk after chunk takes an empty one for the end. A chunk that is short for
another reason is one that an end of input came in, with more data after it. -/

/-- What is left in a reader, with one for every answer. -/
def size : Reader → ℕ
  | [] => 0
  | .data bytes :: reader => bytes.length + 1 + size reader
  | .interrupted :: reader => 1 + size reader
  | .failed _ :: reader => 1 + size reader

theorem size_of_readUpTo {want : ℕ} {reader after : Reader} {bytes : Bytes}
    (h : readUpTo want reader = (.ok bytes, after)) : bytes.length + after.size ≤ reader.size := by
  fun_induction readUpTo want reader generalizing bytes after with
  | case1 => cases h; simp
  | case2 => cases h; simp
  | case3 want reader _ ih =>
    have := ih h
    rw [size]
    omega
  | case4 => cases h
  | case5 want reader => cases h; rw [size, List.length_nil]; omega
  | case6 want first reader _ hne hle more rest hread ih =>
    rcases more with error | more
    · cases h
    · cases h
      have hmore := ih hread
      rw [List.length_append, size]
      omega
  | case7 want first reader _ hne hgt =>
    cases h
    rw [size, size, List.length_take, List.length_drop]
    omega

/-- What reads of `want` bytes each return, up to one that returns nothing or fails. -/
def chunks (want : ℕ) (reader : Reader) : List Bytes :=
  match _h : readUpTo want reader with
  | (.ok (byte :: bytes), after) => (byte :: bytes) :: chunks want after
  | _ => []
termination_by reader.size
decreasing_by
  have := size_of_readUpTo _h
  rw [List.length_cons] at this
  omega

theorem chunks_cons {want : ℕ} {reader after : Reader} {bytes : Bytes} (hne : bytes ≠ [])
    (h : readUpTo want reader = (.ok bytes, after)) :
    reader.chunks want = bytes :: after.chunks want := by
  obtain ⟨byte, bytes, rfl⟩ := List.exists_cons_of_ne_nil hne
  rw [chunks]
  split
  next heq =>
    rw [h] at heq
    cases heq
    rfl
  next hno => exact absurd h (hno _ _ _)

theorem chunks_nil {want : ℕ} {reader after : Reader}
    (h : readUpTo want reader = (.ok [], after)) : reader.chunks want = [] := by
  rw [chunks]
  split
  next heq =>
    rw [h] at heq
    cases heq
  next => rfl

/-- What is read in chunks of `want` bytes: the first, and all up to an empty one. -/
def bytesRead (want : ℕ) (reader : Reader) : Bytes :=
  match readUpTo want reader with
  | (.ok first, after) => first ++ (after.chunks want).flatten
  | (.error _, _) => []

/-- Whether the next answer, after interruptions, is more data. -/
def dataNext : Reader → Bool
  | .interrupted :: reader => dataNext reader
  | .data bytes :: _ => bytes ≠ []
  | .failed _ :: _ => false
  | [] => false

/-- After `got` bytes: the next end of input either stands at the end of a full chunk, or is not
followed by more data. -/
def settled (want : ℕ) : ℕ → Reader → Bool
  | got, .interrupted :: reader => settled want got reader
  | got, .data bytes :: reader =>
    if bytes = [] then (0 < got && got % want = 0) || !dataNext reader
    else settled want (got + bytes.length) reader
  | _, .failed _ :: _ => true
  | _, [] => true

/-- A read returns nothing exactly if there is no more data next. -/
theorem dataNext_of_readUpTo {want : ℕ} (hwant : 0 < want) {reader after : Reader} {bytes : Bytes}
    (h : readUpTo want reader = (.ok bytes, after)) : dataNext reader = decide (bytes ≠ []) := by
  fun_induction readUpTo want reader generalizing bytes after with
  | case1 => omega
  | case2 => cases h; rfl
  | case3 want reader _ ih => exact ih hwant h
  | case4 => cases h
  | case5 want reader => cases h; rfl
  | case6 want first reader _ hne hle more rest hread ih =>
    rcases more with error | more
    · cases h
    · cases h
      simp [dataNext, hne]
  | case7 want first reader hpos hne hgt =>
    cases h
    have htake : first.take want ≠ [] := by
      rw [ne_eq, List.take_eq_nil_iff]
      simp [hne, hwant.ne']
    simp [dataNext, hne, htake]

/-- Reading to the end of a chunk, of which `room` bytes are left: the chunk is filled, or an end
of input came first. -/
theorem settled_of_readUpTo {want room got : ℕ} {reader after : Reader} {bytes : Bytes}
    (hroom : 0 < room) (h : readUpTo room reader = (.ok bytes, after)) :
    (bytes.length = room ∧ settled want got reader = settled want (got + room) after) ∨
    (bytes.length < room ∧ settled want got reader =
      ((0 < got + bytes.length && (got + bytes.length) % want = 0) || !dataNext after)) := by
  fun_induction readUpTo room reader generalizing bytes after got with
  | case1 => omega
  | case2 => cases h; simp [settled, dataNext, hroom]
  | case3 room reader _ ih => exact ih hroom h
  | case4 => cases h
  | case5 room reader =>
    cases h
    right
    exact ⟨hroom, by simp [settled]⟩
  | case6 room first reader _ hne hle more rest hread ih =>
    rcases more with error | more
    · cases h
    · cases h
      have hfirst : settled want got (.data first :: reader) =
          settled want (got + first.length) reader := by
        rw [settled, if_neg hne]
      rw [hfirst, List.length_append, ← Nat.add_assoc]
      by_cases hfull : room = first.length
      · -- the answer fills the chunk exactly
        rw [hfull, Nat.sub_self, readUpTo] at hread
        cases hread
        left
        exact ⟨by simp [hfull], by rw [hfull]⟩
      · have hsum : got + first.length + (room - first.length) = got + room := by omega
        rw [← hsum]
        rcases ih (by omega) hread with ⟨hlen, heq⟩ | ⟨hlen, heq⟩
        · left
          exact ⟨by omega, heq⟩
        · right
          exact ⟨by omega, heq⟩
  | case7 room first reader _ hne hgt =>
    cases h
    left
    have hdrop : first.drop room ≠ [] := by
      rw [ne_eq, List.drop_eq_nil_iff]
      omega
    refine ⟨by rw [List.length_take]; omega, ?_⟩
    rw [settled, if_neg hne, settled, if_neg hdrop, List.length_drop, Nat.add_assoc,
      Nat.add_sub_cancel' (by omega)]

/-! ## Up to the first end -/

/-- What a reader hands out before its first end of input or failure, and the failure. -/
def upToEnd : Reader → Bytes × Option IoError
  | [] => ([], none)
  | .interrupted :: reader => upToEnd reader
  | .failed error :: _ => ([], some error)
  | .data bytes :: reader =>
    if bytes = [] then ([], none)
    else
      let (more, failure) := upToEnd reader
      (bytes ++ more, failure)

theorem readUpTo_of_le {reader : Reader} {bytes : Bytes} {failure : Option IoError} {want : ℕ}
    (h : reader.upToEnd = (bytes, failure)) (hle : want ≤ bytes.length) :
    ∃ after, readUpTo want reader = (.ok (bytes.take want), after) ∧
      after.upToEnd = (bytes.drop want, failure) := by
  fun_induction readUpTo want reader generalizing bytes with
  | case1 reader => exact ⟨reader, by rw [List.take_zero], by rw [List.drop_zero, h]⟩
  | case2 want =>
    cases h
    exact ⟨[], by rw [List.take_nil], by rw [List.drop_nil]; rfl⟩
  | case3 want reader _ ih => exact ih h hle
  | case4 want error reader hpos =>
    cases h
    exact absurd (Nat.le_zero.mp hle) hpos
  | case5 want reader hpos =>
    cases h
    exact absurd (Nat.le_zero.mp hle) hpos
  | case6 want first reader _ hne hshort more rest hread ih =>
    rw [upToEnd, if_neg hne] at h
    cases h
    obtain ⟨after, hafter, hrest⟩ := ih rfl (by rw [List.length_append] at hle; omega)
    rw [hread] at hafter
    cases hafter
    refine ⟨rest, ?_, ?_⟩
    · rw [List.take_append, List.take_of_length_le hshort]
      rfl
    · rw [hrest, List.drop_append, List.drop_of_length_le hshort, List.nil_append]
  | case7 want first reader _ hne hlong =>
    rw [upToEnd, if_neg hne] at h
    cases h
    have hlt : want ≤ first.length := by omega
    have hdrop : first.drop want ≠ [] := by
      rw [ne_eq, List.drop_eq_nil_iff]
      omega
    refine ⟨_, by rw [List.take_append_of_le_length hlt], ?_⟩
    rw [upToEnd, if_neg hdrop, List.drop_append_of_le_length hlt]

theorem readUpTo_of_lt {reader : Reader} {bytes : Bytes} {failure : Option IoError} {want : ℕ}
    (h : reader.upToEnd = (bytes, failure)) (hlt : bytes.length < want) :
    (readUpTo want reader).1 = failure.elim (.ok bytes) .error := by
  fun_induction readUpTo want reader generalizing bytes with
  | case1 => omega
  | case2 =>
    cases h
    rfl
  | case3 want reader _ ih => exact ih h hlt
  | case4 =>
    cases h
    rfl
  | case5 =>
    cases h
    rfl
  | case6 want first reader _ hne hshort more rest hread ih =>
    rw [upToEnd, if_neg hne] at h
    cases h
    have hmore := ih rfl (by rw [List.length_append] at hlt; omega)
    rw [hread] at hmore
    dsimp only at hmore ⊢
    rw [hmore]
    cases (upToEnd reader).2 <;> rfl
  | case7 want first reader _ hne hlong =>
    rw [upToEnd, if_neg hne] at h
    cases h
    rw [List.length_append] at hlt
    omega

/-- Why `read_exact` fails. -/
inductive ReadError where
  | unexpectedEof
  | io (error : IoError)
deriving DecidableEq, Repr

/-- `read_exact`. -/
def readExact (want : ℕ) (reader : Reader) : Except ReadError Bytes × Reader :=
  match readUpTo want reader with
  | (.ok bytes, after) =>
    if bytes.length < want then (.error .unexpectedEof, after) else (.ok bytes, after)
  | (.error error, after) => (.error (.io error), after)

theorem readExact_of_le {reader : Reader} {bytes : Bytes} {failure : Option IoError} {want : ℕ}
    (h : reader.upToEnd = (bytes, failure)) (hle : want ≤ bytes.length) :
    ∃ after, readExact want reader = (.ok (bytes.take want), after) ∧
      after.upToEnd = (bytes.drop want, failure) := by
  obtain ⟨after, hread, hafter⟩ := readUpTo_of_le h hle
  refine ⟨after, ?_, hafter⟩
  unfold readExact
  rw [hread]
  exact if_neg (by rw [List.length_take_of_le hle]; exact lt_irrefl want)

theorem readExact_of_lt {reader : Reader} {bytes : Bytes} {failure : Option IoError} {want : ℕ}
    (h : reader.upToEnd = (bytes, failure)) (hlt : bytes.length < want) :
    (readExact want reader).1 = .error (failure.elim .unexpectedEof .io) := by
  have hread := readUpTo_of_lt h hlt
  unfold readExact
  rcases hresult : readUpTo want reader with ⟨result, after⟩
  rw [hresult] at hread
  dsimp only at hread
  rw [hread]
  cases failure with
  | none =>
    dsimp only [Option.elim]
    rw [if_pos hlt]
  | some error => rfl

theorem size_of_readExact {want : ℕ} {reader after : Reader} {bytes : Bytes}
    (h : readExact want reader = (.ok bytes, after)) :
    want + after.size ≤ reader.size := by
  unfold readExact at h
  split at h
  next found after' hread =>
    split at h
    next => cases h
    next hlong =>
      cases h
      have hsize := size_of_readUpTo hread
      omega
  next => cases h

end Reader

end HideProtocol.Lib
