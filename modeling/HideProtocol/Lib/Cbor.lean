import HideProtocol.Lib.Parser

/-!
# CBOR heads, byte strings, text, arrays and maps

The part of RFC 8949 that a length-delimited wire format uses. Every item begins with a
head: three bits of major type and an argument, stored in the low five bits or in the
1, 2, 4 or 8 bytes that follow.

The writer always emits the shortest head. The pull reader accepts an argument at any
width, reports an indefinite-length array or map as `none`, refuses indefinite-length
strings, and its narrow integer readers refuse values that do not fit: a decoder that
wants one byte form per value has to compare with a re-encoding.
-/

namespace HideProtocol.Lib.Cbor

/-! ## Writing -/

/-- The shortest head of major type `major` with argument `n`. -/
def head (major n : ℕ) : Bytes :=
  if n < 24 then [UInt8.ofNat (major * 32 + n)]
  else if n < 2 ^ 8 then UInt8.ofNat (major * 32 + 24) :: beBytes 1 n
  else if n < 2 ^ 16 then UInt8.ofNat (major * 32 + 25) :: beBytes 2 n
  else if n < 2 ^ 32 then UInt8.ofNat (major * 32 + 26) :: beBytes 4 n
  else UInt8.ofNat (major * 32 + 27) :: beBytes 8 n

/-- An unsigned integer, whatever the width of the Rust type it comes from. -/
def uint (n : ℕ) : Bytes := head 0 n

/-- A byte string. -/
def bytes (bs : Bytes) : Bytes := head 2 bs.length ++ bs

/-- A text string. -/
def str (s : String) : Bytes := head 3 (utf8 s).length ++ utf8 s

/-- The head of an array of `n` items. -/
def array (n : ℕ) : Bytes := head 4 n

/-- The head of a map of `n` entries. -/
def map (n : ℕ) : Bytes := head 5 n

/-- The length of the shortest head for an argument. -/
def headLen (n : ℕ) : ℕ :=
  if n < 24 then 1 else if n < 2 ^ 8 then 2 else if n < 2 ^ 16 then 3 else if n < 2 ^ 32 then 5 else 9

theorem headLen_le (n : ℕ) : headLen n ≤ 9 := by
  unfold headLen
  split_ifs <;> omega

@[simp] theorem length_head (major n : ℕ) : (head major n).length = headLen n := by
  unfold head headLen
  split_ifs <;> simp

/-! ## Reading -/

/-- The next `n` bytes. -/
def readSlice (n : ℕ) (bs : Bytes) : Option (Bytes × Bytes) :=
  if bs.length < n then none else some (bs.take n, bs.drop n)

/-- A `w`-byte big-endian argument. -/
def readBe (w : ℕ) (bs : Bytes) : Option (ℕ × Bytes) :=
  (readSlice w bs).map fun r => (ofBe r.1, r.2)

/-- The argument announced by the low five bits of a head; 28 to 31 announce none. -/
def readArg (info : ℕ) (bs : Bytes) : Option (ℕ × Bytes) :=
  if info < 24 then some (info, bs)
  else if info = 24 then readBe 1 bs
  else if info = 25 then readBe 2 bs
  else if info = 26 then readBe 4 bs
  else if info = 27 then readBe 8 bs
  else none

/-- A definite head of major type `major`, at any width. -/
def readHead (major : ℕ) : Bytes → Option (ℕ × Bytes)
  | [] => none
  | b :: bs => if b.toNat / 32 = major then readArg (b.toNat % 32) bs else none

/-- An unsigned integer below `bound`; larger values are refused, not truncated. -/
def readUintBelow (bound : ℕ) (bs : Bytes) : Option (ℕ × Bytes) :=
  match readHead 0 bs with
  | some (n, rest) => if n < bound then some (n, rest) else none
  | none => none

def readU8 : Bytes → Option (ℕ × Bytes) := readUintBelow (2 ^ 8)

def readU16 : Bytes → Option (ℕ × Bytes) := readUintBelow (2 ^ 16)

def readU64 : Bytes → Option (ℕ × Bytes) := readUintBelow (2 ^ 64)

/-- A definite byte string. -/
def readBytes (bs : Bytes) : Option (Bytes × Bytes) :=
  match readHead 2 bs with
  | some (n, rest) => readSlice n rest
  | none => none

/-- A definite, valid UTF-8 text string. -/
def readStr (bs : Bytes) : Option (String × Bytes) :=
  match readHead 3 bs with
  | some (n, rest) =>
    match readSlice n rest with
    | some (text, rest) => (fromUtf8 text).map fun s => (s, rest)
    | none => none
  | none => none

/-- The head of a container of major type `major`: its count, or `none` when indefinite. -/
def readContainer (major : ℕ) (bs : Bytes) : Option (Option ℕ × Bytes) :=
  match bs with
  | [] => none
  | b :: rest =>
    if b.toNat = major * 32 + 31 then some (none, rest)
    else (readHead major (b :: rest)).map fun r => (some r.1, r.2)

def readArray : Bytes → Option (Option ℕ × Bytes) := readContainer 4

def readMap : Bytes → Option (Option ℕ × Bytes) := readContainer 5

/-! ## What is read is of 64 bits -/

theorem readSlice_eq_some {n : ℕ} {bs content rest : Bytes}
    (h : readSlice n bs = some (content, rest)) : content.length = n := by
  unfold readSlice at h
  split at h
  · cases h
  · cases h
    exact List.length_take_of_le (by omega)

theorem readBe_lt {w n : ℕ} {bs rest : Bytes} (h : readBe w bs = some (n, rest)) : n < 256 ^ w := by
  unfold readBe at h
  obtain ⟨⟨content, after⟩, hslice, heq⟩ := Option.map_eq_some_iff.mp h
  cases heq
  have hlt := ofBe_lt content
  rwa [readSlice_eq_some hslice] at hlt

theorem readArg_lt {info n : ℕ} {bs rest : Bytes} (h : readArg info bs = some (n, rest)) :
    n < 2 ^ 64 := by
  unfold readArg at h
  split_ifs at h
  · cases h
    omega
  · exact (readBe_lt h).trans (by omega)
  · exact (readBe_lt h).trans (by omega)
  · exact (readBe_lt h).trans (by omega)
  · exact readBe_lt h

theorem readHead_lt {major n : ℕ} {bs rest : Bytes} (h : readHead major bs = some (n, rest)) :
    n < 2 ^ 64 := by
  cases bs with
  | nil => cases h
  | cons b bs =>
    rw [readHead] at h
    split at h
    · exact readArg_lt h
    · cases h

/-- The length of a string that was read fits into a head. -/
theorem length_of_readBytes {bs content rest : Bytes} (h : readBytes bs = some (content, rest)) :
    content.length < 2 ^ 64 := by
  unfold readBytes at h
  split at h
  · rename_i n after hhead
    rw [readSlice_eq_some h]
    exact readHead_lt hhead
  · cases h

/-! ## The reader undoes the writer -/

theorem readSlice_append (bs rest : Bytes) : readSlice bs.length (bs ++ rest) = some (bs, rest) := by
  simp [readSlice]

theorem readBe_beBytes {w n : ℕ} (h : n < 256 ^ w) (rest : Bytes) :
    readBe w (beBytes w n ++ rest) = some (n, rest) := by
  have hs := readSlice_append (beBytes w n) rest
  rw [length_beBytes] at hs
  simp [readBe, hs, ofBe_beBytes h]

/-- The low five bits and the major type of an initial byte. -/
theorem initial_byte {major info : ℕ} (hm : major < 8) (hi : info < 32) :
    (UInt8.ofNat (major * 32 + info)).toNat / 32 = major ∧
      (UInt8.ofNat (major * 32 + info)).toNat % 32 = info := by
  rw [UInt8.toNat_ofNat']
  omega

/-- Reading a head whose argument has been split off. -/
private theorem readHead_cons {major info n : ℕ} {bs rest : Bytes} (hm : major < 8)
    (hi : info < 32) (h : readArg info bs = some (n, rest)) :
    readHead major (UInt8.ofNat (major * 32 + info) :: bs) = some (n, rest) := by
  obtain ⟨h₁, h₂⟩ := initial_byte hm hi
  rw [readHead, if_pos h₁, h₂, h]

/-- The shortest head is read back, for every 64-bit argument. -/
theorem readHead_head {major n : ℕ} (hm : major < 8) (hn : n < 2 ^ 64) (rest : Bytes) :
    readHead major (head major n ++ rest) = some (n, rest) := by
  unfold head
  split_ifs with h₁ h₂ h₃ h₄
  · exact readHead_cons hm (by omega) (by rw [readArg, if_pos h₁]; rfl)
  · exact readHead_cons hm (by omega) (readBe_beBytes (w := 1) (n := n) (by omega) rest)
  · exact readHead_cons hm (by omega) (readBe_beBytes (w := 2) (n := n) (by omega) rest)
  · exact readHead_cons hm (by omega) (readBe_beBytes (w := 4) (n := n) (by omega) rest)
  · exact readHead_cons hm (by omega) (readBe_beBytes (w := 8) (n := n) (by omega) rest)

theorem readUintBelow_uint {bound n : ℕ} (h : n < bound) (hn : n < 2 ^ 64) (rest : Bytes) :
    readUintBelow bound (uint n ++ rest) = some (n, rest) := by
  rw [readUintBelow, uint, readHead_head (by omega) hn]
  exact if_pos h

theorem readBytes_bytes {bs : Bytes} (h : bs.length < 2 ^ 64) (rest : Bytes) :
    readBytes (bytes bs ++ rest) = some (bs, rest) := by
  rw [readBytes, bytes, List.append_assoc, readHead_head (by omega) h]
  exact readSlice_append bs rest

theorem readStr_str {s : String} (h : (utf8 s).length < 2 ^ 64) (rest : Bytes) :
    readStr (str s ++ rest) = some (s, rest) := by
  rw [readStr, str, List.append_assoc, readHead_head (by omega) h]
  simp [readSlice_append]

/-- The shortest definite head of a container is not an indefinite one, and is read back. -/
theorem readContainer_head {major n : ℕ} (hm : major < 8) (hn : n < 2 ^ 64) (rest : Bytes) :
    readContainer major (head major n ++ rest) = some (some n, rest) := by
  have hread := readHead_head hm hn rest
  have hinit : ∃ info < 28, ∃ tl, head major n = UInt8.ofNat (major * 32 + info) :: tl := by
    unfold head
    split_ifs with h₁
    · exact ⟨n, by omega, [], rfl⟩
    · exact ⟨24, by omega, _, rfl⟩
    · exact ⟨25, by omega, _, rfl⟩
    · exact ⟨26, by omega, _, rfl⟩
    · exact ⟨27, by omega, _, rfl⟩
  obtain ⟨info, hinfo, tl, htl⟩ := hinit
  rw [htl, List.cons_append] at hread ⊢
  have hne : (UInt8.ofNat (major * 32 + info)).toNat ≠ major * 32 + 31 := by
    rw [UInt8.toNat_ofNat']
    omega
  rw [readContainer, if_neg hne, hread]
  rfl

/-! ## The same, as parsers -/

section Reads
variable {ε : Type} (e : ε)

theorem reads_u8 {n : ℕ} (h : n < 2 ^ 8) : Reads (Parser.orErr e readU8) (uint n) n :=
  Reads.orErr (readUintBelow_uint h (by omega))

theorem reads_u16 {n : ℕ} (h : n < 2 ^ 16) : Reads (Parser.orErr e readU16) (uint n) n :=
  Reads.orErr (readUintBelow_uint h (by omega))

theorem reads_u64 {n : ℕ} (h : n < 2 ^ 64) : Reads (Parser.orErr e readU64) (uint n) n :=
  Reads.orErr (readUintBelow_uint h h)

theorem reads_bytes {bs : Bytes} (h : bs.length < 2 ^ 64) :
    Reads (Parser.orErr e readBytes) (bytes bs) bs :=
  Reads.orErr (readBytes_bytes h)

theorem reads_str {s : String} (h : (utf8 s).length < 2 ^ 64) :
    Reads (Parser.orErr e readStr) (str s) s :=
  Reads.orErr (readStr_str h)

theorem reads_array {n : ℕ} (h : n < 2 ^ 64) :
    Reads (Parser.orErr e readArray) (array n) (some n) :=
  Reads.orErr (readContainer_head (by omega) h)

theorem reads_map {n : ℕ} (h : n < 2 ^ 64) :
    Reads (Parser.orErr e readMap) (map n) (some n) :=
  Reads.orErr (readContainer_head (by omega) h)

end Reads

/-- The reader alone does not make an encoding canonical: 1 is also read from a wide head. -/
example : readU8 [0x18, 0x01] = some (1, []) := by decide

end HideProtocol.Lib.Cbor
