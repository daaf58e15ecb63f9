import HideProtocol.Epoch.Chain
import HideProtocol.Lib.Cbor

/-!
# The epoch-chain codec

A chain travels as a CBOR array of records of three items each. The decoder bounds the announced
count, reads it record by record and compares the input with a re-encoding, so that one history
has one encoding.

The writer appends to a vector, so that encoding cannot fail.
-/

namespace HideProtocol.Epoch

open Lib

def encodeRecord (record : EpochRecord) : Bytes :=
  Cbor.array 3 ++ (Cbor.uint record.number.toNat ++
    (Cbor.bytes record.publicKey ++ Cbor.bytes record.link.toList))

/-- Encodes the public history. -/
def encodeRecords (records : List EpochRecord) : Bytes :=
  Cbor.array records.length ++ records.flatMap encodeRecord

/-- A read that fails with `Malformed`. -/
def cbor {α : Type} (p : Bytes → Option (α × Bytes)) : Parser EpochError α :=
  Parser.orErr .malformed p

/-- A definite array header. -/
def arrayHeader : Parser EpochError ℕ := do
  let count ← cbor Cbor.readArray
  Parser.lift (okOr count .malformed)

def decodeRecord : Parser EpochError EpochRecord := do
  let fields ← arrayHeader
  Parser.lift (failIf (fields ≠ 3) .malformed)
  let number ← cbor Cbor.readU64
  let publicKey ← cbor Cbor.readBytes
  let link ← cbor Cbor.readBytes
  let link ← Parser.lift (okOr (tryInto 32 link) .malformed)
  pure { number := UInt64.ofNat number, publicKey, link }

/-- The loop over the declared count. -/
def decodeLoop : ℕ → Parser EpochError (List EpochRecord)
  | 0 => pure []
  | count + 1 => do
    let record ← decodeRecord
    let records ← decodeLoop count
    pure (record :: records)

/-- The records, up to the canonical check. -/
def decodeChain : Parser EpochError (List EpochRecord) := do
  let count ← arrayHeader
  Parser.lift (failIf (count > maxChainEntries) (.tooManyEntries count))
  decodeLoop count

def decodeRecords (bytes : Bytes) : Except EpochError (List EpochRecord) := do
  let (records, rest) ← decodeChain bytes
  failIf (bytes.length - rest.length ≠ bytes.length) .malformed
  failIf (encodeRecords records ≠ bytes) .malformed
  pure records

/-! ## The decoder undoes the encoder -/

theorem reads_arrayHeader {n : ℕ} (h : n < 2 ^ 64) : Reads arrayHeader (Cbor.array n) n :=
  (Cbor.reads_array _ h).bind_last (Reads.lift (okOr_some _ _))

theorem reads_decodeRecord {record : EpochRecord} (h : record.publicKey.length < 2 ^ 64) :
    Reads decodeRecord (encodeRecord record) record := by
  have hlink : record.link.toList.length < 2 ^ 64 := by
    rw [Vector.length_toList]
    decide
  unfold decodeRecord encodeRecord
  refine (reads_arrayHeader (by omega)).bind ?_
  refine (Reads.failIf _ (by simp)).bind_nil ?_
  refine (Cbor.reads_u64 _ record.number.toNat_lt).bind ?_
  refine (Cbor.reads_bytes _ h).bind ?_
  refine (Cbor.reads_bytes _ hlink).bind_last ?_
  refine (Reads.lift (by rw [tryInto_toList, okOr_some])).bind_nil ?_
  rw [UInt64.ofNat_toNat]
  exact Reads.pure _

theorem reads_decodeLoop {records : List EpochRecord}
    (h : ∀ record ∈ records, record.publicKey.length < 2 ^ 64) :
    Reads (decodeLoop records.length) (records.flatMap encodeRecord) records := by
  induction records with
  | nil => exact Reads.pure _
  | cons record records ih =>
    rw [List.flatMap_cons]
    refine (reads_decodeRecord (h record List.mem_cons_self)).bind ?_
    exact (ih fun r hr => h r (List.mem_cons_of_mem _ hr)).bind_last (Reads.pure _)

theorem reads_decodeChain {records : List EpochRecord}
    (h : ∀ record ∈ records, record.publicKey.length < 2 ^ 64)
    (hlen : records.length ≤ maxChainEntries) :
    Reads decodeChain (encodeRecords records) records := by
  have hmax : maxChainEntries < 2 ^ 64 := by decide
  unfold decodeChain encodeRecords
  refine (reads_arrayHeader (by omega)).bind ?_
  refine (Reads.failIf _ (by omega)).bind_nil ?_
  exact reads_decodeLoop h

theorem decodeRecords_encodeRecords {records : List EpochRecord}
    (h : ∀ record ∈ records, record.publicKey.length < 2 ^ 64)
    (hlen : records.length ≤ maxChainEntries) :
    decodeRecords (encodeRecords records) = .ok records := by
  have hread := reads_decodeChain h hlen []
  rw [List.append_nil] at hread
  unfold decodeRecords
  rw [hread, ok_bind]
  simp only []
  rw [failIf_neg _ (by simp), ok_bind, failIf_neg _ (by simp)]
  rfl

/-- Nothing may follow the records. -/
theorem decodeRecords_trailing {records : List EpochRecord}
    (h : ∀ record ∈ records, record.publicKey.length < 2 ^ 64)
    (hlen : records.length ≤ maxChainEntries) {rest : Bytes} (hrest : rest ≠ []) :
    decodeRecords (encodeRecords records ++ rest) = .error .malformed := by
  have hpos : 0 < rest.length := List.length_pos_iff.mpr hrest
  have hshort : (encodeRecords records ++ rest).length - rest.length ≠
      (encodeRecords records ++ rest).length := by
    rw [List.length_append]
    omega
  unfold decodeRecords
  rw [reads_decodeChain h hlen rest, ok_bind]
  simp only []
  rw [failIf_pos _ hshort]
  rfl

/-! ## The encoder undoes the decoder -/

/-- What is read is no more than the bound, and the canonical check leaves one form of it. -/
theorem encodeRecords_of_decode {bytes : Bytes} {records : List EpochRecord}
    (h : decodeRecords bytes = .ok records) : encodeRecords records = bytes := by
  unfold decodeRecords at h
  obtain ⟨⟨found, rest⟩, -, h⟩ := bind_eq_ok.mp h
  obtain ⟨_, -, h⟩ := bind_eq_ok.mp h
  obtain ⟨_, hcanonical, h⟩ := bind_eq_ok.mp h
  rw [pure_eq_ok.mp h]
  exact not_not.mp (failIf_eq_ok.mp hcanonical)

/-- A record in memory: its key is a vector there, and the length of a vector is a `usize`. -/
abbrev StoredRecord := { record : EpochRecord // record.publicKey.length < 2 ^ 64 }

/-- Every list of records within the bound is written and read back, whatever its numbers, keys and
links; and what is read is written back byte for byte. -/
theorem records_codec_exact :
    (∀ records : List StoredRecord, records.length ≤ maxChainEntries →
      decodeRecords (encodeRecords (records.map Subtype.val)) = .ok (records.map Subtype.val)) ∧
    ∀ bytes records, decodeRecords bytes = .ok records → encodeRecords records = bytes := by
  refine ⟨?_, ?_⟩
  · intro records hlen
    apply decodeRecords_encodeRecords
    · intro record hrecord
      obtain ⟨stored, -, rfl⟩ := List.mem_map.mp hrecord
      exact stored.2
    · rw [List.length_map]
      exact hlen
  · intro bytes records h
    exact encodeRecords_of_decode h

/-- A record out of order, with a key of one byte. -/
theorem records_codec_exact_one :
    decodeRecords (encodeRecords [⟨7, [1], zeroLink⟩]) = .ok [⟨7, [1], zeroLink⟩] ∧
      encodeRecords [] = [0x80] :=
  ⟨records_codec_exact.1 [⟨⟨7, [1], zeroLink⟩, by decide⟩] (by decide),
    records_codec_exact.2 [0x80] [] (by decide)⟩

/-- An empty array with a wider head is refused. -/
example : decodeRecords [0x9a, 0, 0, 0, 0] = .error .malformed := by decide

variable {sha256 : Bytes → Hash} {records : List EpochRecord}

theorem publicKey_lt_of_verify (h : verify sha256 records = .ok ()) :
    ∀ record ∈ records, record.publicKey.length < 2 ^ 64 := by
  intro record hrecord
  obtain ⟨i, hi⟩ := List.getElem?_of_mem hrecord
  rw [(record_of_verify h hi).2]
  decide

/-- A history that verifies survives transport. -/
theorem decodeRecords_of_verify (h : verify sha256 records = .ok ()) :
    decodeRecords (encodeRecords records) = .ok records :=
  decodeRecords_encodeRecords (publicKey_lt_of_verify h) (length_of_verify h)

/-! ## Sizes -/

theorem length_encodeRecord {record : EpochRecord} (h : record.publicKey.length = publicKeyLength) :
    (encodeRecord record).length = 1254 + Cbor.headLen record.number.toNat := by
  have hthree : Cbor.headLen 3 = 1 := rfl
  have hkey : Cbor.headLen 1216 = 3 := rfl
  have hlink : Cbor.headLen 32 = 2 := rfl
  have h1216 : publicKeyLength = 1216 := rfl
  simp only [encodeRecord, Cbor.array, Cbor.uint, Cbor.bytes, List.length_append, Cbor.length_head,
    Vector.length_toList, h, h1216, hthree, hkey, hlink]
  omega

/-- The size of the first `n` records of any chain. -/
def recordsLen : ℕ → ℕ
  | 0 => 0
  | n + 1 => recordsLen n + (1254 + Cbor.headLen n)

theorem length_encodeRecords (h : verify sha256 records = .ok ()) :
    (encodeRecords records).length = Cbor.headLen records.length + recordsLen records.length := by
  have hbody : (records.flatMap encodeRecord).length = recordsLen records.length := by
    induction records using List.reverseRecOn with
    | nil => rfl
    | append_singleton records last ih =>
      obtain ⟨hinit, hlen, hnumber, hkey, -⟩ := verify_append.mp h
      have hsize : maxChainEntries < UInt64.size := by decide
      have hnat : last.number.toNat = records.length := by
        rw [hnumber]
        exact UInt64.toNat_ofNat_of_lt' (by omega)
      rw [List.flatMap_append, List.length_append, ih hinit, List.length_append,
        List.flatMap_singleton, length_encodeRecord hkey, hnat]
      rfl
  rw [encodeRecords, Cbor.array, List.length_append, Cbor.length_head, hbody]

theorem recordsLen_le {n m : ℕ} (h : n ≤ m) : recordsLen n ≤ recordsLen m := by
  induction m, h using Nat.le_induction with
  | base => exact Nat.le_refl _
  | succ m h ih => exact ih.trans (Nat.le_add_right _ _)

/-- From the 256th epoch on, and up to the 65536th, a record takes 1257 bytes. -/
theorem recordsLen_eq {n : ℕ} (hge : 256 ≤ n) (hle : n ≤ 65536) :
    recordsLen n + 280 = 1257 * n := by
  induction n, hge using Nat.le_induction with
  | base => decide +kernel
  | succ n hge ih =>
    have hhead : Cbor.headLen n = 3 := by
      unfold Cbor.headLen
      split_ifs <;> omega
    rw [recordsLen, hhead]
    have := ih (by omega)
    omega

end HideProtocol.Epoch
