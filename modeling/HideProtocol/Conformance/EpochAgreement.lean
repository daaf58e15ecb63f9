import HideProtocol.Conformance.IdentityDecoding
import HideProtocol.Conformance.RelyingParty
import HideProtocol.Epoch.Codec
import HideProtocol.Lib.Run

/-!
# Two readers of epoch chains

Both decoders accept the encodings of lists of records and nothing else, although one of them
refuses long heads at once and the other only compares what it read with the input. Both verifiers
walk the chain with the last link in hand.
-/

namespace HideProtocol.Conformance.Subsystems

open Lib

/-- What the independent reader sees of a record. -/
def viewEpoch (record : Epoch.EpochRecord) : EpochRecord where
  number := record.number.toNat
  publicKey := record.publicKey
  link := record.link.toList

/-! ## Decoding -/

theorem encodeEpochs_view (records : List Epoch.EpochRecord) :
    encodeEpochs (records.map viewEpoch) = Epoch.encodeRecords records := by
  unfold encodeEpochs Epoch.encodeRecords
  rw [List.length_map, List.flatMap_map]
  rfl

theorem reads_decodeEpoch {record : Epoch.EpochRecord} (h : record.publicKey.length < 2 ^ 64) :
    Reads decodeEpoch (encodeEpoch (viewEpoch record)) (viewEpoch record) := by
  have hlink : record.link.toList.length = 32 := Vector.length_toList
  unfold decodeEpoch encodeEpoch
  refine (reads_head (show 4 < 8 by omega) (show 3 < 2 ^ 64 by omega)).bind ?_
  refine (Reads.failIf _ (by simp)).bind_nil ?_
  refine (reads_head (show 0 < 8 by omega) record.number.toNat_lt).bind ?_
  have hmajor : 2 < 8 := by omega
  refine (reads_string hmajor h).bind ?_
  refine (reads_string hmajor (by omega : record.link.toList.length < 2 ^ 64)).bind_last ?_
  refine (Reads.failIf _ (by simp [hlink])).bind_nil ?_
  exact Reads.pure _

theorem decodeEpochs_encodeRecords {records : List Epoch.EpochRecord}
    (h : ∀ record ∈ records, record.publicKey.length < 2 ^ 64)
    (hlen : records.length ≤ Epoch.maxChainEntries) :
    decodeEpochs (Epoch.encodeRecords records) = .ok (records.map viewEpoch) := by
  have hmax : Epoch.maxChainEntries = maxChainEntries := rfl
  have hbound : maxChainEntries < 2 ^ 64 := by decide
  have hreads : Reads decodeHistory (encodeEpochs (records.map viewEpoch))
      (records.map viewEpoch) := by
    unfold decodeHistory encodeEpochs
    refine (reads_head (show 4 < 8 by omega) (by rw [List.length_map]; omega)).bind ?_
    refine (Reads.failIf _ (by rw [List.length_map]; omega)).bind_nil ?_
    apply Reads.times
    intro seen hseen
    obtain ⟨record, hrecord, rfl⟩ := List.mem_map.mp hseen
    exact reads_decodeEpoch (h record hrecord)
  have hread := hreads []
  rw [List.append_nil, encodeEpochs_view] at hread
  unfold decodeEpochs
  rw [hread, ok_bind]
  simp only []
  rw [failIf_neg _ (by simp), ok_bind, encodeEpochs_view, failIf_neg _ (by simp)]
  rfl

/-- The limits of what the Rust decoder accepts. -/
theorem bounds_of_decodeRecords {bytes : Bytes} {records : List Epoch.EpochRecord}
    (h : Epoch.decodeRecords bytes = .ok records) :
    records.length ≤ Epoch.maxChainEntries ∧
      ∀ record ∈ records, record.publicKey.length < 2 ^ 64 := by
  have hloop : ∀ (count : ℕ) (bs : Bytes) (records : List Epoch.EpochRecord) (rest : Bytes),
      Epoch.decodeLoop count bs = .ok (records, rest) →
      records.length = count ∧ ∀ record ∈ records, record.publicKey.length < 2 ^ 64 := by
    intro count
    induction count with
    | zero =>
      intro bs records rest hrecords
      rw [Epoch.decodeLoop, Parser.pure_eq_ok, Prod.mk.injEq] at hrecords
      rw [hrecords.1]
      exact ⟨rfl, nofun⟩
    | succ count ih =>
      intro bs records rest hrecords
      rw [Epoch.decodeLoop, Parser.bind_eq_ok] at hrecords
      obtain ⟨record, after, hrecord, hrecords⟩ := hrecords
      obtain ⟨others, last, hothers, hrecords⟩ := Parser.bind_eq_ok.mp hrecords
      rw [Parser.pure_eq_ok, Prod.mk.injEq] at hrecords
      obtain ⟨hlen, hall⟩ := ih _ _ _ hothers
      rw [hrecords.1]
      refine ⟨by rw [List.length_cons, hlen], List.forall_mem_cons.mpr ⟨?_, hall⟩⟩
      unfold Epoch.decodeRecord at hrecord
      simp only [Parser.bind_eq_ok, Parser.lift_eq_ok, Parser.pure_eq_ok] at hrecord
      obtain ⟨_, _, -, _, _, -, _, _, -, publicKey, _, hkey, _, _, -, _, _, -, hrecord⟩ := hrecord
      rw [(Prod.mk.inj hrecord).1]
      exact Cbor.length_of_readBytes (okOr_eq_ok.mp hkey)
  unfold Epoch.decodeRecords at h
  obtain ⟨⟨found, rest⟩, hchain, h⟩ := bind_eq_ok.mp h
  obtain ⟨_, -, h⟩ := bind_eq_ok.mp h
  obtain ⟨_, -, h⟩ := bind_eq_ok.mp h
  rw [pure_eq_ok.mp h]
  unfold Epoch.decodeChain at hchain
  simp only [Parser.bind_eq_ok, Parser.lift_eq_ok, failIf_eq_ok] at hchain
  obtain ⟨count, _, -, _, _, ⟨hcount, -⟩, hrecords⟩ := hchain
  obtain ⟨hlen, hall⟩ := hloop _ _ _ _ hrecords
  exact ⟨by omega, hall⟩

/-- What the independent decoder accepts is the encoding of a list of records. -/
theorem encodes_of_decodeEpochs {bytes : Bytes} {seen : List EpochRecord}
    (h : decodeEpochs bytes = .ok seen) :
    ∃ records : List Epoch.EpochRecord, seen = records.map viewEpoch ∧
      records.length ≤ Epoch.maxChainEntries ∧
      (∀ record ∈ records, record.publicKey.length < 2 ^ 64) ∧
      bytes = Epoch.encodeRecords records := by
  unfold decodeEpochs at h
  obtain ⟨⟨found, rest⟩, hhistory, h⟩ := bind_eq_ok.mp h
  obtain ⟨_, -, h⟩ := bind_eq_ok.mp h
  obtain ⟨_, hsame, h⟩ := bind_eq_ok.mp h
  rw [failIf_eq_ok, not_not] at hsame
  obtain rfl := pure_eq_ok.mp h
  unfold decodeHistory at hhistory
  simp only [Parser.bind_eq_ok, Parser.lift_eq_ok, failIf_eq_ok] at hhistory
  obtain ⟨count, _, -, _, _, ⟨hcount, -⟩, hrecords⟩ := hhistory
  have hone : ∀ bs (record : EpochRecord) rest, decodeEpoch bs = .ok (record, rest) →
      ∃ original : Epoch.EpochRecord, record = viewEpoch original ∧
        original.publicKey.length < 2 ^ 64 := by
    intro bs record rest hrecord
    unfold decodeEpoch at hrecord
    simp only [Parser.bind_eq_ok, Parser.lift_eq_ok, Parser.pure_eq_ok, failIf_eq_ok] at hrecord
    obtain ⟨_, _, -, _, _, -, number, _, hnumber, publicKey, _, hkey, hrecord⟩ := hrecord
    obtain ⟨link, _, -, _, _, ⟨hlink, -⟩, hrecord⟩ := hrecord
    obtain ⟨link, rfl⟩ := exists_vector (not_not.mp hlink)
    refine ⟨⟨UInt64.ofNat number, publicKey, link⟩, ?_, ?_⟩
    · rw [(Prod.mk.inj hrecord).1]
      unfold viewEpoch
      simp only [UInt64.toNat_ofNat_of_lt' (head_lt hnumber)]
    · unfold StrictReader.bytestring StrictReader.string at hkey
      obtain ⟨n, after, hhead, hslice⟩ := Parser.bind_eq_ok.mp hkey
      rw [Cbor.readSlice_eq_some (okOr_eq_ok.mp hslice)]
      exact head_lt hhead
  obtain ⟨hlen, hall⟩ := Parser.of_times hone hrecords
  have : Nonempty Epoch.EpochRecord := ⟨⟨0, [], Epoch.zeroLink⟩⟩
  choose! original hview hkey using hall
  have hmap : seen = (seen.map original).map viewEpoch := by
    rw [List.map_map]
    exact (List.map_id seen).symm.trans (List.map_inj_left.mpr hview)
  refine ⟨seen.map original, hmap, ?_, ?_, ?_⟩
  · rw [List.length_map, hlen]
    exact not_lt.mp hcount
  · intro record hrecord
    obtain ⟨found, hfound, rfl⟩ := List.mem_map.mp hrecord
    exact hkey found hfound
  · rw [← encodeEpochs_view, ← hmap, hsame]

theorem decoders_match (bytes : Bytes) :
    Matches (fun records seen => seen = records.map viewEpoch) (Epoch.decodeRecords bytes)
      (decodeEpochs bytes) := by
  apply Matches.of_ok
  · intro records hrecords
    obtain ⟨hlen, hkeys⟩ := bounds_of_decodeRecords hrecords
    refine ⟨_, ?_, rfl⟩
    rw [← Epoch.encodeRecords_of_decode hrecords]
    exact decodeEpochs_encodeRecords hkeys hlen
  · intro seen hseen
    obtain ⟨records, -, hlen, hkeys, rfl⟩ := encodes_of_decodeEpochs hseen
    exact ⟨records, Epoch.decodeRecords_encodeRecords hkeys hlen⟩

/-! ## Verifying -/

/-- An error of the Rust verifier and a refusal of the independent one that have the same reason, at
the same record. -/
def SameEpochReason : Epoch.EpochError → Refusal → Prop
  | .tooManyEntries _, refusal => refusal = .code .tooManyEntries
  | .brokenLink expected _, refusal => refusal = .codeAt .brokenLink expected.toNat
  | .wrongKeyLength number _ _, refusal => refusal = .wrongKeyLength number.toNat
  | .brokenHash number, refusal => refusal = .brokenHash number.toNat
  | _, _ => False

section Verify
variable {sha256 : Bytes → Hash}

theorem epochLink_eq (previous : Epoch.Hash) (number : Epoch.EpochNumber) (publicKey : Bytes) :
    epochLink sha256 previous.toList number.toNat publicKey =
      (Epoch.linkFor sha256 previous number publicKey).toList := by
  unfold epochLink Epoch.linkFor lenPrefixed u64be
  rw [List.append_assoc _ (beBytes 8 publicKey.length)]
  rfl

/-- One record, with the link of the one before in hand. -/
theorem verifyEpoch_alike {index : ℕ} (hindex : index < 2 ^ 64) (record : Epoch.EpochRecord)
    {previous : Epoch.Hash} {seen : Bytes} (h : seen = previous.toList) :
    Alike (fun (link : Epoch.Hash) head => head = link.toList) SameEpochReason
      (Epoch.verifyStep sha256 previous (record, index))
      (verifyEpoch sha256 seen (viewEpoch record, index)) := by
  have hvalue : (UInt64.ofNat index).toNat = index := UInt64.toNat_ofNat_of_lt' hindex
  have hnumber : record.number ≠ UInt64.ofNat index ↔ (viewEpoch record).number ≠ index := by
    rw [ne_eq, ne_eq, ← UInt64.toNat_inj, hvalue]
    rfl
  have hlink : Epoch.linkFor sha256 previous record.number record.publicKey ≠ record.link ↔
      epochLink sha256 previous.toList (viewEpoch record).number (viewEpoch record).publicKey ≠
        (viewEpoch record).link := by
    show _ ↔ epochLink sha256 _ record.number.toNat record.publicKey ≠ record.link.toList
    rw [epochLink_eq, ne_eq, ne_eq, Vector.toList_inj]
  have hbroken : SameEpochReason (.brokenLink (UInt64.ofNat index) record.number)
      (.codeAt .brokenLink index) := congrArg (Refusal.codeAt .brokenLink) hvalue.symm
  subst h
  unfold Epoch.verifyStep verifyEpoch
  apply Alike.check hnumber hbroken
  intro hsame
  -- from here on the number of the record is its position
  have hposition : index = record.number.toNat := by
    rw [not_not.mp hsame, hvalue]
  have hlength : SameEpochReason (.wrongKeyLength record.number Epoch.publicKeyLength
      record.publicKey.length) (.wrongKeyLength index) := congrArg Refusal.wrongKeyLength hposition
  have hhash : SameEpochReason (.brokenHash record.number) (.brokenHash index) :=
    congrArg Refusal.brokenHash hposition
  apply Alike.check Iff.rfl hlength
  intro _
  apply Alike.check hlink hhash
  intro _
  rfl

theorem verifyEpochs_alike (records : List Epoch.EpochRecord) :
    Alike (fun _ head => head = (Epoch.chainHead records).toList) SameEpochReason
      (Epoch.verify sha256 records) (verifyEpochs sha256 (records.map viewEpoch)) := by
  have hmax : Epoch.maxChainEntries < 2 ^ 64 := by decide
  have hmany : SameEpochReason (.tooManyEntries records.length) (.code .tooManyEntries) := rfl
  unfold Epoch.verify verifyEpochs
  apply Alike.check (by rw [List.length_map]; exact Iff.rfl) hmany
  intro hlen
  have hrun : Alike (fun (link : Epoch.Hash) head => head = link.toList) SameEpochReason
      (records.zipIdx.foldlM (Epoch.verifyStep sha256) Epoch.zeroLink)
      ((records.map viewEpoch).zipIdx.foldlM (verifyEpoch sha256) zero32) := by
    rw [List.zipIdx_map]
    apply Alike.run
    · rintro ⟨record, index⟩ hmem previous seen hseen
      have hindex := List.snd_lt_of_mem_zipIdx hmem
      exact verifyEpoch_alike (by omega) record hseen
    · rfl
  apply hrun.pure_left
  intro link head hfold hhead
  rw [hhead, Epoch.foldlM_verifyStep hfold]

end Verify

/-- **The two readers of epoch chains agree.** For every byte string they decode the same records
or both refuse; and on every list of records the verifiers give the same verdict, with the same
head, and refuse the same record for the same reason. -/
theorem epoch_readers_agree (sha256 : Bytes → Hash) :
    (∀ bytes, Matches (fun records seen => seen = records.map viewEpoch)
      (Epoch.decodeRecords bytes) (decodeEpochs bytes)) ∧
    ∀ records, Alike (fun _ head => head = (Epoch.chainHead records).toList) SameEpochReason
      (Epoch.verify sha256 records) (verifyEpochs sha256 (records.map viewEpoch)) :=
  ⟨decoders_match, verifyEpochs_alike⟩

end HideProtocol.Conformance.Subsystems
