import HideProtocol.Lib.Collision
import HideProtocol.Lib.Parser

/-!
# Epoch chains

The public history of a recipient's epoch keys: numbered records, each linked to the one before
by a digest. Checking a chain is a loop over its records with the previous link as its state, and
the last link commits to the whole chain (`chain_head_commits`).

SHA-256 is a parameter.
-/

namespace HideProtocol.Epoch

open Lib

/-- `[u8; 32]`. -/
abbrev Hash := Vector UInt8 32

/-- Epoch numbering starts at zero and only ever increases. -/
abbrev EpochNumber := UInt64

def maxChainEntries : ℕ := 1000000

def chainInfo : Bytes := utf8 "HIDE/0.6 epoch chain"

/-- X-Wing encapsulation key length. -/
def publicKeyLength : ℕ := 1216

/-- The link before the first record, `[0u8; 32]`. -/
def zeroLink : Hash := Vector.replicate 32 0

inductive EpochError where
  | erased (number : EpochNumber)
  | unknownEpoch (number : EpochNumber)
  | malformed
  | tooManyEntries (count : ℕ)
  | brokenLink (expected found : EpochNumber)
  | brokenHash (number : EpochNumber)
  | wrongKeyLength (number : EpochNumber) (expected actual : ℕ)
  | secretMismatch (number : EpochNumber)
  | duplicateSecret (number : EpochNumber)
  | crypto (error : String)
deriving DecidableEq, Repr

/-- The text of an error, piece by piece. -/
def EpochError.pieces : EpochError → List String
  | erased number => ["epoch ", toString number, " has been erased and can never be recovered"]
  | unknownEpoch number => ["epoch ", toString number, " is not in this chain"]
  | malformed => ["epoch chain is malformed"]
  | tooManyEntries count =>
    ["epoch chain claims ", toString count, " entries, which exceeds the limit"]
  | brokenLink expected found =>
    ["epoch ", toString expected, " was expected but the chain links to ", toString found]
  | brokenHash number => ["the chain's hash linkage does not verify at epoch ", toString number]
  | wrongKeyLength number expected actual =>
    ["epoch ", toString number, " carries a ", toString actual, "-byte key; ", toString expected,
      " expected"]
  | secretMismatch number =>
    ["the secret held for epoch ", toString number, " does not match the chain's public key"]
  | duplicateSecret number => ["epoch ", toString number, "'s secret was supplied twice"]
  | crypto error => ["cryptographic operation failed: ", error]

def EpochError.display (error : EpochError) : String := String.join error.pieces

/-- The public, shareable record of one epoch. -/
structure EpochRecord where
  number : EpochNumber
  publicKey : Bytes
  link : Hash
deriving DecidableEq

/-- The latest link, which commits to the whole history. -/
def chainHead (records : List EpochRecord) : Hash :=
  records.getLast?.elim zeroLink EpochRecord.link

section
variable (sha256 : Bytes → Hash)

/-- Hashes an entry together with the previous link. -/
def linkFor (previous : Hash) (number : EpochNumber) (publicKey : Bytes) : Hash :=
  sha256 (chainInfo ++ previous.toList ++ beBytes 8 number.toNat ++ lenPrefixed 8 publicKey)

/-- The body of the verification loop: the state is the link of the record before. -/
def verifyStep (previous : Hash) (indexed : EpochRecord × ℕ) : Except EpochError Hash := do
  let (record, index) := indexed
  let expected := UInt64.ofNat index
  failIf (record.number ≠ expected) (.brokenLink expected record.number)
  failIf (record.publicKey.length ≠ publicKeyLength)
    (.wrongKeyLength record.number publicKeyLength record.publicKey.length)
  let link := linkFor sha256 previous record.number record.publicKey
  failIf (link ≠ record.link) (.brokenHash record.number)
  pure record.link

/-- Checks that a chain is internally consistent: contiguous numbering from zero, and every link
matching what its contents hash to. -/
def verify (records : List EpochRecord) : Except EpochError Unit := do
  failIf (records.length > maxChainEntries) (.tooManyEntries records.length)
  let _ ← records.zipIdx.foldlM (verifyStep sha256) zeroLink
  pure ()

end

variable {sha256 : Bytes → Hash}

theorem verifyStep_eq_ok {previous link : Hash} {record : EpochRecord} {index : ℕ} :
    verifyStep sha256 previous (record, index) = .ok link ↔
      record.number = UInt64.ofNat index ∧ record.publicKey.length = publicKeyLength ∧
      linkFor sha256 previous record.number record.publicKey = record.link ∧
      link = record.link := by
  unfold verifyStep
  simp only [bind_eq_ok, failIf_eq_ok, pure_eq_ok, ne_eq, not_not, exists_const]

theorem verify_eq_ok {records : List EpochRecord} :
    verify sha256 records = .ok () ↔
      records.length ≤ maxChainEntries ∧
      ∃ link, records.zipIdx.foldlM (verifyStep sha256) zeroLink = .ok link := by
  unfold verify
  simp only [bind_eq_ok, failIf_eq_ok, pure_eq_ok, not_lt, exists_const, and_true]

/-- The loop ends with the link of the last record. -/
theorem foldlM_verifyStep {records : List EpochRecord} {link : Hash}
    (h : records.zipIdx.foldlM (verifyStep sha256) zeroLink = .ok link) :
    link = chainHead records := by
  rcases List.eq_nil_or_concat records with rfl | ⟨init, last, rfl⟩
  · cases h
    rfl
  · rw [List.concat_eq_append, List.zipIdx_append, List.foldlM_append] at h
    obtain ⟨previous, -, hlast⟩ := bind_eq_ok.mp h
    have hstep : verifyStep sha256 previous (last, 0 + init.length) = .ok link := by simpa using hlast
    rw [(verifyStep_eq_ok.mp hstep).2.2.2]
    simp [chainHead]

theorem verify_nil : verify sha256 [] = .ok () := rfl

/-- What one more record has to be. -/
theorem verify_append {records : List EpochRecord} {record : EpochRecord} :
    verify sha256 (records ++ [record]) = .ok () ↔
      verify sha256 records = .ok () ∧ records.length < maxChainEntries ∧
        record.number = UInt64.ofNat records.length ∧
        record.publicKey.length = publicKeyLength ∧
        linkFor sha256 (chainHead records) record.number record.publicKey = record.link := by
  rw [verify_eq_ok, verify_eq_ok, List.zipIdx_append, List.foldlM_append, List.length_append,
    List.length_singleton, Nat.succ_le_iff]
  constructor
  · rintro ⟨hlen, link, hrun⟩
    obtain ⟨previous, hinit, hlast⟩ := bind_eq_ok.mp hrun
    have hstep : verifyStep sha256 previous (record, 0 + records.length) = .ok link := by
      simpa using hlast
    obtain ⟨hnumber, hkey, hlink, -⟩ := verifyStep_eq_ok.mp hstep
    rw [foldlM_verifyStep hinit] at hlink hinit
    rw [Nat.zero_add] at hnumber
    exact ⟨⟨hlen.le, _, hinit⟩, hlen, hnumber, hkey, hlink⟩
  · rintro ⟨⟨-, previous, hinit⟩, hlen, hnumber, hkey, hlink⟩
    refine ⟨hlen, record.link, bind_eq_ok.mpr ⟨previous, hinit, ?_⟩⟩
    rw [← foldlM_verifyStep hinit] at hlink
    have hstep : verifyStep sha256 previous (record, 0 + records.length) = .ok record.link :=
      verifyStep_eq_ok.mpr ⟨by rw [hnumber, Nat.zero_add], hkey, hlink, rfl⟩
    simpa using hstep

/-- A chain of `n` epochs, all with one key. -/
def sampleRecords (sha256 : Bytes → Hash) : ℕ → List EpochRecord
  | 0 => []
  | n + 1 =>
    let records := sampleRecords sha256 n
    let publicKey := List.replicate publicKeyLength 0
    records ++ [{ number := UInt64.ofNat n, publicKey,
                  link := linkFor sha256 (chainHead records) (UInt64.ofNat n) publicKey }]

@[simp] theorem length_sampleRecords (n : ℕ) : (sampleRecords sha256 n).length = n := by
  induction n with
  | zero => rfl
  | succ n ih => simp [sampleRecords, ih]

theorem verify_sampleRecords {n : ℕ} (hn : n ≤ maxChainEntries) :
    verify sha256 (sampleRecords sha256 n) = .ok () := by
  induction n with
  | zero => exact verify_nil
  | succ n ih =>
    apply verify_append.mpr
    rw [length_sampleRecords]
    exact ⟨ih (by omega), hn, rfl, List.length_replicate, rfl⟩

/-- Record `i` of a chain that verifies is epoch `i`, with a key of the right length. -/
theorem record_of_verify {records : List EpochRecord} (h : verify sha256 records = .ok ()) {i : ℕ}
    {record : EpochRecord} (hrecord : records[i]? = some record) :
    record.number = UInt64.ofNat i ∧ record.publicKey.length = publicKeyLength := by
  induction records using List.reverseRecOn with
  | nil => simp at hrecord
  | append_singleton records last ih =>
    obtain ⟨hinit, -, hnumber, hkey, -⟩ := verify_append.mp h
    by_cases hi : i < records.length
    · rw [List.getElem?_append_left hi] at hrecord
      exact ih hinit hrecord
    · have hlen := (List.getElem?_eq_some_iff.mp hrecord).1
      rw [List.length_append, List.length_singleton] at hlen
      have heq : i = records.length := by omega
      rw [heq, List.getElem?_concat_length] at hrecord
      cases hrecord
      exact ⟨heq ▸ hnumber, hkey⟩

theorem length_of_verify {records : List EpochRecord} (h : verify sha256 records = .ok ()) :
    records.length ≤ maxChainEntries := (verify_eq_ok.mp h).1

/-! ## What the head commits to -/

/-- What is hashed for a link. -/
def linkInput (previous : Hash) (number : EpochNumber) (publicKey : Bytes) : Bytes :=
  chainInfo ++ previous.toList ++ beBytes 8 number.toNat ++ lenPrefixed 8 publicKey

/-- What is hashed for all links of a chain. -/
def linkInputs (records : List EpochRecord) : List Bytes :=
  records.zipIdx.map fun indexed =>
    linkInput (chainHead (records.take indexed.2)) indexed.1.number indexed.1.publicKey

/-- No boundary inside the hashed bytes can move. -/
theorem linkInput_inj {previous previous' : Hash} {number number' : EpochNumber}
    {publicKey publicKey' : Bytes} (hlen : publicKey.length = publicKeyLength)
    (hlen' : publicKey'.length = publicKeyLength)
    (h : linkInput previous number publicKey = linkInput previous' number' publicKey') :
    previous = previous' ∧ number = number' ∧ publicKey = publicKey' := by
  have hkey : publicKey.length < 256 ^ 8 := by rw [hlen]; decide
  have hkey' : publicKey'.length < 256 ^ 8 := by rw [hlen']; decide
  simp only [linkInput, List.append_assoc] at h
  have h := List.append_cancel_left h
  have ⟨hprevious, h⟩ := selfDelimiting_vector 32 _ _ _ _ trivial trivial h
  have ⟨hnumber, h⟩ := selfDelimiting_beBytes 8 _ _ _ _ number.toNat_lt number'.toNat_lt h
  exact ⟨hprevious, UInt64.toNat_inj.mp hnumber, (selfDelimiting_lenPrefixed 8).inj hkey hkey' h⟩

/-- One more record adds what is hashed for its link. -/
theorem linkInputs_append (records : List EpochRecord) (record : EpochRecord) :
    linkInputs (records ++ [record]) =
      linkInputs records ++ [linkInput (chainHead records) record.number record.publicKey] := by
  unfold linkInputs
  rw [List.zipIdx_append, List.map_append]
  congr 1
  · apply List.map_congr_left
    intro indexed hindexed
    have hlt : indexed.2 < records.length := by
      simpa using (List.mem_zipIdx hindexed).2.1
    rw [List.take_append_of_le_length hlt.le]
  · simp

/-- Positions in a chain are told apart by their numbers. -/
theorem length_of_number {records records' : List EpochRecord} (h : records.length < maxChainEntries)
    (h' : records'.length < maxChainEntries)
    (hnumber : UInt64.ofNat records.length = UInt64.ofNat records'.length) :
    records.length = records'.length := by
  have hlt : ∀ n, n < maxChainEntries → (UInt64.ofNat n).toNat = n := by
    intro n hn
    have hmax : maxChainEntries < UInt64.size := by decide
    exact UInt64.toNat_ofNat_of_lt' (by omega)
  rw [← hlt _ h, hnumber, hlt _ h']

/-- Two last records with one link are one record at one position, with one link before it, or what
was hashed for them collides. -/
theorem record_of_link {inputs : List Bytes} {xs ys : List EpochRecord} {x y : EpochRecord}
    (hx : verify sha256 (xs ++ [x]) = .ok ()) (hy : verify sha256 (ys ++ [y]) = .ok ())
    (hxs : linkInputs (xs ++ [x]) ⊆ inputs) (hys : linkInputs (ys ++ [y]) ⊆ inputs)
    (h : x.link = y.link) :
    (xs.length = ys.length ∧ chainHead xs = chainHead ys ∧ x = y) ∨ Collides sha256 inputs := by
  have ⟨_, hxlen, hxnumber, hxkey, hxlink⟩ := verify_append.mp hx
  have ⟨_, hylen, hynumber, hykey, hylink⟩ := verify_append.mp hy
  rw [linkInputs_append] at hxs hys
  have hdigest : sha256 (linkInput (chainHead xs) x.number x.publicKey) =
      sha256 (linkInput (chainHead ys) y.number y.publicKey) := by
    show linkFor sha256 (chainHead xs) x.number x.publicKey =
      linkFor sha256 (chainHead ys) y.number y.publicKey
    rw [hxlink, hylink, h]
  rcases eq_or_collides (hxs (List.mem_append_right _ List.mem_cons_self))
    (hys (List.mem_append_right _ List.mem_cons_self)) hdigest with hinput | hc
  · left
    have ⟨hbefore, hnumber, hpublic⟩ := linkInput_inj hxkey hykey hinput
    refine ⟨length_of_number hxlen hylen ?_, hbefore, ?_⟩
    · rw [← hxnumber, ← hynumber, hnumber]
    · cases x
      cases y
      congr
  · right
    exact hc

/-- Chains of one length with one head are equal. The induction goes backwards along both. -/
theorem eq_of_chainHead {inputs : List Bytes} {xs ys : List EpochRecord}
    (hx : verify sha256 xs = .ok ()) (hy : verify sha256 ys = .ok ()) (hxs : linkInputs xs ⊆ inputs)
    (hys : linkInputs ys ⊆ inputs) (hlen : xs.length = ys.length)
    (h : chainHead xs = chainHead ys) : xs = ys ∨ Collides sha256 inputs := by
  induction xs using List.reverseRecOn generalizing ys with
  | nil =>
    left
    exact (List.length_eq_zero_iff.mp hlen.symm).symm
  | append_singleton xs x ih =>
    rcases List.eq_nil_or_concat ys with rfl | ⟨ys, y, rfl⟩
    · simp at hlen
    · rw [List.concat_eq_append] at hy hys hlen h ⊢
      have hlink : x.link = y.link := by simpa [chainHead] using h
      rcases record_of_link hx hy hxs hys hlink with ⟨hlen, hbefore, heq⟩ | hc
      · have hxs' : linkInputs xs ⊆ inputs := by
          rw [linkInputs_append] at hxs
          exact List.Subset.trans (List.subset_append_left _ _) hxs
        have hys' : linkInputs ys ⊆ inputs := by
          rw [linkInputs_append] at hys
          exact List.Subset.trans (List.subset_append_left _ _) hys
        rcases ih (verify_append.mp hx).1 (verify_append.mp hy).1 hxs' hys' hlen hbefore
          with hinit | hc
        · left
          rw [hinit, heq]
        · right
          exact hc
      · right
        exact hc

/-- **The head commits to the whole chain.** Two chains that verify and whose last links are equal
are equal record by record, unless two different byte strings among those hashed for their links
have the same digest. -/
theorem chain_head_commits (sha256 : Bytes → Hash) (xs ys : List EpochRecord) (hxne : xs ≠ [])
    (hyne : ys ≠ []) (hx : verify sha256 xs = .ok ()) (hy : verify sha256 ys = .ok ())
    (h : xs.getLast?.map EpochRecord.link = ys.getLast?.map EpochRecord.link) :
    xs = ys ∨ Collides sha256 (linkInputs xs ++ linkInputs ys) := by
  obtain ⟨xs, x, rfl⟩ := (List.eq_nil_or_concat xs).resolve_left hxne
  obtain ⟨ys, y, rfl⟩ := (List.eq_nil_or_concat ys).resolve_left hyne
  simp only [List.concat_eq_append] at hx hy h ⊢
  have hlink : x.link = y.link := by simpa using h
  have hxs := List.subset_append_left (linkInputs (xs ++ [x])) (linkInputs (ys ++ [y]))
  have hys := List.subset_append_right (linkInputs (xs ++ [x])) (linkInputs (ys ++ [y]))
  rcases record_of_link hx hy hxs hys hlink with ⟨hlen, -, -⟩ | hc
  · -- the number is hashed too, so the two chains have one length
    apply eq_of_chainHead hx hy hxs hys
    · rw [List.length_append, List.length_append, hlen, List.length_singleton]
      rfl
    · simpa [chainHead] using hlink
  · right
    exact hc

/-- The theorem at two chains of different lengths, under a digest that is always the same. -/
theorem chain_head_commits_constant_digest :
    let key : Bytes := List.replicate publicKeyLength 0
    let xs : List EpochRecord := [⟨0, key, zeroLink⟩]
    let ys : List EpochRecord := [⟨0, key, zeroLink⟩, ⟨1, key, zeroLink⟩]
    verify (fun _ => zeroLink) xs = .ok () ∧ verify (fun _ => zeroLink) ys = .ok () ∧
      (xs = ys ∨ Collides (fun _ => zeroLink) (linkInputs xs ++ linkInputs ys)) := by
  intro key xs ys
  have hkey : key.length = publicKeyLength := List.length_replicate
  clear_value key
  have hx : verify (fun _ => zeroLink) xs = .ok () := by
    show verify _ ([] ++ [_]) = .ok ()
    apply verify_append.mpr
    exact ⟨verify_nil, by decide, rfl, hkey, rfl⟩
  have hy : verify (fun _ => zeroLink) ys = .ok () := by
    show verify _ (xs ++ [_]) = .ok ()
    apply verify_append.mpr
    exact ⟨hx, show 1 < maxChainEntries by decide, rfl, hkey, rfl⟩
  exact ⟨hx, hy, chain_head_commits _ xs ys (List.cons_ne_nil _ _) (List.cons_ne_nil _ _) hx hy rfl⟩

end HideProtocol.Epoch
