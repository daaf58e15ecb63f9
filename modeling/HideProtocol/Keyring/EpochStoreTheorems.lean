import Mathlib.Data.List.Forall2
import HideProtocol.Keyring.EpochStore

/-!
# Sealed stores open

Sealing a store succeeds and stays within the size a reader accepts, and the file opens again
under every spelling of the passphrase that normalizes to the same one. Conversely, where only
what was sealed opens, a file that opens is one that was sealed, byte for byte: the trailer covers
everything in front of it.
-/

namespace HideProtocol.Keyring

open Lib Crypto

namespace Store

/-! ## Lengths -/

theorem length_encodeEntry {entry : RawEntry} (h : entry.sealed.length = sealedLen) :
    (encodeEntry entry).length = 64 + Cbor.headLen entry.number.toNat := by
  have hthree : Cbor.headLen 3 = 1 := rfl
  have hnonce : Cbor.headLen 12 = 1 := rfl
  have hsealed : Cbor.headLen 48 = 2 := rfl
  have h48 : sealedLen = 48 := rfl
  simp only [encodeEntry, Cbor.array, Cbor.uint, Cbor.bytes, List.length_append, Cbor.length_head,
    Vector.length_toList, h, h48, hthree, hnonce, hsealed]
  omega

/-- The length of a body depends on the numbers alone. -/
theorem length_encodeBody {entries : List RawEntry}
    (h : ∀ entry ∈ entries, entry.sealed.length = sealedLen) :
    (encodeBody entries).length = Cbor.headLen entries.length +
      (entries.map fun entry => 64 + Cbor.headLen entry.number.toNat).sum := by
  rw [encodeBody, Cbor.array, List.length_append, Cbor.length_head, List.length_flatMap]
  congr 2
  apply List.map_congr_left
  intro entry hentry
  exact length_encodeEntry (h entry hentry)

theorem length_encodeBody_le {entries : List RawEntry}
    (h : ∀ entry ∈ entries, entry.sealed.length = sealedLen)
    (hcount : entries.length ≤ maxEntries) : (encodeBody entries).length ≤ maxBodyLen := by
  have hhead : Cbor.headLen entries.length ≤ 5 := by
    have hmax : maxEntries = 65536 := rfl
    unfold Cbor.headLen
    split_ifs <;> omega
  have hsum : (entries.flatMap encodeEntry).length ≤ entries.length * maxEntryBytes := by
    apply length_flatMap_le
    intro entry hentry
    have hnumber := Cbor.headLen_le entry.number.toNat
    rw [length_encodeEntry (h entry hentry)]
    show _ ≤ 73
    omega
  have hmul : entries.length * maxEntryBytes ≤ maxEntries * maxEntryBytes :=
    Nat.mul_le_mul_right _ hcount
  rw [encodeBody, Cbor.array, List.length_append, Cbor.length_head]
  show _ ≤ 5 + maxEntries * maxEntryBytes
  omega

/-! ## The body -/

theorem reads_decodeEntry {entry : RawEntry} (h : entry.sealed.length = sealedLen)
    {previous : Option UInt64} (hprevious : ∀ last, previous = some last → last < entry.number) :
    Reads (decodeEntry previous) (encodeEntry entry) entry := by
  have hnonce : entry.nonce.toList.length < 2 ^ 64 := by
    rw [Vector.length_toList]
    decide
  have hsealed : entry.sealed.length < 2 ^ 64 := by
    rw [h]
    decide
  have hascending : ¬(previous.any fun last =>
      decide (UInt64.ofNat entry.number.toNat ≤ last)) = true := by
    cases hp : previous with
    | none => simp
    | some last => simpa using hprevious last hp
  unfold decodeEntry encodeEntry
  simp only [List.append_assoc]
  refine (Cbor.reads_array _ (by omega)).bind ?_
  refine (Reads.failIf _ (by simp)).bind_nil ?_
  refine (Cbor.reads_u64 _ entry.number.toNat_lt).bind ?_
  refine (Reads.failIf _ hascending).bind_nil ?_
  refine (Cbor.reads_bytes _ hnonce).bind ?_
  refine (Reads.lift (by rw [tryInto_toList, okOr_some])).bind_nil ?_
  refine (Cbor.reads_bytes _ hsealed).bind_last ?_
  refine (Reads.failIf _ (not_not.mpr h)).bind_nil ?_
  rw [UInt64.ofNat_toNat]
  exact Reads.pure _

theorem reads_decodeEntries {entries : List RawEntry}
    (h : ∀ entry ∈ entries, entry.sealed.length = sealedLen)
    (hascending : entries.Pairwise fun a b => a.number < b.number) {previous : Option UInt64}
    (hprevious : ∀ last, previous = some last → ∀ entry ∈ entries, last < entry.number) :
    Reads (decodeEntries entries.length previous) (entries.flatMap encodeEntry) entries := by
  induction entries generalizing previous with
  | nil => exact Reads.pure _
  | cons entry entries ih =>
    obtain ⟨hfirst, hrest⟩ := List.pairwise_cons.mp hascending
    rw [List.flatMap_cons]
    refine (reads_decodeEntry (h entry List.mem_cons_self)
      fun last hlast => hprevious last hlast entry List.mem_cons_self).bind ?_
    refine (ih (fun e he => h e (List.mem_cons_of_mem _ he)) hrest ?_).bind_last (Reads.pure _)
    intro last hlast e he
    cases hlast
    exact hfirst e he

/-- The reader of the body undoes its writer. -/
theorem decodeBody_encodeBody {entries : List RawEntry}
    (h : ∀ entry ∈ entries, entry.sealed.length = sealedLen)
    (hascending : entries.Pairwise fun a b => a.number < b.number)
    (hcount : entries.length ≤ maxEntries) : decodeBody (encodeBody entries) = .ok entries := by
  have hmax : maxEntries < 2 ^ 64 := by decide
  have hreads : Reads decodeArray (encodeBody entries) entries := by
    unfold decodeArray encodeBody
    refine (Cbor.reads_array _ (by omega)).bind ?_
    refine (Reads.lift (okOr_some _ _)).bind_nil ?_
    refine (Reads.failIf _ (by omega)).bind_nil ?_
    exact reads_decodeEntries h hascending (by simp)
  have hread := hreads []
  rw [List.append_nil] at hread
  unfold decodeBody
  rw [hread, ok_bind]
  simp only []
  rw [failIf_neg _ (by simp), ok_bind, failIf_neg _ (by simp)]
  rfl

/-! ## The file -/

/-- Header, body and trailer. -/
def file (params : Argon2Params) (salt : Vector UInt8 saltLen) (chainHead : Vector UInt8 headLen)
    (body : Bytes) (trailerNonce : Nonce) (tag : Bytes) : Bytes :=
  encodeHeader params salt chainHead (beBytes 4 body.length) ++ body ++ trailerNonce.toList ++ tag

section File
variable {params : Argon2Params} {salt : Vector UInt8 saltLen} {chainHead : Vector UInt8 headLen}
  {body : Bytes} {trailerNonce : Nonce} {tag : Bytes}

theorem length_encode (params : Argon2Params) : params.encode.length = Argon2Params.paramsLen := by
  simp [Argon2Params.encode, Argon2Params.paramsLen]

theorem length_encodeHeader {bodyLen : Bytes} (h : bodyLen.length = 4) :
    (encodeHeader params salt chainHead bodyLen).length = headerLen := by
  have hmagic : magic.length = 8 := by decide
  simp only [encodeHeader, List.length_append, hmagic, length_encode, Vector.length_toList, h,
    List.length_singleton]
  rfl

theorem length_file (htag : tag.length = tagLen) :
    (file params salt chainHead body trailerNonce tag).length =
      headerLen + body.length + trailerLen := by
  have hheader : (encodeHeader params salt chainHead (beBytes 4 body.length)).length = headerLen :=
    length_encodeHeader (length_beBytes _ _)
  simp only [file, List.length_append, hheader, Vector.length_toList, htag, trailerLen, nonceLen]
  omega

/-- The fields of the file, each behind those before it. -/
theorem file_eq : file params salt chainHead body trailerNonce tag =
    magic ++ version :: (params.encode ++ (salt.toList ++ (chainHead.toList ++
      (beBytes 4 body.length ++ (body ++ (trailerNonce.toList ++ tag)))))) := by
  simp only [file, encodeHeader, List.append_assoc, List.cons_append, List.nil_append]

/-- The fields of the header are found where they were written. -/
theorem file_fields :
    ((file params salt chainHead body trailerNonce tag).drop paramsAt).take Argon2Params.paramsLen =
        params.encode ∧
      ((file params salt chainHead body trailerNonce tag).drop saltAt).take saltLen = salt.toList ∧
      ((file params salt chainHead body trailerNonce tag).drop headAt).take headLen =
        chainHead.toList ∧
      ((file params salt chainHead body trailerNonce tag).drop bodyLenAt).take 4 =
        beBytes 4 body.length := by
  have hmagic : (magic ++ [version]).length = paramsAt := by decide
  have hparams := length_encode params
  have hsalt : (magic ++ [version] ++ params.encode).length = saltAt := by
    rw [List.length_append, hmagic, hparams]
    rfl
  have hhead : (magic ++ [version] ++ params.encode ++ salt.toList).length = headAt := by
    rw [List.length_append, hsalt, Vector.length_toList]
    rfl
  have hbody : (magic ++ [version] ++ params.encode ++ salt.toList ++ chainHead.toList).length =
      bodyLenAt := by
    rw [List.length_append, hhead, Vector.length_toList]
    rfl
  refine ⟨?_, ?_, ?_, ?_⟩
  · rw [show file params salt chainHead body trailerNonce tag = (magic ++ [version]) ++
        (params.encode ++ (salt.toList ++ (chainHead.toList ++ (beBytes 4 body.length ++
          (body ++ (trailerNonce.toList ++ tag)))))) by simp [file, encodeHeader]]
    exact slice_middle hmagic hparams
  · rw [show file params salt chainHead body trailerNonce tag =
        (magic ++ [version] ++ params.encode) ++ (salt.toList ++ (chainHead.toList ++
          (beBytes 4 body.length ++ (body ++ (trailerNonce.toList ++ tag))))) by
        simp [file, encodeHeader]]
    exact slice_middle hsalt Vector.length_toList
  · rw [show file params salt chainHead body trailerNonce tag =
        (magic ++ [version] ++ params.encode ++ salt.toList) ++ (chainHead.toList ++
          (beBytes 4 body.length ++ (body ++ (trailerNonce.toList ++ tag)))) by
        simp [file, encodeHeader]]
    exact slice_middle hhead Vector.length_toList
  · rw [show file params salt chainHead body trailerNonce tag =
        (magic ++ [version] ++ params.encode ++ salt.toList ++ chainHead.toList) ++
          (beBytes 4 body.length ++ (body ++ (trailerNonce.toList ++ tag))) by
        simp [file, encodeHeader]]
    exact slice_middle hbody (length_beBytes _ _)

/-- Parsing finds the fields where they were written. -/
theorem parse_file {entries : List RawEntry}
    (hparams : Argon2Params.parse params.encode = .ok params)
    (hbody : decodeBody body = .ok entries) (hlen : body.length ≤ maxBodyLen)
    (htag : tag.length = tagLen) :
    parse (file params salt chainHead body trailerNonce tag) = .ok
      { params, salt, chainHead,
        header := encodeHeader params salt chainHead (beBytes 4 body.length),
        bodyLen := body.length, entries, trailerNonce, trailerTag := tag } := by
  have hmagic : magic.length = 8 := by decide
  have hheader : (encodeHeader params salt chainHead (beBytes 4 body.length)).length = headerLen :=
    length_encodeHeader (length_beBytes _ _)
  have hlength : (file params salt chainHead body trailerNonce tag).length =
      headerLen + body.length + trailerLen := length_file htag
  have hmax : maxBodyLen < 256 ^ 4 := by decide
  have hfound : (file params salt chainHead body trailerNonce tag)[8]? = some version := by
    rw [file_eq]
    exact byte_at hmagic
  have hstarts : magic.isPrefixOf (file params salt chainHead body trailerNonce tag) = true := by
    rw [file_eq, List.isPrefixOf_iff_prefix]
    exact List.prefix_append _ _
  have hsplit : file params salt chainHead body trailerNonce tag =
      encodeHeader params salt chainHead (beBytes 4 body.length) ++
        (body ++ (trailerNonce.toList ++ tag)) := by
    simp only [file, List.append_assoc]
  have htake : (file params salt chainHead body trailerNonce tag).take headerLen =
      encodeHeader params salt chainHead (beBytes 4 body.length) := by
    rw [hsplit, List.take_left' hheader]
  have hdrop : (file params salt chainHead body trailerNonce tag).drop headerLen =
      body ++ (trailerNonce.toList ++ tag) := by
    rw [hsplit, List.drop_left' hheader]
  have hnonce : trailerNonce.toList.length = nonceLen := Vector.length_toList
  obtain ⟨hp, hs, hh, hb⟩ := @file_fields params salt chainHead body trailerNonce tag
  have hsaltInto : tryInto saltLen salt.toList = some salt := tryInto_toList salt
  have hheadInto : tryInto headLen chainHead.toList = some chainHead := tryInto_toList chainHead
  have hnonceInto : tryInto nonceLen trailerNonce.toList = some trailerNonce :=
    tryInto_toList trailerNonce
  unfold parse
  rw [hstarts, failIf_neg _ (by decide), ok_bind, failIf_neg _ (by rw [hlength, maxFileLen]; omega),
    ok_bind, hfound, okOr_some, ok_bind, failIf_neg _ (by simp), ok_bind,
    failIf_neg _ (by rw [hlength]; omega), ok_bind, hp, hparams, ok_bind, hs, hsaltInto, okOr_some,
    ok_bind, hh, hheadInto, okOr_some, ok_bind]
  simp only [hb, ofBe_beBytes (lt_of_le_of_lt hlen hmax)]
  rw [failIf_neg _ (by omega), ok_bind, failIf_neg _ (by omega), ok_bind, hdrop, List.take_left,
    List.drop_left, hbody, ok_bind, List.take_left' hnonce, hnonceInto, okOr_some, ok_bind, htake,
    List.drop_left' hnonce]
  rfl

end File

end Store

/-! ## Sealing -/

open Store

/-- Argon2id accepts the parameters that writers emit, and ChaCha20-Poly1305 seals a seed, or
nothing, to what is a tag longer and opens again. -/
structure Primitives.Seals (K : Primitives) : Prop where
  derives : ∀ passphrase salt, salt.length = saltLen → ∃ key,
    K.argon2id passphrase salt memoryKib.toNat iterations.toNat parallelism.toNat = some key
  opens : ∀ key nonce (aad plaintext : Bytes), aad.length < 2 ^ 64 →
    plaintext.length ≤ seedLen → ∃ sealed,
    K.crypto.aeadSeal key nonce aad plaintext = some sealed ∧
    sealed.length = plaintext.length + tagLen ∧
    K.crypto.aeadOpen key nonce aad sealed = some plaintext

/-- The arguments of one call of `sealWith`. -/
structure SealRun where
  store : EpochStore
  passphrase : String
  salt : Vector UInt8 saltLen
  nonce : ℕ → Except KeyringError Nonce

def SealRun.result (K : Primitives) (run : SealRun) : Except KeyringError Bytes :=
  run.store.sealWith K run.passphrase run.salt run.nonce

/-- The values such a call draws and computes on its way. -/
structure Sealing where
  nonces : List Nonce
  key : Key
  sealed : List (Vector UInt8 Store.sealedLen)
  trailerNonce : Nonce
  tag : Bytes

namespace EpochStore

theorem map_number_rawEntries {numbers : List UInt64} {nonces : List Nonce} {sealed : List Bytes}
    (hnonces : nonces.length = numbers.length) (hsealed : sealed.length = numbers.length) :
    (rawEntries numbers nonces sealed).map RawEntry.number = numbers := by
  have hzip : (numbers.zip nonces).length = sealed.length := by
    rw [List.length_zip, hnonces, hsealed, min_self]
  unfold rawEntries
  rw [List.map_map]
  show ((numbers.zip nonces).zip sealed).map (Prod.fst ∘ Prod.fst) = numbers
  rw [← List.map_map, List.map_fst_zip hzip.le, List.map_fst_zip hnonces.ge]

theorem length_rawEntries {numbers : List UInt64} {nonces : List Nonce} {sealed : List Bytes}
    (hnonces : nonces.length = numbers.length) (hsealed : sealed.length = numbers.length) :
    (rawEntries numbers nonces sealed).length = numbers.length := by
  rw [← List.length_map, map_number_rawEntries hnonces hsealed]

theorem sealed_mem_of_mem {numbers : List UInt64} {nonces : List Nonce} {sealed : List Bytes}
    {entry : RawEntry} (h : entry ∈ rawEntries numbers nonces sealed) : entry.sealed ∈ sealed := by
  obtain ⟨item, hitem, rfl⟩ := List.mem_map.mp h
  exact (List.of_mem_zip hitem).2

/-- Two bodies for the same numbers are equally long. -/
theorem length_encodeBody_rawEntries {numbers : List UInt64} {nonces : List Nonce}
    {sealed : List Bytes} (hnonces : nonces.length = numbers.length)
    (hsealed : sealed.length = numbers.length)
    (hall : ∀ bytes ∈ sealed, bytes.length = Store.sealedLen) :
    (encodeBody (rawEntries numbers nonces sealed)).length = Cbor.headLen numbers.length +
      (numbers.map fun number => 64 + Cbor.headLen number.toNat).sum := by
  have hentries : ∀ entry ∈ rawEntries numbers nonces sealed,
      entry.sealed.length = Store.sealedLen := by
    intro entry hentry
    exact hall _ (sealed_mem_of_mem hentry)
  have hmap := congrArg (List.map fun number => 64 + Cbor.headLen number.toNat)
    (map_number_rawEntries hnonces hsealed)
  rw [List.map_map] at hmap
  rw [length_encodeBody hentries, length_rawEntries hnonces hsealed, ← hmap]
  rfl

theorem length_placeholder {n : ℕ} :
    ∀ bytes ∈ List.replicate n (List.replicate Store.sealedLen (0 : UInt8)),
      bytes.length = Store.sealedLen := by
  intro bytes hbytes
  rw [List.eq_of_mem_replicate hbytes, List.length_replicate]

theorem length_sizedBody_le {numbers : List UInt64} {nonces : List Nonce}
    (hnonces : nonces.length = numbers.length) (hfew : numbers.length ≤ maxEntries) :
    (sizedBody numbers nonces).length ≤ maxBodyLen := by
  unfold sizedBody
  apply length_encodeBody_le
  · intro entry hentry
    exact length_placeholder _ (sealed_mem_of_mem hentry)
  · rwa [length_rawEntries hnonces (by rw [List.length_replicate, hnonces])]

theorem insertEntry_append {number : UInt64} {secret : RecipientSecret}
    {entries : List (UInt64 × RecipientSecret)} (h : ∀ entry ∈ entries, entry.1 < number) :
    insertEntry number secret entries = entries ++ [(number, secret)] := by
  induction entries with
  | nil => rfl
  | cons first entries ih =>
    have hfirst := h first List.mem_cons_self
    have hlt : ¬number < first.1 := UInt64.not_lt.mpr (UInt64.le_of_lt hfirst)
    have hne : number ≠ first.1 := (UInt64.ne_of_lt hfirst).symm
    rw [insertEntry, if_neg hlt, if_neg hne,
      ih fun entry hentry => h entry (List.mem_cons_of_mem _ hentry), List.cons_append]

/-- The map holds what its list lists. -/
theorem get_eq_some_iff {store : EpochStore} {number : UInt64} {secret : RecipientSecret} :
    store.get number = some secret ↔ (number, secret) ∈ store.entries := by
  obtain ⟨head, entries, hascending⟩ := store
  simp only [get]
  induction entries with
  | nil => simp
  | cons entry entries ih =>
    obtain ⟨hfirst, hrest⟩ := List.pairwise_cons.mp hascending
    by_cases heq : entry.1 = number
    · -- every later entry has a greater number
      have hnot : (number, secret) ∉ entries := by
        intro hmem
        exact UInt64.ne_of_lt (hfirst _ hmem) heq
      rw [List.find?_cons_of_pos (by simpa using heq), List.mem_cons, or_iff_left hnot, ← heq]
      simp [Prod.ext_iff, eq_comm]
    · rw [List.find?_cons_of_neg (by simpa using heq), ih hrest, List.mem_cons, or_iff_right]
      intro hcontra
      exact heq (congrArg Prod.fst hcontra).symm

theorem insert_eq_ok {store store' : EpochStore} {number : UInt64} {secret : RecipientSecret}
    (h : store.insert number secret = .ok store') :
    store'.chainHead = store.chainHead ∧
      store'.entries = insertEntry number secret store.entries := by
  unfold insert at h
  obtain ⟨-, -, h⟩ := bind_eq_ok.mp h
  rw [recipientSecret_fromBytes, mapErr_ok, ok_bind, pure_eq_ok] at h
  rw [h]
  exact ⟨rfl, rfl⟩

end EpochStore

namespace SealRun
variable (K : Primitives) (run : SealRun) (s : Sealing)

def numbers : List UInt64 := run.store.entries.map Prod.fst

def header : Bytes :=
  encodeHeader .writer run.salt run.store.chainHead
    (beBytes 4 (EpochStore.sizedBody run.numbers s.nonces).length)

def body : Bytes :=
  encodeBody (EpochStore.rawEntries run.numbers s.nonces (s.sealed.map Vector.toList))

/-- The call succeeds by way of these values. -/
structure Goes : Prop where
  long : minPassphraseLen ≤ (K.nfc run.passphrase).length
  few : run.store.entries.length ≤ maxEntries
  nonces : (List.range run.store.entries.length).mapM run.nonce = .ok s.nonces
  small : (EpochStore.sizedBody run.numbers s.nonces).length < 2 ^ 32
  key : Argon2Params.writer.derive K (K.nfc run.passphrase) run.salt.toList = .ok s.key
  sealed : ((run.store.entries.zip s.nonces).mapM fun entry =>
    EpochStore.sealSeed K s.key (run.header s) entry.1.1 entry.2 entry.1.2) = .ok s.sealed
  trailerNonce : run.nonce run.store.entries.length = .ok s.trailerNonce
  tag : K.crypto.aeadSeal s.key s.trailerNonce (run.header s ++ run.body s) [] = some s.tag

variable {K run}

theorem result_eq_ok {file : Bytes} :
    run.result K = .ok file ↔
      ∃ s, run.Goes K s ∧ file = run.header s ++ run.body s ++ s.trailerNonce.toList ++ s.tag := by
  unfold result EpochStore.sealWith
  simp only [bind_eq_ok, failIf_eq_ok, okOr_eq_ok, pure_eq_ok]
  constructor
  · rintro ⟨_, hlong, _, hfew, nonces, hnonces, _, hsmall, key, hkey, sealed, hsealed, trailerNonce,
      htrailer, tag, htag, rfl⟩
    exact ⟨⟨nonces, key, sealed, trailerNonce, tag⟩,
      ⟨Nat.le_of_not_lt hlong, Nat.le_of_not_lt hfew, hnonces, Nat.lt_of_not_le hsmall, hkey,
        hsealed, htrailer, htag⟩, rfl⟩
  · rintro ⟨s, h, rfl⟩
    exact ⟨(), Nat.not_lt.mpr h.long, (), Nat.not_lt.mpr h.few, s.nonces, h.nonces, (),
      Nat.not_le.mpr h.small, s.key, h.key, s.sealed, h.sealed, s.trailerNonce, h.trailerNonce,
      s.tag, h.tag, rfl⟩

/-! ## What a sealing writes -/

/-- The entries, each with its nonce and what its seed is sealed to. -/
def items : List (((UInt64 × RecipientSecret) × Nonce) × Vector UInt8 Store.sealedLen) :=
  (run.store.entries.zip s.nonces).zip s.sealed

/-- An item as the body holds it. -/
def rawItem (item : ((UInt64 × RecipientSecret) × Nonce) × Vector UInt8 Store.sealedLen) : RawEntry :=
  ⟨item.1.1.1, item.1.2, item.2.toList⟩

theorem rawEntries_eq (run : SealRun) (s : Sealing) :
    EpochStore.rawEntries run.numbers s.nonces (s.sealed.map Vector.toList) =
      (run.items s).map rawItem := by
  unfold EpochStore.rawEntries numbers items
  rw [List.zip_map_left, List.zip_map, List.map_map]
  rfl

variable {s}

theorem Goes.lengths (h : run.Goes K s) :
    s.nonces.length = run.store.entries.length ∧ s.sealed.length = run.store.entries.length := by
  have hnonces : s.nonces.length = run.store.entries.length := by
    rw [← List.Forall₂.length_eq (forall₂_of_mapM h.nonces), List.length_range]
  have hsealed := (forall₂_of_mapM h.sealed).length_eq
  rw [List.length_zip, hnonces, min_self] at hsealed
  exact ⟨hnonces, hsealed.symm⟩

/-- The items stand for the entries of the store, in their order. -/
theorem Goes.entries (h : run.Goes K s) :
    (run.items s).map (Prod.fst ∘ Prod.fst) = run.store.entries := by
  obtain ⟨hnonces, hsealed⟩ := h.lengths
  have hzip : (run.store.entries.zip s.nonces).length = s.sealed.length := by
    rw [List.length_zip, hnonces, hsealed, min_self]
  unfold items
  rw [← List.map_map, List.map_fst_zip hzip.le, List.map_fst_zip hnonces.ge]

theorem length_rawItem (item : ((UInt64 × RecipientSecret) × Nonce) × Vector UInt8 Store.sealedLen) :
    (rawItem item).sealed.length = Store.sealedLen := Vector.length_toList

/-- The length written into the header before anything is sealed is that of the body. -/
theorem length_sizedBody (hnonces : s.nonces.length = run.store.entries.length)
    (hsealed : s.sealed.length = run.store.entries.length) :
    (EpochStore.sizedBody run.numbers s.nonces).length = (run.body s).length := by
  have hnumbers : run.numbers.length = run.store.entries.length := List.length_map _
  have hlen : s.nonces.length = run.numbers.length := by omega
  have hreplicate : (List.replicate s.nonces.length
      (List.replicate Store.sealedLen (0 : UInt8))).length = run.numbers.length := by
    rw [List.length_replicate, hlen]
  have hseeds : (s.sealed.map Vector.toList).length = run.numbers.length := by
    rw [List.length_map]
    omega
  have hall : ∀ bytes ∈ s.sealed.map Vector.toList, bytes.length = Store.sealedLen := by
    intro bytes hbytes
    obtain ⟨sealed, -, rfl⟩ := List.mem_map.mp hbytes
    exact Vector.length_toList
  unfold EpochStore.sizedBody body
  rw [EpochStore.length_encodeBody_rawEntries hlen hreplicate EpochStore.length_placeholder,
    EpochStore.length_encodeBody_rawEntries hlen hseeds hall]

/-! ## Sealing succeeds -/

theorem ascending_items (h : run.Goes K s) :
    ((run.items s).map rawItem).Pairwise fun a b => a.number < b.number := by
  have hstore := run.store.ascending
  rw [← h.entries, List.pairwise_map] at hstore
  exact List.pairwise_map.mpr hstore

theorem Goes.body_eq (h : run.Goes K s) :
    run.body s = encodeBody ((run.items s).map rawItem) ∧
      decodeBody (run.body s) = .ok ((run.items s).map rawItem) ∧
      (run.body s).length ≤ maxBodyLen := by
  have hbody : run.body s = encodeBody ((run.items s).map rawItem) := by
    rw [body, rawEntries_eq]
  have hsealed : ∀ entry ∈ (run.items s).map rawItem, entry.sealed.length = Store.sealedLen := by
    intro entry hentry
    obtain ⟨item, -, rfl⟩ := List.mem_map.mp hentry
    exact length_rawItem item
  have hcount : ((run.items s).map rawItem).length ≤ maxEntries := by
    have hlen := congrArg List.length h.entries
    rw [List.length_map] at hlen
    rw [List.length_map, hlen]
    exact h.few
  rw [hbody]
  exact ⟨rfl, decodeBody_encodeBody hsealed (ascending_items h) hcount,
    length_encodeBody_le hsealed hcount⟩

/-- What a sealing writes is the file of its parts. -/
theorem Goes.file_eq (h : run.Goes K s) :
    run.header s ++ run.body s ++ s.trailerNonce.toList ++ s.tag =
      file .writer run.salt run.store.chainHead (run.body s) s.trailerNonce s.tag := by
  rw [header, length_sizedBody h.lengths.1 h.lengths.2]
  rfl

theorem length_header (run : SealRun) (s : Sealing) : (run.header s).length = Store.headerLen :=
  length_encodeHeader (length_beBytes _ _)

theorem length_entryAad {header : Bytes} (h : header.length = Store.headerLen) (number : UInt64) :
    (entryAad header number).length < 2 ^ 64 := by
  rw [entryAad, List.length_append, h, length_beBytes]
  decide

/-- Sealing one seed. -/
theorem sealSeed_succeeds (hK : K.Seals) (key : Key) {header : Bytes}
    (hheader : header.length = Store.headerLen) (number : UInt64) (nonce : Nonce)
    (secret : RecipientSecret) :
    ∃ sealed, EpochStore.sealSeed K key header number nonce secret = .ok sealed := by
  have hseed : secret.seed.toList.length = seedLen := Vector.length_toList
  obtain ⟨sealed, hsealed, hlen, -⟩ := hK.opens key nonce (entryAad header number)
    secret.seed.toList (length_entryAad hheader number) hseed.le
  have hinto : sealed.length = Store.sealedLen := by
    rw [hlen, hseed]
    rfl
  unfold EpochStore.sealSeed
  rw [hsealed, okOr_some, ok_bind, tryInto, dif_pos hinto]
  exact ⟨_, rfl⟩

/-- With a nonce for every call, sealing gets through. -/
theorem exists_goes (hK : K.Seals) (hlong : minPassphraseLen ≤ (K.nfc run.passphrase).length)
    (hfew : run.store.entries.length ≤ maxEntries)
    (hnonce : ∀ i, ∃ nonce, run.nonce i = .ok nonce) : ∃ s, run.Goes K s := by
  have hnumbers : run.numbers.length = run.store.entries.length := List.length_map _
  obtain ⟨nonces, hnonces⟩ := exists_mapM fun i (_ : i ∈ List.range run.store.entries.length) =>
    hnonce i
  have hlen : nonces.length = run.numbers.length := by
    rw [← List.Forall₂.length_eq (forall₂_of_mapM hnonces), List.length_range, hnumbers]
  have hsized : (EpochStore.sizedBody run.numbers nonces).length ≤ maxBodyLen :=
    EpochStore.length_sizedBody_le hlen (by omega)
  have hmax : Store.headerLen + maxBodyLen < 2 ^ 32 := by decide
  obtain ⟨key, hkey⟩ := hK.derives (utf8 (K.nfc run.passphrase)) run.salt.toList
    Vector.length_toList
  obtain ⟨trailerNonce, htrailer⟩ := hnonce run.store.entries.length
  -- the header does not depend on what comes after it
  have hheader := length_header run ⟨nonces, key, [], trailerNonce, []⟩
  obtain ⟨sealed, hsealed⟩ := exists_mapM
    fun entry (_ : entry ∈ run.store.entries.zip nonces) =>
      sealSeed_succeeds hK key hheader entry.1.1 entry.2 entry.1.2
  have hsum : (run.header ⟨nonces, key, sealed, trailerNonce, []⟩ ++
      run.body ⟨nonces, key, sealed, trailerNonce, []⟩).length < 2 ^ 64 := by
    have hcount := List.Forall₂.length_eq (forall₂_of_mapM hsealed)
    rw [List.length_zip, hlen, hnumbers, min_self] at hcount
    rw [List.length_append, length_header,
      ← length_sizedBody (s := ⟨nonces, key, sealed, trailerNonce, []⟩) (hlen.trans hnumbers)
        hcount.symm]
    show Store.headerLen + (EpochStore.sizedBody run.numbers nonces).length < 2 ^ 64
    omega
  obtain ⟨tag, htag, -, -⟩ := hK.opens key trailerNonce _ [] hsum (Nat.zero_le _)
  have hsmall : (EpochStore.sizedBody run.numbers nonces).length < 2 ^ 32 := by omega
  exact ⟨⟨nonces, key, sealed, trailerNonce, tag⟩, hlong, hfew, hnonces, hsmall,
    okOr_eq_ok.mpr hkey, hsealed, htrailer, htag⟩

/-! ## A sealed file opens -/

/-- What was sealed opens. -/
theorem opens_of_seals (hK : K.Seals) {key : Key} {nonce : Nonce} {aad plaintext sealed : Bytes}
    (haad : aad.length < 2 ^ 64) (hplaintext : plaintext.length ≤ seedLen)
    (h : K.crypto.aeadSeal key nonce aad plaintext = some sealed) :
    sealed.length = plaintext.length + tagLen ∧
      K.crypto.aeadOpen key nonce aad sealed = some plaintext := by
  obtain ⟨sealed', hsealed', hlen, hopen⟩ := hK.opens key nonce aad plaintext haad hplaintext
  obtain rfl : sealed = sealed' := Option.some.inj (h.symm.trans hsealed')
  exact ⟨hlen, hopen⟩

/-- Every item opens to its seed. -/
theorem Goes.opens (hK : K.Seals) (h : run.Goes K s) :
    ∀ item ∈ run.items s, K.crypto.aeadOpen s.key item.1.2 (entryAad (run.header s) item.1.1.1)
      item.2.toList = some item.1.1.2.seed.toList := by
  rintro ⟨entry, sealed⟩ hitem
  have hseal := (List.forall₂_iff_zip.mp (forall₂_of_mapM h.sealed)).2 hitem
  unfold EpochStore.sealSeed at hseal
  obtain ⟨bytes, hbytes, hinto⟩ := bind_eq_ok.mp hseal
  have hseed : entry.1.2.seed.toList.length = seedLen := Vector.length_toList
  obtain ⟨-, hopen⟩ := opens_of_seals hK (length_entryAad (length_header run s) entry.1.1)
    hseed.le (okOr_eq_ok.mp hbytes)
  rwa [tryInto_eq_some (okOr_eq_ok.mp hinto)] at hopen

/-- Opening the items one after the other rebuilds a store that continues with their entries. -/
theorem foldlM_openEntry {key : Key} {header : Bytes}
    {items : List (((UInt64 × RecipientSecret) × Nonce) × Vector UInt8 Store.sealedLen)}
    (h : ∀ item ∈ items, K.crypto.aeadOpen key item.1.2 (entryAad header item.1.1.1)
      item.2.toList = some item.1.1.2.seed.toList)
    {store final : EpochStore} (hhead : final.chainHead = store.chainHead)
    (hentries : final.entries = store.entries ++ items.map (Prod.fst ∘ Prod.fst)) :
    (items.map rawItem).foldlM (EpochStore.openEntry K key header) store = .ok final := by
  induction items generalizing store with
  | nil =>
    rw [List.map_nil, List.append_nil] at hentries
    exact congrArg Except.ok (EpochStore.ext hhead hentries).symm
  | cons item items ih =>
    rw [List.map_cons] at hentries
    have hascending := final.ascending
    rw [hentries] at hascending
    have habove : ∀ entry ∈ store.entries, entry.1 < item.1.1.1 := by
      intro entry hentry
      exact (List.pairwise_append.mp hascending).2.2 entry hentry _ List.mem_cons_self
    have hinsert : EpochStore.insertEntry item.1.1.1 item.1.1.2 store.entries =
        store.entries ++ [item.1.1] := EpochStore.insertEntry_append habove
    have hopen := h item List.mem_cons_self
    have hstep : EpochStore.openEntry K key header store (rawItem item) = .ok
        { store with
          entries := EpochStore.insertEntry item.1.1.1 item.1.1.2 store.entries
          ascending := EpochStore.insertEntry_ascending store.ascending } := by
      unfold EpochStore.openEntry rawItem
      rw [hopen, okOr_some, ok_bind, recipientSecret_fromBytes]
      rfl
    rw [List.map_cons, List.foldlM_cons, hstep, ok_bind]
    refine ih (fun other hother => h other (List.mem_cons_of_mem _ hother)) ?_ ?_
    · exact hhead
    show final.entries = EpochStore.insertEntry _ _ _ ++ _
    rw [hinsert, hentries, List.append_assoc]
    rfl

theorem Goes.trailer (hK : K.Seals) (h : run.Goes K s) :
    s.tag.length = tagLen ∧ K.crypto.aeadOpen s.key s.trailerNonce (run.header s ++ run.body s) s.tag =
      some [] := by
  have hlen := h.body_eq.2.2
  have hmax : Store.headerLen + maxBodyLen < 2 ^ 64 := by decide
  have haad : (run.header s ++ run.body s).length < 2 ^ 64 := by
    rw [List.length_append, length_header]
    omega
  obtain ⟨htag, hopen⟩ := opens_of_seals hK haad (Nat.zero_le _) h.tag
  exact ⟨htag.trans (Nat.zero_add _), hopen⟩

theorem Goes.length_le (hK : K.Seals) (h : run.Goes K s) :
    (run.header s ++ run.body s ++ s.trailerNonce.toList ++ s.tag).length ≤ maxFileLen := by
  have hlen := h.body_eq.2.2
  rw [h.file_eq, length_file (h.trailer hK).1, maxFileLen]
  omega

/-- Parsing finds the parts. -/
theorem Goes.parse_eq_ok (h : run.Goes K s) (htag : s.tag.length = tagLen) :
    parse (run.header s ++ run.body s ++ s.trailerNonce.toList ++ s.tag) = .ok
      { params := .writer, salt := run.salt, chainHead := run.store.chainHead
        header := run.header s, bodyLen := (run.body s).length
        entries := (run.items s).map rawItem, trailerNonce := s.trailerNonce
        trailerTag := s.tag } := by
  obtain ⟨-, hdecode, hlen⟩ := h.body_eq
  rw [h.file_eq, parse_file parse_writer hdecode hlen htag]
  rw [header, length_sizedBody h.lengths.1 h.lengths.2]

/-- The trailer decides for the key of the run, whatever the spelling of its passphrase. -/
theorem Goes.chooseKey_eq_ok (h : run.Goes K s)
    (htag : K.crypto.aeadOpen s.key s.trailerNonce (run.header s ++ run.body s) s.tag = some [])
    {passphrase : String} (hspelling : K.nfc passphrase = K.nfc run.passphrase) {layout : Layout}
    (hparams : layout.params = .writer) (hsalt : layout.salt = run.salt)
    (hnonce : layout.trailerNonce = s.trailerNonce) (htrailer : layout.trailerTag = s.tag) :
    EpochStore.chooseKey K layout (run.header s ++ run.body s)
      (passphraseCandidates K passphrase) = .ok s.key := by
  obtain ⟨others, hcandidates⟩ := @candidates_head K passphrase
  have hnormal : normalizePassphrase K passphrase = K.nfc run.passphrase := hspelling
  rw [hcandidates, EpochStore.chooseKey, hnormal, hparams, hsalt, h.key, ok_bind, hnonce, htrailer,
    htag]
  rfl

theorem Goes.authenticated_eq (run : SealRun) (s : Sealing) :
    (run.header s ++ run.body s ++ s.trailerNonce.toList ++ s.tag).take
      (Store.headerLen + (run.body s).length) = run.header s ++ run.body s := by
  rw [List.append_assoc (run.header s ++ run.body s)]
  exact List.take_left' (by rw [List.length_append, length_header])

/-- Where the trailer and the items of a run open, its file does, under any passphrase that
normalizes to the one it was sealed under. -/
theorem Goes.open_of_opens (h : run.Goes K s)
    (htrailer : s.tag.length = tagLen ∧
      K.crypto.aeadOpen s.key s.trailerNonce (run.header s ++ run.body s) s.tag = some [])
    (hitems : ∀ item ∈ run.items s, K.crypto.aeadOpen s.key item.1.2
      (entryAad (run.header s) item.1.1.1) item.2.toList = some item.1.1.2.seed.toList)
    {passphrase : String} (hspelling : K.nfc passphrase = K.nfc run.passphrase) :
    EpochStore.«open» K (run.header s ++ run.body s ++ s.trailerNonce.toList ++ s.tag) passphrase =
      .ok run.store := by
  obtain ⟨htaglen, htag⟩ := htrailer
  unfold EpochStore.«open»
  rw [h.parse_eq_ok htaglen, ok_bind, authenticated_eq,
    h.chooseKey_eq_ok htag hspelling rfl rfl rfl rfl, ok_bind]
  apply foldlM_openEntry
  · exact hitems
  · rfl
  · exact h.entries.symm

/-- The file opens under any passphrase that normalizes to the one it was sealed under. -/
theorem Goes.open_eq_ok (hK : K.Seals) (h : run.Goes K s) {passphrase : String}
    (hspelling : K.nfc passphrase = K.nfc run.passphrase) :
    EpochStore.«open» K (run.header s ++ run.body s ++ s.trailerNonce.toList ++ s.tag) passphrase =
      .ok run.store :=
  h.open_of_opens (h.trailer hK) (h.opens hK) hspelling

end SealRun

/-! ## Only sealed files open -/

namespace Store

/-- What parsing leaves for the trailer: the bytes are what it authenticates, a nonce and a tag. -/
theorem parse_trailer {bytes : Bytes} {layout : Layout} (h : parse bytes = .ok layout) :
    layout.trailerTag.length = tagLen ∧
      bytes = bytes.take (Store.headerLen + layout.bodyLen) ++ layout.trailerNonce.toList ++
        layout.trailerTag := by
  unfold parse at h
  simp only [bind_eq_ok, failIf_eq_ok, okOr_eq_ok, pure_eq_ok] at h
  obtain ⟨-, -, -, -, found, -, -, -, -, -, params, -, salt, -, chainHead, -, -, -, -, hlen, entries,
    -, trailerNonce, hnonce, rfl⟩ := h
  have hlength := not_not.mp hlen
  refine ⟨?_, ?_⟩
  · show (((bytes.drop Store.headerLen).drop _).drop nonceLen).length = tagLen
    simp only [List.length_drop, hlength, trailerLen]
    omega
  · show bytes = bytes.take (Store.headerLen + ofBe ((bytes.drop bodyLenAt).take 4)) ++
      trailerNonce.toList ++ ((bytes.drop Store.headerLen).drop _).drop nonceLen
    rw [← tryInto_eq_some hnonce, List.append_assoc, List.take_append_drop, List.drop_drop,
      List.take_append_drop]

end Store

namespace EpochStore
variable {K : Primitives}

/-- A chosen key opens the trailer. -/
theorem aeadOpen_of_chooseKey {layout : Layout} {authenticated : Bytes} {key : Key}
    {candidates : List String} (h : chooseKey K layout authenticated candidates = .ok key) :
    ∃ plaintext, K.crypto.aeadOpen key layout.trailerNonce authenticated layout.trailerTag =
      some plaintext := by
  induction candidates with
  | nil => cases h
  | cons candidate candidates ih =>
    rw [chooseKey] at h
    obtain ⟨kek, -, h⟩ := bind_eq_ok.mp h
    by_cases hopen : (K.crypto.aeadOpen kek layout.trailerNonce authenticated
        layout.trailerTag).isSome
    · rw [if_pos hopen, pure_eq_ok] at h
      rw [h]
      exact Option.isSome_iff_exists.mp hopen
    · rw [if_neg hopen] at h
      exact ih h

end EpochStore

/-- What has been sealed under a key when the stores of some runs were: seeds, each for a header
and a number, and the trailers of finished files. -/
inductive SealedUnder (K : Primitives) (runs : Set SealRun) (key : Key) :
    Nonce → Bytes → Bytes → Prop
  | seed {header : Bytes} {number : UInt64} {nonce : Nonce} {secret : RecipientSecret}
      {sealed : Vector UInt8 Store.sealedLen}
      (h : EpochStore.sealSeed K key header number nonce secret = .ok sealed) :
      SealedUnder K runs key nonce (entryAad header number) sealed.toList
  | trailer {run : SealRun} {s : Sealing} (hrun : run ∈ runs) (hgoes : run.Goes K s)
      (hkey : s.key = key) :
      SealedUnder K runs key s.trailerNonce (run.header s ++ run.body s) s.tag

/-- An ideal AEAD under a key: only what was sealed opens. Seeds may have been sealed by runs
that failed afterwards, so theirs are not tied to a finished file. -/
def OnlySealedOpens (K : Primitives) (runs : Set SealRun) (key : Key) : Prop :=
  ∀ nonce aad ciphertext plaintext, K.crypto.aeadOpen key nonce aad ciphertext = some plaintext →
    SealedUnder K runs key nonce aad ciphertext

/-- `open` accepts the bytes under this key: it is the one derived from a spelling of the
passphrase that the trailer decides for. -/
def OpensUnder (K : Primitives) (bytes : Bytes) (passphrase : String) (key : Key) : Prop :=
  ∃ layout store, parse bytes = .ok layout ∧
    EpochStore.chooseKey K layout (bytes.take (Store.headerLen + layout.bodyLen))
      (passphraseCandidates K passphrase) = .ok key ∧
    EpochStore.«open» K bytes passphrase = .ok store

namespace SealRun
variable {K : Primitives}

/-- The trailer covers the whole file, so a file that opens was sealed. -/
theorem exists_run_of_opensUnder {runs : Set SealRun} {key : Key} (hK : OnlySealedOpens K runs key)
    {bytes : Bytes} {passphrase : String} (h : OpensUnder K bytes passphrase key) :
    ∃ run ∈ runs, ∃ s, run.Goes K s ∧ s.key = key ∧ run.result K = .ok bytes := by
  obtain ⟨layout, store, hparse, hchoose, -⟩ := h
  obtain ⟨htag, hbytes⟩ := parse_trailer hparse
  obtain ⟨plaintext, hopen⟩ := EpochStore.aeadOpen_of_chooseKey hchoose
  have hsealed := hK _ _ _ _ hopen
  generalize bytes.take (Store.headerLen + layout.bodyLen) = authenticated at hbytes hsealed
  generalize layout.trailerNonce = nonce at hbytes hsealed
  generalize layout.trailerTag = tag at htag hbytes hsealed
  cases hsealed with
  | seed hseed =>
    -- a sealed seed is longer than a tag
    rw [Vector.length_toList] at htag
    cases htag
  | @trailer run s hrun hgoes hkey =>
    exact ⟨run, hrun, s, hgoes, hkey, result_eq_ok.mpr ⟨s, hgoes, hbytes⟩⟩

end SealRun

/-! ## Two sample keyrings -/

/-- Passphrases are their own normal form and all derive one key. -/
def sampleKeyring (aeadOpen : Key → Nonce → Bytes → Bytes → Option Bytes) : Primitives where
  nfc := id
  nfd := id
  argon2id _ _ _ _ _ := some (Vector.replicate 32 5)
  hkdfExpand _ _ := Vector.replicate 32 0
  crypto := { Crypto.Primitives.toy with aeadOpen }

theorem sampleKeyring_seals : (sampleKeyring Crypto.Primitives.toy.aeadOpen).Seals where
  derives _ _ _ := ⟨_, rfl⟩
  opens := by
    intro key nonce aad plaintext haad hplaintext
    refine ⟨plaintext ++ List.replicate 16 0, rfl, ?_, ?_⟩
    · rw [List.length_append, List.length_replicate]
      rfl
    · simp [sampleKeyring, Crypto.Primitives.toy]

/-- A store with a number of every width. -/
def sampleStore : EpochStore where
  chainHead := Vector.replicate 32 4
  entries := [(3, ⟨Vector.replicate 32 1⟩), (200, ⟨Vector.replicate 32 2⟩),
    (60000, ⟨Vector.replicate 32 3⟩), (4000000000, ⟨Vector.replicate 32 4⟩),
    (1099511627776, ⟨Vector.replicate 32 5⟩)]
  ascending := by decide

/-- Sealing it. -/
def sampleSealRun : SealRun where
  store := sampleStore
  passphrase := "correct horse"
  salt := Vector.replicate saltLen 1
  nonce _ := .ok (Vector.replicate nonceLen 2)

/-- The primitives of the toy instance. -/
def openKeyring : Primitives := sampleKeyring Crypto.Primitives.toy.aeadOpen

/-- What a run has sealed: its seeds and its trailer. -/
def SealRun.HasSealed (run : SealRun) (s : Sealing) (nonce : Nonce) (aad ciphertext : Bytes) :
    Prop :=
  (nonce = s.trailerNonce ∧ aad = run.header s ++ run.body s ∧ ciphertext = s.tag) ∨
    ∃ item ∈ run.items s, nonce = item.1.2 ∧ aad = entryAad (run.header s) item.1.1.1 ∧
      ciphertext = item.2.toList

instance (run : SealRun) (s : Sealing) (nonce : Nonce) (aad ciphertext : Bytes) :
    Decidable (run.HasSealed s nonce aad ciphertext) :=
  inferInstanceAs (Decidable (_ ∨ _))

/-- The same, but opening nothing that the run has not sealed. -/
def strictKeyring (run : SealRun) (s : Sealing) : Primitives :=
  sampleKeyring fun key nonce aad ciphertext =>
    if run.HasSealed s nonce aad ciphertext then
      Crypto.Primitives.toy.aeadOpen key nonce aad ciphertext
    else none

section Strict
variable {run : SealRun} {s : Sealing}

/-- Sealing does not depend on what opens. -/
theorem goes_strict (h : run.Goes openKeyring s) : run.Goes (strictKeyring run s) s where
  long := h.long
  few := h.few
  nonces := h.nonces
  small := h.small
  key := h.key
  sealed := h.sealed
  trailerNonce := h.trailerNonce
  tag := h.tag

theorem strictKeyring_ideal (h : run.Goes openKeyring s) :
    OnlySealedOpens (strictKeyring run s) {run} s.key := by
  intro nonce aad ciphertext plaintext hopen
  have hopen' : (if run.HasSealed s nonce aad ciphertext then
      Crypto.Primitives.toy.aeadOpen s.key nonce aad ciphertext else none) = some plaintext := hopen
  split at hopen'
  next hsealed =>
    rcases hsealed with ⟨rfl, rfl, rfl⟩ | ⟨item, hitem, rfl, rfl, rfl⟩
    · exact .trailer rfl (goes_strict h) rfl
    · exact .seed ((List.forall₂_iff_zip.mp (forall₂_of_mapM h.sealed)).2 hitem)
  next => cases hopen'

/-- It opens the file of the run. -/
theorem opensUnder_strict (h : run.Goes openKeyring s) :
    OpensUnder (strictKeyring run s)
      (run.header s ++ run.body s ++ s.trailerNonce.toList ++ s.tag) run.passphrase s.key := by
  obtain ⟨hlen, htag⟩ := h.trailer sampleKeyring_seals
  have hitems := h.opens sampleKeyring_seals
  have htag' : (strictKeyring run s).crypto.aeadOpen s.key s.trailerNonce
      (run.header s ++ run.body s) s.tag = some [] := by
    have hsealed : run.HasSealed s s.trailerNonce (run.header s ++ run.body s) s.tag :=
      Or.inl ⟨rfl, rfl, rfl⟩
    exact (if_pos hsealed).trans htag
  have hitems' : ∀ item ∈ run.items s, (strictKeyring run s).crypto.aeadOpen s.key item.1.2
      (entryAad (run.header s) item.1.1.1) item.2.toList = some item.1.1.2.seed.toList := by
    intro item hitem
    have hsealed : run.HasSealed s item.1.2 (entryAad (run.header s) item.1.1.1) item.2.toList :=
      Or.inr ⟨item, hitem, rfl, rfl, rfl⟩
    exact (if_pos hsealed).trans (hitems item hitem)
  have hgoes := goes_strict h
  refine ⟨_, run.store, hgoes.parse_eq_ok hlen, ?_, hgoes.open_of_opens ⟨hlen, htag'⟩ hitems' rfl⟩
  rw [SealRun.Goes.authenticated_eq]
  exact hgoes.chooseKey_eq_ok htag' rfl rfl rfl rfl rfl

end Strict

/-- A store of at most `maxEntries` entries is sealed to a file within the reader's bound, whose
header holds the length of the body, and every spelling of the passphrase opens it again. With an
ideal AEAD, whatever opens under a key is byte for byte a file of a run that derived this key. -/
theorem EpochStore.seal_open (K : Primitives) :
    (K.Seals → ∀ (store : EpochStore) (passphrase : String) (salt : Vector UInt8 saltLen)
      (nonces : ℕ → Nonce), store.entries.length ≤ maxEntries →
      minPassphraseLen ≤ (K.nfc passphrase).length →
      ∃ file s, store.sealWith K passphrase salt (fun i => .ok (nonces i)) = .ok file ∧
        SealRun.Goes K ⟨store, passphrase, salt, fun i => .ok (nonces i)⟩ s ∧
        file.length ≤ maxFileLen ∧
        (sizedBody (store.entries.map Prod.fst) s.nonces).length =
          (SealRun.body ⟨store, passphrase, salt, fun i => .ok (nonces i)⟩ s).length ∧
        ∀ spelling, K.nfc spelling = K.nfc passphrase →
          EpochStore.«open» K file spelling = .ok store) ∧
    ∀ (runs : Set SealRun) (key : Key), OnlySealedOpens K runs key →
      ∀ bytes passphrase, OpensUnder K bytes passphrase key →
        ∃ run ∈ runs, ∃ s, run.Goes K s ∧ s.key = key ∧ run.result K = .ok bytes := by
  refine ⟨?_, ?_⟩
  · intro hK store passphrase salt nonces hfew hlong
    obtain ⟨s, h⟩ := @SealRun.exists_goes K ⟨store, passphrase, salt, fun i => .ok (nonces i)⟩ hK
      hlong hfew fun i => ⟨nonces i, rfl⟩
    have hresult := SealRun.result_eq_ok.mpr ⟨s, h, rfl⟩
    have hsized := SealRun.length_sizedBody h.lengths.1 h.lengths.2
    exact ⟨_, s, hresult, h, h.length_le hK, hsized, fun _ hspelling => h.open_eq_ok hK hspelling⟩
  · intro runs key hK bytes passphrase h
    exact SealRun.exists_run_of_opensUnder hK h

theorem EpochStore.seal_open_samples :
    ∃ file s, sampleStore.sealWith openKeyring "correct horse" (Vector.replicate saltLen 1)
        (fun _ => .ok (Vector.replicate nonceLen 2)) = .ok file ∧
      EpochStore.«open» openKeyring file "correct horse" = .ok sampleStore ∧
      OpensUnder (strictKeyring sampleSealRun s) file "correct horse" s.key ∧
      ∃ s', sampleSealRun.Goes (strictKeyring sampleSealRun s) s' ∧ s'.key = s.key ∧
        sampleSealRun.result (strictKeyring sampleSealRun s) = .ok file := by
  obtain ⟨file, s, hfile, hgoes, -, -, hopen⟩ := (EpochStore.seal_open openKeyring).1
    sampleKeyring_seals sampleStore "correct horse" (Vector.replicate saltLen 1)
    (fun _ => Vector.replicate nonceLen 2) (by decide) (by decide)
  have hgoes : sampleSealRun.Goes openKeyring s := hgoes
  have hresult : sampleSealRun.result openKeyring = .ok file := hfile
  have hwritten := @SealRun.result_eq_ok openKeyring sampleSealRun
    (sampleSealRun.header s ++ sampleSealRun.body s ++ s.trailerNonce.toList ++ s.tag)
  have hparts : file = sampleSealRun.header s ++ sampleSealRun.body s ++ s.trailerNonce.toList ++
      s.tag := by
    rw [hwritten.mpr ⟨s, hgoes, rfl⟩] at hresult
    exact (Except.ok.inj hresult).symm
  have hopens : OpensUnder (strictKeyring sampleSealRun s) file "correct horse" s.key := by
    rw [hparts]
    exact opensUnder_strict hgoes
  obtain ⟨run, hrun, s', hgoes', hkey, hresult⟩ :=
    (EpochStore.seal_open (strictKeyring sampleSealRun s)).2 {sampleSealRun} _
      (strictKeyring_ideal hgoes) _ _ hopens
  obtain rfl : run = sampleSealRun := hrun
  exact ⟨file, s, hfile, hopen "correct horse" rfl, hopens, s', hgoes', hkey, hresult⟩

end HideProtocol.Keyring
