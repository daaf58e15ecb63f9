import HideProtocol.Keyring.KeyFileTheorems
import HideProtocol.Lib.Cbor

/-!
# Epoch stores

One passphrase-sealed file that holds every live epoch secret. The header carries the Argon2
parameters, a salt, the head of the chain the secrets belong to and the length of the body. The
body is a CBOR array of sealed seeds, ascending by epoch; each is bound to the header and its
number. A trailer authenticates header and body together.

The length in the header is authenticated by every seal, so the writer has to know it before it
seals anything: it encodes the body once with placeholders.
-/

namespace HideProtocol.Keyring

open Lib Crypto

namespace Store

def magic : Bytes := utf8 "HIDE-EPK"
def version : UInt8 := 1

abbrev headLen : ℕ := 32
def sealedLen : ℕ := seedLen + tagLen

def paramsAt : ℕ := 9
def saltAt : ℕ := paramsAt + Argon2Params.paramsLen
def headAt : ℕ := saltAt + saltLen
def bodyLenAt : ℕ := headAt + headLen
/-- Everything before the body. -/
def headerLen : ℕ := bodyLenAt + 4
def trailerLen : ℕ := nonceLen + tagLen

def maxEntries : ℕ := 65536

/-- The largest canonical entry: the number takes nine bytes. -/
def maxEntryBytes : ℕ := 1 + 9 + (1 + nonceLen) + (2 + sealedLen)
def maxBodyLen : ℕ := 5 + maxEntries * maxEntryBytes
def maxFileLen : ℕ := headerLen + maxBodyLen + trailerLen

end Store

/-! ## The store in memory -/

/-- Every epoch secret a recipient still holds, plus the chain head they belong to. The entries
are a map, listed in the order of its keys. -/
@[ext]
structure EpochStore where
  chainHead : Vector UInt8 Store.headLen
  entries : List (UInt64 × RecipientSecret)
  ascending : entries.Pairwise fun a b => a.1 < b.1
deriving DecidableEq

namespace EpochStore

/-- `BTreeMap::insert` on the listed map. -/
def insertEntry (number : UInt64) (secret : RecipientSecret) :
    List (UInt64 × RecipientSecret) → List (UInt64 × RecipientSecret)
  | [] => [(number, secret)]
  | entry :: entries =>
    if number < entry.1 then (number, secret) :: entry :: entries
    else if number = entry.1 then (number, secret) :: entries
    else entry :: insertEntry number secret entries

theorem mem_insertEntry {number : UInt64} {secret : RecipientSecret}
    {entries : List (UInt64 × RecipientSecret)} {entry : UInt64 × RecipientSecret}
    (h : entry ∈ insertEntry number secret entries) :
    entry = (number, secret) ∨ entry ∈ entries := by
  induction entries with
  | nil =>
    left
    simpa [insertEntry] using h
  | cons first entries ih =>
    unfold insertEntry at h
    split at h
    · simpa using h
    · split at h
      · rcases List.mem_cons.mp h with rfl | hmem
        · exact .inl rfl
        · exact .inr (List.mem_cons_of_mem _ hmem)
      · rcases List.mem_cons.mp h with rfl | hmem
        · exact .inr List.mem_cons_self
        · rcases ih hmem with heq | hmem
          · exact .inl heq
          · exact .inr (List.mem_cons_of_mem _ hmem)

theorem insertEntry_ascending {number : UInt64} {secret : RecipientSecret}
    {entries : List (UInt64 × RecipientSecret)} (h : entries.Pairwise fun a b => a.1 < b.1) :
    (insertEntry number secret entries).Pairwise fun a b => a.1 < b.1 := by
  induction entries with
  | nil => simp [insertEntry]
  | cons first entries ih =>
    obtain ⟨hfirst, hrest⟩ := List.pairwise_cons.mp h
    unfold insertEntry
    split
    next hlt =>
      refine List.pairwise_cons.mpr ⟨?_, h⟩
      intro entry hentry
      rcases List.mem_cons.mp hentry with rfl | hmem
      · exact hlt
      · exact UInt64.lt_trans hlt (hfirst entry hmem)
    next hlt =>
      split
      next heq =>
        refine List.pairwise_cons.mpr ⟨?_, hrest⟩
        intro entry hentry
        rw [heq]
        exact hfirst entry hentry
      next hne =>
        refine List.pairwise_cons.mpr ⟨?_, ih hrest⟩
        intro entry hentry
        rcases mem_insertEntry hentry with rfl | hmem
        · exact UInt64.lt_of_le_of_ne (UInt64.not_lt.mp hlt) (Ne.symm hne)
        · exact hfirst entry hmem

/-- An empty store for the chain whose latest link is `chainHead`. -/
def new (chainHead : Vector UInt8 Store.headLen) : EpochStore := ⟨chainHead, [], .nil⟩

def get (self : EpochStore) (number : UInt64) : Option RecipientSecret :=
  (self.entries.find? fun entry => entry.1 == number).map Prod.snd

/-- Stores a secret as epoch `number`, replacing any previous one. -/
def insert (self : EpochStore) (number : UInt64) (secret : RecipientSecret) :
    Except KeyringError EpochStore := do
  failIf ((self.get number).isNone = true ∧ self.entries.length ≥ Store.maxEntries)
    (.tooManyEntries Store.maxEntries)
  let copy ← mapErr .crypto (RecipientSecret.fromBytes secret.seed.toList)
  pure { self with
    entries := insertEntry number copy self.entries
    ascending := insertEntry_ascending self.ascending }

end EpochStore

/-! ## The file -/

namespace Store

/-- An entry as the body holds it. -/
structure RawEntry where
  number : UInt64
  nonce : Nonce
  sealed : Bytes
deriving DecidableEq

/-- What parsing finds, before anything is authenticated. -/
structure Layout where
  params : Argon2Params
  salt : Vector UInt8 saltLen
  chainHead : Vector UInt8 headLen
  header : Bytes
  bodyLen : ℕ
  entries : List RawEntry
  trailerNonce : Nonce
  trailerTag : Bytes
deriving DecidableEq

def encodeHeader (params : Argon2Params) (salt : Vector UInt8 saltLen)
    (chainHead : Vector UInt8 headLen) (bodyLen : Bytes) : Bytes :=
  magic ++ [version] ++ params.encode ++ salt.toList ++ chainHead.toList ++ bodyLen

def encodeEntry (entry : RawEntry) : Bytes :=
  Cbor.array 3 ++ Cbor.uint entry.number.toNat ++ Cbor.bytes entry.nonce.toList ++
    Cbor.bytes entry.sealed

/-- Writing CBOR to a vector cannot fail. -/
def encodeBody (entries : List RawEntry) : Bytes :=
  Cbor.array entries.length ++ entries.flatMap encodeEntry

/-- Binds a sealed seed to a header and to its epoch number. -/
def entryAad (header : Bytes) (number : UInt64) : Bytes := header ++ beBytes 8 number.toNat

def decodeEntry (previous : Option UInt64) : Parser KeyringError RawEntry := do
  let fields ← Parser.orErr .malformed Cbor.readArray
  Parser.lift (failIf (fields ≠ some 3) .malformed)
  let number ← Parser.orErr .malformed Cbor.readU64
  let number := UInt64.ofNat number
  -- one store, one encoding: strictly ascending
  Parser.lift (failIf (previous.any (fun last => decide (number ≤ last)) = true) .malformed)
  let nonce ← Parser.orErr .malformed Cbor.readBytes
  let nonce ← Parser.lift (okOr (tryInto nonceLen nonce) .malformed)
  let sealed ← Parser.orErr .malformed Cbor.readBytes
  Parser.lift (failIf (sealed.length ≠ sealedLen) .malformed)
  pure { number, nonce, sealed }

/-- The loop over the declared count, with the number before as its state. -/
def decodeEntries : ℕ → Option UInt64 → Parser KeyringError (List RawEntry)
  | 0, _ => pure []
  | count + 1, previous => do
    let entry ← decodeEntry previous
    let entries ← decodeEntries count (some entry.number)
    pure (entry :: entries)

/-- The entries, up to the canonical check. On a 64-bit target the count fits a `usize`. -/
def decodeArray : Parser KeyringError (List RawEntry) := do
  let declared ← Parser.orErr .malformed Cbor.readArray
  let count ← Parser.lift (okOr declared .malformed)
  Parser.lift (failIf (count > maxEntries) (.tooManyEntries maxEntries))
  decodeEntries count none

def decodeBody (body : Bytes) : Except KeyringError (List RawEntry) := do
  let (entries, rest) ← decodeArray body
  failIf (body.length - rest.length ≠ body.length) .malformed
  failIf (encodeBody entries ≠ body) .malformed
  pure entries

def parse (bytes : Bytes) : Except KeyringError Layout := do
  failIf (!magic.isPrefixOf bytes) .notAnEpochStore
  failIf (bytes.length > maxFileLen) .malformed
  let found ← okOr bytes[8]? .malformed
  failIf (found ≠ version) (.unsupportedVersion found)
  failIf (bytes.length < headerLen + trailerLen) .malformed
  let params ← Argon2Params.parse ((bytes.drop paramsAt).take Argon2Params.paramsLen)
  let salt ← okOr (tryInto saltLen ((bytes.drop saltAt).take saltLen)) .malformed
  let chainHead ← okOr (tryInto headLen ((bytes.drop headAt).take headLen)) .malformed
  let bodyLen := ofBe ((bytes.drop bodyLenAt).take 4)
  failIf (bodyLen > maxBodyLen) .malformed
  failIf (bytes.length ≠ headerLen + bodyLen + trailerLen) .malformed
  let rest := bytes.drop headerLen
  let trailer := rest.drop bodyLen
  let entries ← decodeBody (rest.take bodyLen)
  let trailerNonce ← okOr (tryInto nonceLen (trailer.take nonceLen)) .malformed
  pure { params, salt, chainHead, header := bytes.take headerLen, bodyLen, entries, trailerNonce,
         trailerTag := trailer.drop nonceLen }

/-- Parses without authenticating and encodes the parsed fields again. -/
def reencodeUnauthenticated (bytes : Bytes) : Except KeyringError Bytes := do
  let layout ← parse bytes
  let body := encodeBody layout.entries
  failIf (body.length ≥ 2 ^ 32) .malformed
  pure (encodeHeader layout.params layout.salt layout.chainHead (beBytes 4 body.length) ++ body ++
    layout.trailerNonce.toList ++ layout.trailerTag)

end Store

/-! ## Sealing and opening -/

namespace EpochStore

open Store

section
variable (K : Primitives)

def sealSeed (kek : Key) (header : Bytes) (number : UInt64) (nonce : Nonce)
    (secret : RecipientSecret) : Except KeyringError (Vector UInt8 Store.sealedLen) := do
  let sealed ← okOr (K.crypto.aeadSeal kek nonce (entryAad header number) secret.seed.toList)
    (.cryptoText "sealing an epoch secret failed")
  -- a 32-byte seed is sealed to 48 bytes
  okOr (tryInto Store.sealedLen sealed) (.cryptoText "sealing an epoch secret failed")

/-- The body's entries, from the numbers, the nonces and what the seeds are sealed to. -/
def rawEntries (numbers : List UInt64) (nonces : List Nonce) (sealed : List Bytes) :
    List RawEntry :=
  ((numbers.zip nonces).zip sealed).map fun entry => ⟨entry.1.1, entry.1.2, entry.2⟩

/-- The body with placeholders for the sealed seeds, to know its length. -/
def sizedBody (numbers : List UInt64) (nonces : List Nonce) : Bytes :=
  encodeBody (rawEntries numbers nonces
    (List.replicate nonces.length (List.replicate Store.sealedLen 0)))

/-- Seals the store. `nonce i` is what the `i`-th call of the nonce source returns; the last call
is for the trailer. -/
def sealWith (self : EpochStore) (passphrase : String) (salt : Vector UInt8 saltLen)
    (nonce : ℕ → Except KeyringError Nonce) : Except KeyringError Bytes := do
  let passphrase := normalizePassphrase K passphrase
  failIf (passphrase.length < minPassphraseLen) (.passphraseTooShort minPassphraseLen)
  failIf (self.entries.length > maxEntries) (.tooManyEntries maxEntries)
  let numbers := self.entries.map Prod.fst
  let nonces ← (List.range self.entries.length).mapM nonce
  let sized := sizedBody numbers nonces
  failIf (sized.length ≥ 2 ^ 32) .malformed
  let header := encodeHeader .writer salt self.chainHead (beBytes 4 sized.length)
  let kek ← Argon2Params.writer.derive K passphrase salt.toList
  let sealed ← (self.entries.zip nonces).mapM fun entry =>
    sealSeed K kek header entry.1.1 entry.2 entry.1.2
  let body := encodeBody (rawEntries numbers nonces (sealed.map Vector.toList))
  let out := header ++ body
  let trailerNonce ← nonce self.entries.length
  let tag ← okOr (K.crypto.aeadSeal kek trailerNonce out [])
    (.cryptoText "sealing the epoch store failed")
  pure (out ++ trailerNonce.toList ++ tag)

/-- Seals the store under `passphrase`. The salt and the nonces are drawn at random. -/
def «seal» (self : EpochStore) (passphrase : String) (salt : Except KeyringError (Vector UInt8 saltLen))
    (nonce : ℕ → Except KeyringError Nonce) : Except KeyringError Bytes := do
  let salt ← salt
  self.sealWith K passphrase salt nonce

/-- The loop over the spellings of the passphrase: the key under which the trailer is authentic. -/
def chooseKey (layout : Layout) (authenticated : Bytes) : List String → Except KeyringError Key
  | [] => .error .wrongPassphrase
  | candidate :: candidates => do
    let kek ← layout.params.derive K candidate layout.salt.toList
    if (K.crypto.aeadOpen kek layout.trailerNonce authenticated layout.trailerTag).isSome then
      pure kek
    else chooseKey layout authenticated candidates

/-- Opens one entry and adds it to the store. -/
def openEntry (kek : Key) (header : Bytes) (store : EpochStore) (entry : RawEntry) :
    Except KeyringError EpochStore := do
  let seed ← okOr (K.crypto.aeadOpen kek entry.nonce (entryAad header entry.number) entry.sealed)
    .wrongPassphrase
  let secret ← mapErr .crypto (RecipientSecret.fromBytes seed)
  pure { store with
    entries := insertEntry entry.number secret store.entries
    ascending := insertEntry_ascending store.ascending }

/-- Opens a sealed store: authenticated as a whole before any seed is decrypted. -/
def «open» (bytes : Bytes) (passphrase : String) : Except KeyringError EpochStore := do
  let layout ← parse bytes
  let kek ← chooseKey K layout (bytes.take (Store.headerLen + layout.bodyLen))
    (passphraseCandidates K passphrase)
  layout.entries.foldlM (openEntry K kek layout.header) (new layout.chainHead)

end

end EpochStore

end HideProtocol.Keyring
