import HideProtocol.Epoch.Chain
import HideProtocol.Identity.Log
import HideProtocol.Keyring.KeyFileTheorems

/-!
# Key files on the command line

`hide` reads its keys with `load_key`: a bare 32-byte file is a master seed, a protected file
says what its seed is for, and both keys of an identity derive from its master seed.
`hide passwd` goes another way. It takes the bytes of a bare file for the encryption key itself,
opens protected files with the reader that refuses identities, and always seals an
encryption-only file, so only keys that were encryption-only before survive it.

The answers to the prompts are arguments. The loaders ask for a passphrase only for a protected
file, and without a terminal the prompt goes unanswered. File system errors are left out.
-/

namespace HideProtocol.Cli

open Lib Crypto Keyring Sign

def maxKeyFile : ℕ := 4096

/-- `Box<dyn Error>`. -/
inductive CliError where
  | message (text : String)
  | keyring (error : KeyringError)
  | crypto (error : CryptoError)
  | sign (error : SignError)
  | epoch (error : Epoch.EpochError)
  | identity (error : Identity.IdentityError)
  | notFound (path : String)
deriving DecidableEq

/-- Reads the file at `path`, whose content is `file`. -/
def readBounded (path : String) (file : Bytes) (limit : ℕ) : Except CliError Bytes := do
  let bytes := file.take (limit + 1)
  failIf (bytes.length > limit) (.message (path ++ " is larger than expected for a key file"))
  pure bytes

/-- `prompt_passphrase`: what is typed, if standard input is a terminal. -/
def promptPassphrase (answer : Option String) : Except CliError String :=
  okOr answer (.message "a passphrase is required, but standard input is not a terminal")

def promptNewPassphrase (first second : String) : Except CliError String := do
  failIf (first.length < minPassphraseLen)
    (.message ("passphrase must be at least " ++ toString minPassphraseLen ++ " characters"))
  failIf (first ≠ second) (.message "passphrases did not match")
  pure first

inductive LoadedKey where
  | identity (identity : Identity)
  | encryptionOnly (secret : RecipientSecret)
deriving DecidableEq

section
variable (K : Keyring.Primitives) (path : String)

def loadKeyAsking (file : Bytes) (answer : Option String) : Except CliError LoadedKey := do
  let bytes ← readBounded path file maxKeyFile
  match inspect bytes with
  | .raw =>
    let notAKey := CliError.message (path ++ " is not a HIDE secret key")
    failIf (bytes.length ≠ seedLen) notAKey
    -- cannot fail after the length check
    let seed ← okOr (tryInto seedLen bytes) notAKey
    pure (.identity ⟨seed⟩)
  | .protected =>
    let passphrase ← promptPassphrase answer
    let (seed, purpose) ← mapErr .keyring (unprotectSeed K bytes passphrase)
    match purpose with
    | .identity => pure (.identity ⟨seed⟩)
    | .encryption =>
      let secret ← mapErr .crypto (RecipientSecret.fromBytes seed.toList)
      pure (.encryptionOnly secret)

def loadSecretAsking (file : Bytes) (answer : Option String) :
    Except CliError RecipientSecret := do
  match ← loadKeyAsking K path file answer with
  | .identity identity => pure (identity.recipientSecret K)
  | .encryptionOnly secret => pure secret

/-- Signing needs the master seed, which an encryption-only file does not hold. -/
def loadSigningIdentityAsking (file : Bytes) (answer : Option String) :
    Except CliError SigningIdentity := do
  match ← loadKeyAsking K path file answer with
  | .identity identity =>
    mapErr .sign (SigningIdentity.fromBytes (identity.signingSeed K).toList)
  | .encryptionOnly _ =>
    .error (.message (path ++ " predates signatures and holds no signing key; " ++
      "create a new identity with `hide keygen`"))

/-! The loaders where the prompt is answered. -/

def loadKey (file : Bytes) (passphrase : String) : Except CliError LoadedKey :=
  loadKeyAsking K path file (some passphrase)

def loadSecret (file : Bytes) (passphrase : String) : Except CliError RecipientSecret :=
  loadSecretAsking K path file (some passphrase)

def loadSigningIdentity (file : Bytes) (passphrase : String) : Except CliError SigningIdentity :=
  loadSigningIdentityAsking K path file (some passphrase)

/-- `hide passwd`. Returns what replaces the file; `first` and `second` answer the two prompts
for the new passphrase. -/
def changePassphrase (file : Bytes) (current first second : String)
    (salt : Vector UInt8 saltLen) (nonce : Nonce) : Except CliError Bytes := do
  let bytes ← readBounded path file maxKeyFile
  let secret ← match inspect bytes with
    | .raw => mapErr .crypto (RecipientSecret.fromBytes bytes)
    | .protected => mapErr .keyring (unprotect K bytes current)
  let passphrase ← promptNewPassphrase first second
  mapErr .keyring (protect K secret passphrase salt nonce)

end

/-! ## Which keys survive -/

/-- A passphrase that the prompt and the keyring accept. They count its characters before and
after normalization. -/
def Acceptable (K : Keyring.Primitives) (passphrase : String) : Prop :=
  minPassphraseLen ≤ passphrase.length ∧ minPassphraseLen ≤ (K.nfc passphrase).length

/-- A protected file of version 1, or of version 2 with the encryption purpose. -/
def EncryptionOnly (file : Bytes) : Prop :=
  magic.isPrefixOf file = true ∧
    (file[8]? = some legacyVersion ∨ file[legacyHeaderLen]? = some KeyPurpose.encryption.tag)

/-- Changing the passphrase succeeds and the file it leaves holds the key that `file` held. -/
def KeyPreserved (K : Keyring.Primitives) (path : String) (file : Bytes) (current new : String)
    (salt : Vector UInt8 saltLen) (nonce : Nonce) : Prop :=
  ∃ file', changePassphrase K path file current new new salt nonce = .ok file' ∧
    loadSecret K path file' new = loadSecret K path file current ∧
    ∀ identity, loadSigningIdentity K path file current = .ok identity →
      loadSigningIdentity K path file' new = .ok identity

variable {K : Keyring.Primitives} {path : String}

theorem readBounded_eq_ok {file bytes : Bytes} {limit : ℕ}
    (h : readBounded path file limit = .ok bytes) : bytes = file ∧ file.length ≤ limit := by
  obtain ⟨_, hshort, h⟩ := bind_eq_ok.mp h
  have hle : (file.take (limit + 1)).length ≤ limit := not_lt.mp (failIf_eq_ok.mp hshort)
  have hlen : file.length ≤ limit := by
    rw [List.length_take] at hle
    omega
  refine ⟨?_, hlen⟩
  rw [pure_eq_ok.mp h, List.take_of_length_le (by omega)]

theorem readBounded_of_le {file : Bytes} {limit : ℕ} (h : file.length ≤ limit) :
    readBounded path file limit = .ok file := by
  unfold readBounded
  rw [List.take_of_length_le (by omega)]
  simp only []
  rw [failIf_neg _ (by omega)]
  rfl

theorem signingIdentity_fromBytes (seed : Key) :
    SigningIdentity.fromBytes seed.toList = .ok ⟨seed⟩ := by
  have hlen : seed.toList.length = seedLength := Vector.length_toList
  unfold SigningIdentity.fromBytes Sign.requireLength
  rw [failIf_neg _ (by rw [hlen, ne_eq, not_not]), ok_bind, tryInto_toList]
  rfl

/-! ## The three kinds of file -/

/-- A bare file that loads: its bytes are a master seed. -/
def Bare (file : Bytes) (seed : Key) : Prop := inspect file = .raw ∧ file = seed.toList

/-- A protected file whose seed is sealed for `purpose`. -/
def Sealed (K : Keyring.Primitives) (file : Bytes) (passphrase : String) (seed : Key)
    (purpose : KeyPurpose) : Prop :=
  file.length ≤ maxKeyFile ∧ inspect file = .protected ∧
    unprotectSeed K file passphrase = .ok (seed, purpose)

theorem promptPassphrase_some (passphrase : String) :
    promptPassphrase (some passphrase) = .ok passphrase := rfl

theorem loadKey_bare {file : Bytes} {seed : Key} (h : Bare file seed) (passphrase : String) :
    loadKey K path file passphrase = .ok (.identity ⟨seed⟩) := by
  obtain ⟨hraw, rfl⟩ := h
  have hlen : seed.toList.length = seedLen := Vector.length_toList
  have hinto : tryInto seedLen seed.toList = some seed := tryInto_toList seed
  unfold loadKey loadKeyAsking
  rw [readBounded_of_le (by rw [hlen]; decide), ok_bind, hraw]
  simp only []
  rw [failIf_neg _ (by rw [hlen, ne_eq, not_not]), ok_bind, hinto]
  rfl

theorem loadKey_identity {file : Bytes} {passphrase : String} {seed : Key}
    (h : Sealed K file passphrase seed .identity) :
    loadKey K path file passphrase = .ok (.identity ⟨seed⟩) := by
  obtain ⟨hlen, hprotected, hopen⟩ := h
  unfold loadKey loadKeyAsking
  rw [readBounded_of_le hlen, ok_bind, hprotected]
  simp only [promptPassphrase_some, hopen, mapErr_ok, ok_bind]
  rfl

theorem loadKey_encryption {file : Bytes} {passphrase : String} {seed : Key}
    (h : Sealed K file passphrase seed .encryption) :
    loadKey K path file passphrase = .ok (.encryptionOnly ⟨seed⟩) := by
  obtain ⟨hlen, hprotected, hopen⟩ := h
  unfold loadKey loadKeyAsking
  rw [readBounded_of_le hlen, ok_bind, hprotected]
  simp only [promptPassphrase_some, hopen, mapErr_ok, ok_bind, recipientSecret_fromBytes]
  rfl

/-- Every file that loads is one of the three. -/
theorem kind_of_loadKey {file : Bytes} {passphrase : String} {key : LoadedKey}
    (h : loadKey K path file passphrase = .ok key) :
    ∃ seed, Bare file seed ∨ ∃ purpose, Sealed K file passphrase seed purpose := by
  obtain ⟨bytes, hread, hload⟩ := bind_eq_ok.mp h
  obtain ⟨hbytes, hlen⟩ := readBounded_eq_ok hread
  subst hbytes
  cases hformat : inspect bytes with
  | raw =>
    rw [hformat] at hload
    simp only [] at hload
    obtain ⟨_, _, hload⟩ := bind_eq_ok.mp hload
    obtain ⟨seed, hseed, _⟩ := bind_eq_ok.mp hload
    exact ⟨seed, .inl ⟨hformat, tryInto_eq_some (okOr_eq_ok.mp hseed)⟩⟩
  | «protected» =>
    rw [hformat] at hload
    simp only [promptPassphrase_some, ok_bind] at hload
    obtain ⟨⟨seed, purpose⟩, hopen, _⟩ := bind_eq_ok.mp hload
    exact ⟨seed, .inr ⟨purpose, hlen, hformat, mapErr_eq_ok.mp hopen⟩⟩

/-! ## What `hide passwd` leaves of each -/

section Change
variable {file : Bytes} {seed : Key} {current new : String} {salt : Vector UInt8 saltLen}
  {nonce : Nonce}

/-- The second half of the command: whatever it opened, it seals for encryption only. -/
theorem reseal (hK : K.Correct) (seed : Key) (hnew : Acceptable K new)
    (salt : Vector UInt8 saltLen) (nonce : Nonce) :
    ∃ file', (do
        let passphrase ← promptNewPassphrase new new
        mapErr CliError.keyring (protect K ⟨seed⟩ passphrase salt nonce)) = .ok file' ∧
      Sealed K file' new seed .encryption := by
  obtain ⟨hraw, hnormal⟩ := hnew
  obtain ⟨file', hprotect, hlen, hmagic, _, _, hopen⟩ :=
    unprotectSeed_protectSeed hK seed hnormal .encryption salt nonce
  have hprompt : promptNewPassphrase new new = .ok new := by
    unfold promptNewPassphrase
    rw [failIf_neg _ (by omega), ok_bind, failIf_neg _ (not_not.mpr rfl)]
    rfl
  refine ⟨file', ?_, by rw [hlen]; decide, if_pos hmagic, hopen⟩
  rw [hprompt, ok_bind]
  exact mapErr_eq_ok.mpr hprotect

theorem changePassphrase_bare (hK : K.Correct) (h : Bare file seed) (hnew : Acceptable K new)
    (path : String) (salt : Vector UInt8 saltLen) (nonce : Nonce) :
    ∃ file', changePassphrase K path file current new new salt nonce = .ok file' ∧
      Sealed K file' new seed .encryption := by
  obtain ⟨hraw, rfl⟩ := h
  have hlen : seed.toList.length = seedLen := Vector.length_toList
  unfold changePassphrase
  rw [readBounded_of_le (by rw [hlen]; decide), ok_bind, hraw]
  simp only [recipientSecret_fromBytes, mapErr_ok, ok_bind]
  exact reseal hK seed hnew salt nonce

theorem changePassphrase_encryption (hK : K.Correct) (h : Sealed K file current seed .encryption)
    (hnew : Acceptable K new) (path : String) (salt : Vector UInt8 saltLen) (nonce : Nonce) :
    ∃ file', changePassphrase K path file current new new salt nonce = .ok file' ∧
      Sealed K file' new seed .encryption := by
  obtain ⟨hlen, hprotected, hopen⟩ := h
  have hunprotect : unprotect K file current = .ok ⟨seed⟩ := by
    unfold unprotect
    rw [hopen]
    rfl
  unfold changePassphrase
  rw [readBounded_of_le hlen, ok_bind, hprotected]
  simp only [hunprotect, mapErr_ok, ok_bind]
  exact reseal hK seed hnew salt nonce

/-- The reader of encryption-only files refuses an identity. -/
theorem changePassphrase_identity (h : Sealed K file current seed .identity) :
    changePassphrase K path file current new new salt nonce =
      .error (.keyring (.wrongPurpose .encryption .identity)) := by
  obtain ⟨hlen, hprotected, hopen⟩ := h
  unfold changePassphrase unprotect
  rw [readBounded_of_le hlen, ok_bind, hprotected]
  simp only [hopen, ok_bind]
  rfl

theorem loadSigningIdentity_of_identity {passphrase : String}
    (h : loadKey K path file passphrase = .ok (.identity ⟨seed⟩)) :
    loadSigningIdentity K path file passphrase =
      .ok ⟨(Identity.mk seed).signingSeed K⟩ := by
  unfold loadSigningIdentity loadSigningIdentityAsking
  rw [show loadKeyAsking K path file (some passphrase) = _ from h, ok_bind]
  simp only [signingIdentity_fromBytes, mapErr_ok]

theorem loadSigningIdentity_of_encryptionOnly {passphrase : String} {secret : RecipientSecret}
    {identity : SigningIdentity}
    (h : loadKey K path file passphrase = .ok (.encryptionOnly secret)) :
    loadSigningIdentity K path file passphrase ≠ .ok identity := by
  unfold loadSigningIdentity loadSigningIdentityAsking
  rw [show loadKeyAsking K path file (some passphrase) = _ from h, ok_bind]
  exact nofun

theorem loadSecret_encryption {passphrase : String}
    (h : Sealed K file passphrase seed .encryption) :
    loadSecret K path file passphrase = .ok ⟨seed⟩ := by
  unfold loadSecret loadSecretAsking
  rw [show loadKeyAsking K path file (some passphrase) = _ from loadKey_encryption h]
  rfl

theorem loadSecret_of_identity {passphrase : String} {identity : Identity}
    (h : loadKey K path file passphrase = .ok (.identity identity)) :
    loadSecret K path file passphrase = .ok (identity.recipientSecret K) := by
  unfold loadSecret loadSecretAsking
  rw [show loadKeyAsking K path file (some passphrase) = _ from h]
  rfl

/-- An encryption-only key keeps its secret, and has no signing identity to lose. -/
theorem keyPreserved_encryption (hK : K.Correct) (h : Sealed K file current seed .encryption)
    (hnew : Acceptable K new) : KeyPreserved K path file current new salt nonce := by
  obtain ⟨file', hchange, hsealed⟩ := changePassphrase_encryption hK h hnew path salt nonce
  refine ⟨file', hchange, ?_, ?_⟩
  · rw [loadSecret_encryption h, loadSecret_encryption hsealed]
  · intro identity hidentity
    exact absurd hidentity (loadSigningIdentity_of_encryptionOnly (loadKey_encryption h))

/-- The command fails on a protected identity. -/
theorem not_keyPreserved_identity (h : Sealed K file current seed .identity) :
    ¬KeyPreserved K path file current new salt nonce := by
  rintro ⟨file', hchange, _⟩
  rw [changePassphrase_identity h] at hchange
  cases hchange

/-- A bare file had a signing identity, which the sealed one has not. -/
theorem not_keyPreserved_bare (hK : K.Correct) (h : Bare file seed) (hnew : Acceptable K new) :
    ¬KeyPreserved K path file current new salt nonce := by
  rintro ⟨file', hchange, _, hsigning⟩
  obtain ⟨sealed, hseal, hsealed⟩ := changePassphrase_bare hK h hnew path salt nonce
  have hfile : file' = sealed := Except.ok.inj (hchange.symm.trans hseal)
  have hbefore : loadSigningIdentity K path file current = .ok _ :=
    loadSigningIdentity_of_identity (loadKey_bare h current)
  exact loadSigningIdentity_of_encryptionOnly (loadKey_encryption hsealed)
    (hfile ▸ hsigning _ hbefore)

end Change

theorem not_encryptionOnly_bare {file : Bytes} {seed : Key} (h : Bare file seed) :
    ¬EncryptionOnly file := by
  rintro ⟨hmagic, _⟩
  have hraw := h.1
  rw [inspect, if_pos hmagic] at hraw
  cases hraw

theorem encryptionOnly_sealed {file : Bytes} {passphrase : String} {seed : Key}
    {purpose : KeyPurpose} (h : Sealed K file passphrase seed purpose) :
    EncryptionOnly file ↔ purpose = .encryption := by
  obtain ⟨_, _, hopen⟩ := h
  rw [purpose_eq_encryption hopen, EncryptionOnly, (header_of_unprotectSeed hopen).1]
  exact and_iff_right rfl

/-- **Changing a passphrase keeps the key** exactly when the file was protected and for
encryption only: a bare file loses its identity and comes back with another encryption key, and
a protected identity is refused. -/
theorem changePassphrase_preserves_iff (K : Keyring.Primitives) (hK : K.Correct) (path : String)
    (file : Bytes) (current new : String) (salt : Vector UInt8 saltLen) (nonce : Nonce)
    (secret : RecipientSecret) (hload : loadSecret K path file current = .ok secret)
    (hnew : Acceptable K new) :
    KeyPreserved K path file current new salt nonce ↔ EncryptionOnly file := by
  have ⟨key, hkey, _⟩ := bind_eq_ok.mp hload
  have ⟨seed, hkind⟩ := kind_of_loadKey hkey
  rcases hkind with hbare | ⟨purpose, hsealed⟩
  · exact iff_of_false (not_keyPreserved_bare hK hbare hnew) (not_encryptionOnly_bare hbare)
  · rw [encryptionOnly_sealed hsealed]
    cases purpose with
    | identity => exact iff_of_false (not_keyPreserved_identity hsealed) nofun
    | encryption => exact iff_of_true (keyPreserved_encryption hK hsealed hnew) rfl

/-! ## A toy keyring -/

/-- Passphrases are their own normal form, and every derived seed is a constant of its label. -/
def toyKeyring : Keyring.Primitives where
  nfc passphrase := passphrase
  nfd passphrase := passphrase
  argon2id _ _ _ _ _ := some (Vector.replicate 32 0)
  hkdfExpand _ info := Vector.replicate 32 (UInt8.ofNat info.length)
  crypto := .toy

theorem toyKeyring_correct : toyKeyring.Correct where
  derives _ _ _ := ⟨_, rfl⟩
  opens _ _ _ seed := by
    have hseed : seed.toList.length = 32 := Vector.length_toList
    refine ⟨seed.toList ++ List.replicate 16 0, rfl, ?_, ?_⟩
    · rw [List.length_append, hseed, List.length_replicate]
      rfl
    · show (if _ then _ else _) = _
      rw [List.length_append, hseed, List.length_replicate, List.drop_left' hseed, if_pos rfl,
        List.take_left' hseed]

def toySeed : Key := Vector.replicate 32 7
def toySalt : Vector UInt8 saltLen := Vector.replicate saltLen 1
def toyNonce : Nonce := Vector.replicate 12 2

theorem acceptable_toy : Acceptable toyKeyring "another passphrase" := by
  constructor <;> decide

theorem sealed_toy (purpose : KeyPurpose) :
    ∃ file, protectSeed toyKeyring toySeed.toList "first passphrase" purpose toySalt toyNonce =
      .ok file ∧ Sealed toyKeyring file "first passphrase" toySeed purpose := by
  have hlong : minPassphraseLen ≤ (toyKeyring.nfc "first passphrase").length := by decide
  have ⟨file, hprotect, hlen, hmagic, _, _, hopen⟩ := unprotectSeed_protectSeed toyKeyring_correct
    toySeed hlong purpose toySalt toyNonce
  exact ⟨file, hprotect, by rw [hlen]; decide, if_pos hmagic, hopen⟩

/-- A key that `protect` sealed for encryption is kept. -/
theorem changePassphrase_preserves_encryption :
    ∃ file, protect toyKeyring ⟨toySeed⟩ "first passphrase" toySalt toyNonce = .ok file ∧
      loadSecret toyKeyring "key" file "first passphrase" = .ok ⟨toySeed⟩ ∧
      EncryptionOnly file ∧
      KeyPreserved toyKeyring "key" file "first passphrase" "another passphrase" toySalt
        toyNonce := by
  have ⟨file, hprotect, hsealed⟩ := sealed_toy .encryption
  have hload : loadSecret toyKeyring "key" file "first passphrase" = .ok ⟨toySeed⟩ :=
    loadSecret_encryption hsealed
  have honly := (encryptionOnly_sealed hsealed).mpr rfl
  exact ⟨file, hprotect, hload, honly, (changePassphrase_preserves_iff toyKeyring
    toyKeyring_correct "key" file "first passphrase" "another passphrase" toySalt toyNonce
    ⟨toySeed⟩ hload acceptable_toy).mpr honly⟩

/-- The two files `hide keygen` writes load, and neither survives: for the bare one the command
succeeds and leaves another encryption key and no signing key; for the protected one it fails. -/
theorem changePassphrase_loses_identity :
    toyKeyring.Correct ∧ Acceptable toyKeyring "another passphrase" ∧
    (∃ secret file', loadSecret toyKeyring "key" toySeed.toList "" = .ok secret ∧
      changePassphrase toyKeyring "key" toySeed.toList "" "another passphrase"
        "another passphrase" toySalt toyNonce = .ok file' ∧
      loadSecret toyKeyring "key" file' "another passphrase" ≠ .ok secret ∧
      ¬KeyPreserved toyKeyring "key" toySeed.toList "" "another passphrase" toySalt toyNonce) ∧
    ∃ secret file,
      protectIdentity toyKeyring toySeed "first passphrase" toySalt toyNonce = .ok file ∧
      loadSecret toyKeyring "key" file "first passphrase" = .ok secret ∧
      changePassphrase toyKeyring "key" file "first passphrase" "another passphrase"
        "another passphrase" toySalt toyNonce =
          .error (.keyring (.wrongPurpose .encryption .identity)) ∧
      ¬KeyPreserved toyKeyring "key" file "first passphrase" "another passphrase" toySalt
        toyNonce := by
  refine ⟨toyKeyring_correct, acceptable_toy, ?_, ?_⟩
  · have hbare : Bare toySeed.toList toySeed := ⟨by decide, rfl⟩
    have ⟨file', hchange, hsealed⟩ := @changePassphrase_bare _ _ _ "" _ toyKeyring_correct hbare
      acceptable_toy "key" toySalt toyNonce
    refine ⟨(Identity.mk toySeed).recipientSecret toyKeyring, file',
      loadSecret_of_identity (loadKey_bare hbare ""), hchange, ?_,
      not_keyPreserved_bare toyKeyring_correct hbare acceptable_toy⟩
    rw [loadSecret_encryption hsealed]
    decide
  · have ⟨file, hprotect, hsealed⟩ := sealed_toy .identity
    exact ⟨(Identity.mk toySeed).recipientSecret toyKeyring, file, hprotect,
      loadSecret_of_identity (loadKey_identity hsealed), changePassphrase_identity hsealed,
      not_keyPreserved_identity hsealed⟩

end HideProtocol.Cli
