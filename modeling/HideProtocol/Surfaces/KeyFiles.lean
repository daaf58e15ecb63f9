import HideProtocol.Cli.Keys
import HideProtocol.Desktop.Keys
import HideProtocol.Ffi.Boundary
import HideProtocol.Wasm.Bindings

/-!
# A key file means the same key everywhere

Five loaders read a key file for decryption and three for signing, each with its own limits and
its own treatment of missing passphrases. All of them compute one meaning: a bare file is a
master seed, a protected file is the seed it opens to, and the keys follow from the seed and
from what it is for.
-/

namespace HideProtocol.Surfaces

open Lib Crypto Keyring

section
variable (K : Keyring.Primitives)

/-- What a key file holds for someone who knows `passphrase`, or none. -/
def held (file : Bytes) (passphrase : Option String) : Option (Key × KeyPurpose) :=
  match inspect file with
  | .raw => (tryInto seedLen file).map fun seed => (seed, .identity)
  | .protected => passphrase.bind fun passphrase => (unprotectSeed K file passphrase).toOption

def recipientOf : Key × KeyPurpose → RecipientSecret
  | (seed, .identity) => (Identity.mk seed).recipientSecret K
  | (seed, .encryption) => ⟨seed⟩

/-- The signing key; a file for encryption only holds none. -/
def signerOf : Key × KeyPurpose → Option Sign.SigningIdentity
  | (seed, .identity) => some ⟨(Identity.mk seed).signingSeed K⟩
  | (_, .encryption) => none

end

variable {K : Keyring.Primitives} {file : Bytes}

/-- A length check in front of a conversion that fails on the same files. -/
theorem check_tryInto {α : Type} (f : Key → Option α) :
    ((if file.length ≠ seedLen then none else some ()).bind fun _ =>
      (tryInto seedLen file).bind f) = (tryInto seedLen file).bind f := by
  by_cases hlen : file.length = seedLen
  · rw [if_neg (not_not.mpr hlen)]
    rfl
  · have hnone : tryInto seedLen file = none := dif_neg hlen
    rw [if_pos hlen, hnone]
    rfl

/-! ## Encryption keys -/

theorem toOption_open (file : Bytes) (passphrase : Option String) :
    (Keyring.«open» K file passphrase).toOption =
      (held K file passphrase).map (recipientOf K) := by
  unfold Keyring.«open» held
  cases inspect file with
  | raw =>
    simp only [toOption_bind, toOption_failIf, toOption_okOr, toOption_pure, check_tryInto]
    cases tryInto seedLen file <;> rfl
  | «protected» =>
    simp only [toOption_bind, toOption_okOr]
    cases passphrase with
    | none => rfl
    | some passphrase =>
      simp only [Option.bind_some]
      rcases unprotectSeed K file passphrase with _ | ⟨seed, purpose⟩
      · rfl
      · cases purpose <;> rfl

/-- What the command line makes of a seed and its purpose. -/
def loadedOf : Key × KeyPurpose → Cli.LoadedKey
  | (seed, .identity) => .identity ⟨seed⟩
  | (seed, .encryption) => .encryptionOnly ⟨seed⟩

theorem toOption_loadKeyAsking (path : String) (hlen : file.length ≤ Cli.maxKeyFile)
    (answer : Option String) :
    (Cli.loadKeyAsking K path file answer).toOption = (held K file answer).map loadedOf := by
  unfold Cli.loadKeyAsking held
  rw [Cli.readBounded_of_le hlen, ok_bind]
  cases inspect file with
  | raw =>
    simp only [toOption_bind, toOption_failIf, toOption_okOr, toOption_pure, check_tryInto]
    cases tryInto seedLen file <;> rfl
  | «protected» =>
    simp only [Cli.promptPassphrase, toOption_bind, toOption_okOr, toOption_mapErr]
    cases answer with
    | none => rfl
    | some passphrase =>
      simp only [Option.bind_some]
      rcases unprotectSeed K file passphrase with _ | ⟨seed, purpose⟩
      · rfl
      · cases purpose with
        | identity => rfl
        | encryption =>
          show (mapErr Cli.CliError.crypto (RecipientSecret.fromBytes seed.toList) >>= fun secret =>
            pure (Cli.LoadedKey.encryptionOnly secret)).toOption = some (.encryptionOnly ⟨seed⟩)
          rw [recipientSecret_fromBytes, mapErr_ok, ok_bind, toOption_pure]

theorem toOption_cli_loadSecret (path : String) (hlen : file.length ≤ Cli.maxKeyFile)
    (answer : Option String) :
    (Cli.loadSecretAsking K path file answer).toOption =
      (held K file answer).map (recipientOf K) := by
  unfold Cli.loadSecretAsking
  rw [toOption_bind, toOption_loadKeyAsking path hlen]
  rcases held K file answer with _ | ⟨seed, purpose⟩
  · rfl
  · cases purpose <;> rfl

theorem toOption_desktop_loadSecret (hlen : file.length ≤ Desktop.maxKeyFile)
    (passphrase : Option String) :
    (Desktop.loadSecret K file passphrase).toOption =
      (held K file passphrase).map (recipientOf K) := by
  have hread := Desktop.readBounded_of_le hlen
  unfold Desktop.loadSecret
  rw [hread, ok_bind, toOption_bind, toOption_failIf, toOption_mapErr, toOption_open]
  -- the extra check refuses files that hold nothing without a passphrase
  by_cases hmissing : inspect file = .protected ∧ passphrase.isNone = true
  · obtain ⟨hprotected, hnone⟩ := hmissing
    have hheld : held K file passphrase = none := by
      unfold held
      rw [hprotected, Option.isNone_iff_eq_none.mp hnone]
      rfl
    rw [if_pos ⟨hprotected, hnone⟩, hheld]
    rfl
  · rw [if_neg hmissing]
    rfl

theorem toOption_ffi_secretKeyOpen (hlen : file.length ≤ Ffi.maxKeyFile)
    {passphrase : Option String} (hnul : ∀ p ∈ passphrase, '\x00' ∉ p.toList) :
    (Ffi.hideSecretKeyOpen K (some file) file.length
        (passphrase.map Ffi.CString.ofString)).toOption =
      (held K file passphrase).map (recipientOf K) := by
  unfold Ffi.hideSecretKeyOpen
  rw [Ffi.borrow_of_le hlen, Ffi.borrowStr_ofString hnul, okOr_some, ok_bind, okOr_some, ok_bind,
    toOption_mapErr, toOption_open]

theorem toOption_wasm_secretKeyLoad (hlen : file.length ≤ 4096) (passphrase : Option String) :
    (Wasm.SecretKey.load K file passphrase).toOption =
      (held K file passphrase).map (recipientOf K) := by
  unfold Wasm.SecretKey.load
  rw [failIf_neg _ (by omega), ok_bind, toOption_mapErr, toOption_open]

/-! ## Signing keys -/

theorem toOption_cli_loadSigningIdentity (path : String) (hlen : file.length ≤ Cli.maxKeyFile)
    (answer : Option String) :
    (Cli.loadSigningIdentityAsking K path file answer).toOption =
      (held K file answer).bind (signerOf K) := by
  unfold Cli.loadSigningIdentityAsking
  rw [toOption_bind, toOption_loadKeyAsking path hlen]
  rcases held K file answer with _ | ⟨seed, purpose⟩
  · rfl
  · cases purpose with
    | identity =>
      show (mapErr Cli.CliError.sign (Sign.SigningIdentity.fromBytes
        ((Identity.mk seed).signingSeed K).toList)).toOption = _
      rw [Cli.signingIdentity_fromBytes]
      rfl
    | encryption => rfl

theorem toOption_ffi_signingIdentityOpen (hlen : file.length ≤ Ffi.maxKeyFile)
    {passphrase : Option String} (hnul : ∀ p ∈ passphrase, '\x00' ∉ p.toList) :
    (Ffi.hideSigningIdentityOpen K (some file) file.length
        (passphrase.map Ffi.CString.ofString)).toOption =
      (held K file passphrase).bind (signerOf K) := by
  unfold Ffi.hideSigningIdentityOpen held
  rw [Ffi.borrow_of_le hlen, Ffi.borrowStr_ofString hnul, okOr_some, ok_bind, okOr_some, ok_bind]
  cases inspect file with
  | raw =>
    simp only [toOption_bind, toOption_failIf, toOption_okOr, toOption_pure, toOption_mapErr,
      Cli.signingIdentity_fromBytes]
    rw [check_tryInto]
    cases tryInto seedLen file <;> rfl
  | «protected» =>
    simp only [toOption_bind, toOption_okOr, toOption_mapErr, Cli.signingIdentity_fromBytes]
    cases passphrase with
    | none => rfl
    | some passphrase =>
      simp only [Option.bind_some]
      rcases unprotectSeed K file passphrase with _ | ⟨seed, purpose⟩
      · rfl
      · cases purpose <;> rfl

theorem toOption_wasm_signingIdentityLoad (hlen : file.length ≤ 4096)
    (passphrase : Option String) :
    (Wasm.SigningIdentity.load K file passphrase).toOption =
      (held K file passphrase).bind (signerOf K) := by
  unfold Wasm.SigningIdentity.load held
  rw [failIf_neg _ (by omega), ok_bind]
  cases inspect file with
  | raw =>
    simp only [toOption_bind, toOption_failIf, toOption_okOr, toOption_mapErr,
      Cli.signingIdentity_fromBytes]
    rw [check_tryInto]
    cases tryInto seedLen file <;> rfl
  | «protected» =>
    simp only [toOption_bind, toOption_okOr, toOption_mapErr, Cli.signingIdentity_fromBytes]
    cases passphrase with
    | none => rfl
    | some passphrase =>
      simp only [Option.bind_some]
      rcases unprotectSeed K file passphrase with _ | ⟨seed, purpose⟩
      · rfl
      · cases purpose <;> rfl

/-- A file holds a signing key exactly when it is a bare seed or opens to an identity. -/
theorem isSome_signer_iff (file : Bytes) (passphrase : Option String) :
    ((held K file passphrase).bind (signerOf K)).isSome = true ↔
      (inspect file = .raw ∧ file.length = seedLen) ∨
      ∃ p seed, passphrase = some p ∧ unprotectSeed K file p = .ok (seed, .identity) := by
  cases hformat : inspect file with
  | raw =>
    -- the opener refuses a file without the magic
    have hnot : ∀ p seed, unprotectSeed K file p ≠ .ok (seed, .identity) := by
      intro p seed hopen
      have hmagic := (header_of_unprotectSeed hopen).1
      rw [show inspect file = .protected from if_pos hmagic] at hformat
      cases hformat
    simp only [held, hformat]
    by_cases hlen : file.length = seedLen
    · obtain ⟨seed, rfl⟩ := exists_vector hlen
      have hinto : tryInto seedLen seed.toList = some seed := tryInto_toList seed
      simp [hinto, signerOf]
    · have hnone : tryInto seedLen file = none := dif_neg hlen
      simp [hnone, hlen, hnot]
  | «protected» =>
    simp only [held, hformat]
    cases passphrase with
    | none => simp
    | some passphrase =>
      rcases hopen : unprotectSeed K file passphrase with _ | ⟨seed, purpose⟩
      · simp [hopen, Except.toOption]
      · cases purpose <;> simp [hopen, Except.toOption, signerOf]

/-! ## Agreement -/

/-- Two spellings of one text: the same canonical decomposition. -/
def CanonicallyEquivalent (K : Keyring.Primitives) (p q : String) : Prop := K.nfd p = K.nfd q

/-- NFC composes what NFD decomposed. -/
def ComposesDecomposed (K : Keyring.Primitives) : Prop :=
  ∃ compose : String → String, ∀ s, K.nfc s = compose (K.nfd s)

/-- **A key file means the same key on every surface.** The five loaders of encryption keys fail
together or yield one secret; so do the three loaders of signing keys, which succeed on bare
seeds and on identities; and a sealed seed opens under every canonically equivalent spelling of
its passphrase. -/
theorem key_files_agree (K : Keyring.Primitives) (hK : K.Correct) (hnfc : ComposesDecomposed K) :
    (∀ path file passphrase, file.length ≤ 4096 →
      (∀ p, passphrase = some p → '\x00' ∉ p.toList) →
      let secret := (Keyring.«open» K file passphrase).toOption
      (Cli.loadSecretAsking K path file passphrase).toOption = secret ∧
      (Desktop.loadSecret K file passphrase).toOption = secret ∧
      (Ffi.hideSecretKeyOpen K (some file) file.length
        (passphrase.map Ffi.CString.ofString)).toOption = secret ∧
      (Wasm.SecretKey.load K file passphrase).toOption = secret) ∧
    (∀ path file passphrase, file.length ≤ 4096 →
      (∀ p, passphrase = some p → '\x00' ∉ p.toList) →
      let identity := (Cli.loadSigningIdentityAsking K path file passphrase).toOption
      (Ffi.hideSigningIdentityOpen K (some file) file.length
        (passphrase.map Ffi.CString.ofString)).toOption = identity ∧
      (Wasm.SigningIdentity.load K file passphrase).toOption = identity ∧
      (identity.isSome = true ↔ (inspect file = .raw ∧ file.length = seedLen) ∨
        ∃ p seed, passphrase = some p ∧ unprotectSeed K file p = .ok (seed, .identity))) ∧
    (∀ (seed : Key) p q purpose salt nonce, minPassphraseLen ≤ (K.nfc p).length →
      CanonicallyEquivalent K p q →
      ∃ file, protectSeed K seed.toList p purpose salt nonce = .ok file ∧
        unprotectSeed K file q = .ok (seed, purpose)) := by
  refine ⟨?_, ?_, ?_⟩
  · intro path file passphrase hlen hnul secret
    have hsecret : secret = (held K file passphrase).map (recipientOf K) :=
      toOption_open file passphrase
    rw [hsecret]
    exact ⟨toOption_cli_loadSecret path hlen passphrase,
      toOption_desktop_loadSecret hlen passphrase, toOption_ffi_secretKeyOpen hlen hnul,
      toOption_wasm_secretKeyLoad hlen passphrase⟩
  · intro path file passphrase hlen hnul identity
    have hidentity : identity = (held K file passphrase).bind (signerOf K) :=
      toOption_cli_loadSigningIdentity path hlen passphrase
    rw [hidentity]
    exact ⟨toOption_ffi_signingIdentityOpen hlen hnul,
      toOption_wasm_signingIdentityLoad hlen passphrase, isSome_signer_iff file passphrase⟩
  · intro seed p q purpose salt nonce hlong hequiv
    obtain ⟨compose, hcompose⟩ := hnfc
    have hsame : K.nfc q = K.nfc p := by
      rw [hcompose, hcompose, show K.nfd p = K.nfd q from hequiv]
    obtain ⟨file, hprotect, _, _, _, _, hopen⟩ :=
      unprotectSeed_of_nfc_eq hK seed hlong hsame purpose salt nonce
    exact ⟨file, hprotect, hopen⟩

/-- A protected identity of the toy keyring, opened by all of them. -/
theorem key_files_agree_identity :
    ∃ file, protectSeed Cli.toyKeyring Cli.toySeed.toList "first passphrase" .identity
        Cli.toySalt Cli.toyNonce = .ok file ∧
      (Wasm.SecretKey.load Cli.toyKeyring file (some "first passphrase")).toOption =
        (Keyring.«open» Cli.toyKeyring file (some "first passphrase")).toOption ∧
      (Cli.loadSigningIdentityAsking Cli.toyKeyring "key" file
        (some "first passphrase")).toOption.isSome = true := by
  have ⟨file, hprotect, hlen, _, hopen⟩ := Cli.sealed_toy .identity
  have hnul : ∀ p, some "first passphrase" = some p → '\x00' ∉ p.toList := by
    intro p hp
    rw [← Option.some.inj hp]
    decide
  have ⟨hsecrets, hsigners, _⟩ := key_files_agree Cli.toyKeyring Cli.toyKeyring_correct
    ⟨id, fun _ => rfl⟩
  have ⟨_, _, _, hwasm⟩ := hsecrets "key" file (some "first passphrase") hlen hnul
  have ⟨_, _, hsome⟩ := hsigners "key" file (some "first passphrase") hlen hnul
  exact ⟨file, hprotect, hwasm, hsome.mpr (Or.inr ⟨_, _, rfl, hopen⟩)⟩

end HideProtocol.Surfaces
