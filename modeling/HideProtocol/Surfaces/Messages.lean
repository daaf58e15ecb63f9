import HideProtocol.Cli.Messages
import HideProtocol.Desktop.Messages
import HideProtocol.Surfaces.KeyFiles
import HideProtocol.Surfaces.RoundTrips

/-!
# Messages from one surface to the other

The desktop application and the command line write the same armor and read it the same way. They
limit different things: the application the message it seals, the command line the text it reads,
and both limits are 1 MiB. Base64 makes the text a third longer than the message, so the limits
are not the same one.
-/

namespace HideProtocol.Surfaces

open Lib Format Crypto Sign Object

/-! ## The armor -/

/-- The length of the text around a container of `n` bytes. -/
def armoredLen (n : ℕ) : ℕ :=
  let body := (n + 2) / 3 * 4
  Cli.messageHeader.length + body + (body + 76 - 1) / 76 + Cli.messageFooter.length + 2

theorem lt_armoredLen (n : ℕ) : n < armoredLen n := by
  simp only [armoredLen]
  omega

theorem oneLine_messageHeader : OneLine Cli.messageHeader := by
  constructor <;> decide

theorem oneLine_messageFooter : OneLine Cli.messageFooter := by
  constructor <;> decide

/-- No character of base64 is white space. -/
theorem plain_of_printable {c : Char} (h : Base64.Printable c) : isWhitespace c = false := by
  obtain ⟨hlow, hhigh⟩ := h
  unfold isWhitespace
  simp only [List.mem_cons, List.not_mem_nil, or_false, Bool.or_eq_false_iff,
    Bool.and_eq_false_iff, decide_eq_false_iff_not]
  omega

/-- The footer has spaces, and base64 has none. -/
theorem dearmor_encode (container : Bytes) :
    dearmor Cli.messageHeader Cli.messageFooter (Cli.armorMessage container) =
      Base64.encode container := by
  have hprintable := Base64.printable_encode container
  have hspace : ' ' ∉ Base64.encode container := by
    intro hmem
    exact absurd (hprintable _ hmem).1 (by decide)
  exact dearmor_armor (by decide) oneLine_messageHeader oneLine_messageFooter
    (fun c hc => plain_of_printable (hprintable c hc)) (show ' ' ∈ Cli.messageFooter by decide)
    hspace

theorem ascii_of_all {text : Text} (h : text.all (fun c => c.toNat < 0x80) = true) :
    ∀ c ∈ text, c.toNat < 0x80 := by
  intro c hc
  exact of_decide_eq_true (List.all_eq_true.mp h c hc)

theorem length_armorMessage (container : Bytes) :
    (textBytes (Cli.armorMessage container)).length = armoredLen container.length := by
  have hascii : ∀ c ∈ Cli.armorMessage container, c.toNat < 0x80 := by
    apply ascii_armor
    · exact ascii_of_all (by decide)
    · exact ascii_of_all (by decide)
    · intro c hc
      have hprintable := Base64.printable_encode container c hc
      exact hprintable.2.trans_lt (by decide)
  rw [length_textBytes_ascii hascii]
  unfold Cli.armorMessage armoredLen
  rw [length_armor (by decide), Base64.length_encode]

theorem encode_ne_nil {container : Bytes} (h : container ≠ []) :
    Base64.encode container ≠ [] := by
  have hlen := Base64.length_encode container
  have hpos := List.length_pos_iff.mpr h
  intro hnil
  rw [hnil, List.length_nil] at hlen
  omega

/-! ## Reading -/

section
variable {P : Crypto.Primitives} {S : Sign.Primitives} {K : Keyring.Primitives}
  {container keyFile : Bytes} {path message : String} {passphrase : Option String}
  {secret : RecipientSecret}

theorem readArmoredMessage_of_le {text : Text}
    (h : (textBytes text).length ≤ Cli.maxArmoredMessage) :
    Cli.readArmoredMessage (textBytes text) = .ok text := by
  unfold Cli.readArmoredMessage
  rw [List.take_of_length_le (h.trans (Nat.le_succ _))]
  simp only []
  rw [failIf_neg _ (not_lt.mpr h), ok_bind, textFromUtf8_textBytes, okOr_some]

theorem readArmoredMessage_of_lt {text : Text}
    (h : Cli.maxArmoredMessage < (textBytes text).length) :
    Cli.readArmoredMessage (textBytes text) =
      .error (.message "that armored message is larger than 1 MiB; use `open` instead") := by
  have htake : ((textBytes text).take (Cli.maxArmoredMessage + 1)).length =
      Cli.maxArmoredMessage + 1 := by
    rw [List.length_take]
    omega
  unfold Cli.readArmoredMessage
  simp only []
  rw [failIf_pos _ (by rw [htake]; exact Nat.lt_succ_self _)]
  rfl

/-- The core reads `message` in `container`. -/
def Holds (P : Crypto.Primitives) (S : Sign.Primitives) (container : Bytes)
    (secret : RecipientSecret) (message : String) : Prop :=
  container ≠ [] ∧ ∃ verified, decryptToStaging P S container secret =
    { staging := utf8 message, result := .ok verified }

/-- The desktop application reads the text at any length. -/
theorem desktop_unseals (hload : Desktop.loadSecret K keyFile passphrase = .ok secret)
    (h : Holds P S container secret message) :
    Desktop.unsealMessage P S K (Cli.armorMessage container) keyFile passphrase =
      .ok message := by
  obtain ⟨hne, verified, hread⟩ := h
  have hbody : dearmor Desktop.messageHeader Desktop.messageFooter (Cli.armorMessage container) =
      Base64.encode container := dearmor_encode container
  unfold Desktop.unsealMessage
  simp only [hbody]
  rw [failIf_neg _ (encode_ne_nil hne), ok_bind, Base64.decode_encode, okOr_some, ok_bind, hload,
    ok_bind]
  simp only [hread, mapErr_ok, ok_bind, fromUtf8_utf8, okOr_some]

theorem cli_unseals_of_lt (h : Cli.maxArmoredMessage < armoredLen container.length) :
    Cli.unsealMessage P S K (textBytes (Cli.armorMessage container)) path keyFile passphrase =
      .error (.cli (.message "that armored message is larger than 1 MiB; use `open` instead")) := by
  unfold Cli.unsealMessage
  rw [readArmoredMessage_of_lt (by rw [length_armorMessage]; exact h)]
  rfl

/-- The command line reads the text if it is not too long. -/
theorem cli_unseals_iff (hload : Cli.loadSecretAsking K path keyFile passphrase = .ok secret)
    (h : Holds P S container secret message) :
    Cli.unsealMessage P S K (textBytes (Cli.armorMessage container)) path keyFile passphrase =
      .ok message ↔ armoredLen container.length ≤ Cli.maxArmoredMessage := by
  obtain ⟨hne, verified, hread⟩ := h
  have hlen := length_armorMessage container
  by_cases hle : armoredLen container.length ≤ Cli.maxArmoredMessage
  · refine iff_of_true ?_ hle
    have hdearmor : Cli.dearmorMessage (Cli.armorMessage container) = .ok container := by
      unfold Cli.dearmorMessage
      simp only [dearmor_encode]
      rw [failIf_neg _ (encode_ne_nil hne), ok_bind, Base64.decode_encode, okOr_some]
    unfold Cli.unsealMessage
    rw [readArmoredMessage_of_le (by rw [hlen]; exact hle), mapErr_ok, ok_bind, hdearmor, mapErr_ok,
      ok_bind, hload, mapErr_ok, ok_bind]
    simp only [hread, mapErr_ok, ok_bind, fromUtf8_utf8, okOr_some]
  · refine iff_of_false ?_ hle
    rw [cli_unseals_of_lt (not_le.mp hle)]
    intro hok
    cases hok

/-- A key file the command line loads, the application loads as well. -/
theorem desktop_loads (h : Cli.loadSecretAsking K path keyFile passphrase = .ok secret) :
    Desktop.loadSecret K keyFile passphrase = .ok secret := by
  have hlen : keyFile.length ≤ Cli.maxKeyFile := by
    obtain ⟨_, hkey, -⟩ := bind_eq_ok.mp h
    obtain ⟨_, hread, -⟩ := bind_eq_ok.mp hkey
    exact (Cli.readBounded_eq_ok hread).2
  rw [← toOption_eq_some, toOption_desktop_loadSecret hlen,
    ← toOption_cli_loadSecret path hlen passphrase, toOption_eq_some]
  exact h

end

/-! ## Sealing -/

section
variable {P : Crypto.Primitives} {S : Sign.Primitives} {K : Keyring.Primitives}
  {accepts : Vector UInt8 publicKeyLength → Bool} {message : String} {material : ObjectMaterial}
  {seeds : ℕ → Key} {loaded : List RecipientPublic} {text : Text}

/-- The run both surfaces make. -/
def messageRun (P : Crypto.Primitives) (S : Sign.Primitives) (message : String)
    (loaded : List RecipientPublic) (material : ObjectMaterial) (seeds : ℕ → Key) :
    ObjectEncryption :=
  surfaceRun P S (utf8 message) (loaded.map RecipientPublic.key) none (some "text/plain") material
    seeds

theorem messageRun_eq (P : Crypto.Primitives) (S : Sign.Primitives) :
    messageRun P S message loaded material seeds =
      encrypt P S (Reader.ofBytes (utf8 message)) (withSeeds seeds loaded)
        { mediaType := some "text/plain" } material := by
  have hkeys : (loaded.map RecipientPublic.key).map RecipientPublic.mk = loaded := by
    rw [List.map_map]
    exact List.map_id loaded
  unfold messageRun surfaceRun
  rw [hkeys]

/-- What a surface has sealed: the armor of a successful run. -/
def SealedRun (run : ObjectEncryption) (text : Text) : Prop :=
  (∃ n, run.result = .ok n) ∧ text = Cli.armorMessage run.output

theorem desktop_seals {recipients : List Bytes}
    (h : Desktop.sealMessage P S accepts message recipients material seeds = .ok text)
    (hloaded : recipients.mapM (Desktop.loadPublic accepts) = .ok loaded) :
    SealedRun (messageRun P S message loaded material seeds) text := by
  obtain ⟨_, -, h⟩ := bind_eq_ok.mp h
  obtain ⟨_, -, h⟩ := bind_eq_ok.mp h
  obtain ⟨_, -, h⟩ := bind_eq_ok.mp h
  rw [hloaded, ok_bind] at h
  obtain ⟨n, hrun, h⟩ := bind_eq_ok.mp h
  rw [messageRun_eq]
  exact ⟨⟨n, mapErr_eq_ok.mp hrun⟩, pure_eq_ok.mp h⟩

theorem cli_seals {recipients : List (String × Bytes)}
    (h : Cli.sealMessage P S accepts message recipients material seeds = .ok text)
    (hloaded : Cli.loadRecipients accepts recipients = .ok loaded) :
    SealedRun (messageRun P S message loaded material seeds) text := by
  unfold Cli.sealMessage at h
  rw [hloaded, mapErr_ok, ok_bind] at h
  obtain ⟨_, -, h⟩ := bind_eq_ok.mp h
  obtain ⟨n, hrun, h⟩ := bind_eq_ok.mp h
  rw [messageRun_eq]
  exact ⟨⟨n, mapErr_eq_ok.mp hrun⟩, pure_eq_ok.mp h⟩

/-! ## From one to the other -/

/-- The bytes of armored text that hold `message` for so many recipients. -/
def sealedLen (recipients : ℕ) (message : String) : ℕ :=
  armoredLen (containerLen recipients (metadataLen none (some (utf8 "text/plain")))
    (utf8 message).length)

/-- Both surfaces read `message` in `text`, with the key in `keyFile`. -/
def OpensEverywhere (P : Crypto.Primitives) (S : Sign.Primitives) (K : Keyring.Primitives)
    (text : Text) (path : String) (keyFile : Bytes) (passphrase : Option String)
    (message : String) : Prop :=
  Cli.unsealMessage P S K (textBytes text) path keyFile passphrase = .ok message ∧
    Desktop.unsealMessage P S K text keyFile passphrase = .ok message

variable {secret : RecipientSecret} {keyFile : Bytes} {path : String}
  {passphrase : Option String}

/-- What is assumed of HPKE for the run of a message. -/
def MessageSeparates (P : Crypto.Primitives) (S : Sign.Primitives) (secret : RecipientSecret)
    (message : String) (loaded : List RecipientPublic) (material : ObjectMaterial)
    (seeds : ℕ → Key) : Prop :=
  RunSeparates P S secret (utf8 message) (loaded.map RecipientPublic.key) none
    (some "text/plain") material seeds

theorem length_messageRun {n : ℕ} (hP : AeadCorrect P)
    (hok : (messageRun P S message loaded material seeds).result = .ok n) :
    (messageRun P S message loaded material seeds).output.length =
      containerLen loaded.length (metadataLen none (some (utf8 "text/plain")))
        (utf8 message).length := by
  have hlen := length_surfaceRun hP hok
  rw [List.length_map] at hlen
  exact hlen

theorem holds_messageRun {n : ℕ} (hP : AeadCorrect P) (hS : S.Correct)
    (hok : (messageRun P S message loaded material seeds).result = .ok n)
    (hlisted : secret.publicKey P ∈ loaded)
    (hpke : MessageSeparates P S secret message loaded material seeds) :
    Holds P S (messageRun P S message loaded material seeds).output secret message := by
  obtain ⟨verified, hread, -⟩ := readsBack_surfaceRun hP hS hok
    (List.mem_map_of_mem hlisted) hpke
  refine ⟨?_, verified, hread⟩
  have hlen := length_messageRun hP hok
  intro hnil
  rw [hnil, List.length_nil] at hlen
  exact Nat.not_lt_zero _ ((lt_containerLen _ _ _).trans_eq hlen.symm)

theorem opensEverywhere_iff (hP : AeadCorrect P) (hS : S.Correct)
    (hload : Cli.loadSecretAsking K path keyFile passphrase = .ok secret)
    (hsealed : SealedRun (messageRun P S message loaded material seeds) text)
    (hlisted : secret.publicKey P ∈ loaded)
    (hpke : MessageSeparates P S secret message loaded material seeds) :
    OpensEverywhere P S K text path keyFile passphrase message ↔
      sealedLen loaded.length message ≤ Cli.maxArmoredMessage := by
  obtain ⟨⟨n, hok⟩, rfl⟩ := hsealed
  have hholds := holds_messageRun hP hS hok hlisted hpke
  have hdesktop := desktop_unseals (desktop_loads hload) hholds
  have hcli := cli_unseals_iff hload hholds
  rw [length_messageRun hP hok] at hcli
  unfold OpensEverywhere
  rw [and_iff_left hdesktop]
  exact hcli

/-- **A message opens everywhere as long as its text fits into 1 MiB.** What either surface seals,
the application opens; the command line opens it exactly when the text is no longer than the
command line reads. -/
theorem messages_open_everywhere_iff (hP : AeadCorrect P) (hS : S.Correct)
    (accepts : Vector UInt8 publicKeyLength → Bool)
    (hload : Cli.loadSecretAsking K path keyFile passphrase = .ok secret) :
    (∀ message recipients material seeds text loaded,
      Desktop.sealMessage P S accepts message recipients material seeds = .ok text →
      recipients.mapM (Desktop.loadPublic accepts) = .ok loaded →
      secret.publicKey P ∈ loaded →
      MessageSeparates P S secret message loaded material seeds →
      (OpensEverywhere P S K text path keyFile passphrase message ↔
        sealedLen recipients.length message ≤ Cli.maxArmoredMessage)) ∧
    (∀ message recipients material seeds text loaded,
      Cli.sealMessage P S accepts message recipients material seeds = .ok text →
      Cli.loadRecipients accepts recipients = .ok loaded →
      secret.publicKey P ∈ loaded →
      MessageSeparates P S secret message loaded material seeds →
      (OpensEverywhere P S K text path keyFile passphrase message ↔
        sealedLen recipients.length message ≤ Cli.maxArmoredMessage)) := by
  constructor
  · intro message recipients material seeds text loaded hseal hloaded hlisted hpke
    have hlen : recipients.length = loaded.length := (forall₂_of_mapM hloaded).length_eq
    rw [hlen]
    exact opensEverywhere_iff hP hS hload (desktop_seals hseal hloaded) hlisted hpke
  · intro message recipients material seeds text loaded hseal hloaded hlisted hpke
    obtain ⟨_, -, hmap⟩ := bind_eq_ok.mp hloaded
    have hlen : recipients.length = loaded.length := (forall₂_of_mapM hmap).length_eq
    rw [hlen]
    exact opensEverywhere_iff hP hS hload (cli_seals hseal hloaded) hlisted hpke

end

/-! ## One recipient, in the toy instance -/

section Toy

/-- A message of `n` bytes. -/
def sampleMessage (n : ℕ) : String := String.ofList (List.replicate n 'a')

theorem length_sampleMessage (n : ℕ) : (utf8 (sampleMessage n)).length = n :=
  length_sampleAudience n

theorem plain_valid : ({ mediaType := some "text/plain" } : Metadata).Valid true where
  extensions := ⟨Nat.zero_le _, trivial⟩
  filename := by simp
  mediaType := by decide
  signature := by simp [Metadata.slot]

theorem plain_room :
    ({ mediaType := some "text/plain" } : Metadata).encodedLen + 6000 ≤ maxMetadataLen := by
  decide

def sampleMessageRun (message : String) : ObjectEncryption :=
  messageRun Crypto.Primitives.toy Sign.Primitives.toy message [⟨sampleKey⟩] sampleMaterial
    fun _ => sampleSeed

theorem sampleMessageRun_result {message : String}
    (h : (utf8 message).length ≤ Desktop.maxMessageLen) :
    (sampleMessageRun message).result = .ok (utf8 message).length := by
  have hfits : (utf8 message).length ≤ maxSignedInput := h.trans (by decide)
  unfold sampleMessageRun
  rw [messageRun_eq]
  exact toy_encryptFor sampleSecret sampleMaterial sampleSeed none (utf8 message) plain_valid
    plain_room hfits

theorem sampleMessage_separates (message : String) :
    MessageSeparates Crypto.Primitives.toy Sign.Primitives.toy sampleSecret message [⟨sampleKey⟩]
      sampleMaterial fun _ => sampleSeed := by
  unfold MessageSeparates RunSeparates
  exact toy_separates sampleSecret sampleMaterial sampleSeed _ _ _ _

/-- The key does not start like the marker of pasted keys. -/
theorem head_sampleKey : sampleKey.toList.head? ≠ some 0x68 := by
  unfold sampleKey
  rw [toyPublic_toList]
  decide

theorem desktop_loads_sampleKey :
    [sampleKey.toList].mapM (Desktop.loadPublic fun _ => true) = .ok [⟨sampleKey⟩] := by
  have hload : Desktop.loadPublic (fun _ => true) sampleKey.toList = .ok ⟨sampleKey⟩ :=
    Desktop.loadPublic_toyPublic (by decide)
  rw [List.mapM_cons, hload, List.mapM_nil]
  rfl

theorem cli_loads_sampleKey :
    Cli.loadRecipients (fun _ => true) [("key", sampleKey.toList)] = .ok [⟨sampleKey⟩] := by
  have hlen : sampleKey.toList.length = publicKeyLength := CAbi.length_publicKey sampleKey
  have hread : Cli.readBounded "key" sampleKey.toList Cli.maxKeyFile = .ok sampleKey.toList := by
    apply Cli.readBounded_of_le
    rw [hlen]
    decide
  have hload : Cli.loadRecipient (fun _ => true) "key" sampleKey.toList = .ok ⟨sampleKey⟩ := by
    unfold Cli.loadRecipient
    rw [hread, ok_bind, Keyring.publicBytes_of_head head_sampleKey, ok_bind,
      failIf_neg _ (not_not.mpr hlen), ok_bind]
    exact mapErr_eq_ok.mpr (fromBytes_toyPublic _)
  unfold Cli.loadRecipients
  rw [failIf_neg _ (by simp), ok_bind]
  simp only [List.mapM_cons, hload, List.mapM_nil, ok_bind]
  rfl

/-- Both surfaces seal every message the application has room for. -/
theorem sample_seals {message : String} (hne : utf8 message ≠ [])
    (hle : (utf8 message).length ≤ Desktop.maxMessageLen) :
    Desktop.sealMessage Crypto.Primitives.toy Sign.Primitives.toy (fun _ => true) message
        [sampleKey.toList] sampleMaterial (fun _ => sampleSeed) =
      .ok (Cli.armorMessage (sampleMessageRun message).output) ∧
    Cli.sealMessage Crypto.Primitives.toy Sign.Primitives.toy (fun _ => true) message
        [("key", sampleKey.toList)] sampleMaterial (fun _ => sampleSeed) =
      .ok (Cli.armorMessage (sampleMessageRun message).output) := by
  have hrun := sampleMessageRun_result hle
  unfold sampleMessageRun at hrun ⊢
  rw [messageRun_eq] at hrun ⊢
  constructor
  · unfold Desktop.sealMessage
    rw [failIf_neg _ hne, ok_bind, failIf_neg _ (not_lt.mpr hle), ok_bind, failIf_neg _ (by simp),
      ok_bind, desktop_loads_sampleKey, ok_bind]
    simp only [hrun, mapErr_ok, ok_bind]
    rfl
  · unfold Cli.sealMessage
    rw [cli_loads_sampleKey, mapErr_ok, ok_bind, failIf_neg _ hne, ok_bind]
    simp only [hrun, mapErr_ok, ok_bind]
    rfl

/-- A key file the sample recipient protected. -/
theorem sample_loads :
    ∃ keyFile, Cli.loadSecretAsking Cli.toyKeyring "key" keyFile (some "first passphrase") =
      .ok sampleSecret := by
  obtain ⟨keyFile, -, hlen, hprotected, hopen⟩ := Cli.sealed_toy .encryption
  refine ⟨keyFile, ?_⟩
  have hheld : held Cli.toyKeyring keyFile (some "first passphrase") =
      some (Cli.toySeed, .encryption) := by
    unfold held
    rw [hprotected]
    show (Keyring.unprotectSeed Cli.toyKeyring keyFile "first passphrase").toOption = _
    rw [hopen]
    rfl
  rw [← toOption_eq_some, toOption_cli_loadSecret "key" hlen, hheld]
  rfl

/-- A message of three bytes, from the application to both surfaces. -/
theorem messages_open_three_bytes :
    ∃ keyFile text, Desktop.sealMessage Crypto.Primitives.toy Sign.Primitives.toy (fun _ => true)
        (sampleMessage 3) [sampleKey.toList] sampleMaterial (fun _ => sampleSeed) = .ok text ∧
      OpensEverywhere Crypto.Primitives.toy Sign.Primitives.toy Cli.toyKeyring text "key" keyFile
        (some "first passphrase") (sampleMessage 3) := by
  obtain ⟨keyFile, hload⟩ := sample_loads
  have hlen := length_sampleMessage 3
  have hne : utf8 (sampleMessage 3) ≠ [] := by
    rw [← List.length_pos_iff, hlen]
    decide
  obtain ⟨hseal, -⟩ := sample_seals hne (by rw [hlen]; decide)
  refine ⟨keyFile, _, hseal, ((messages_open_everywhere_iff toy_aeadCorrect
    Sign.Primitives.toy_correct (fun _ => true) hload).1 _ _ _ _ _ _ hseal desktop_loads_sampleKey
    (List.mem_singleton.mpr rfl) (sampleMessage_separates _)).mpr ?_⟩
  unfold sealedLen
  rw [hlen]
  decide

/-- The longest message the application seals: the application opens it, and the command line,
which seals it to the same text, does not. -/
theorem messages_too_long_for_cli :
    ∃ keyFile text, Cli.loadSecretAsking Cli.toyKeyring "key" keyFile (some "first passphrase") =
        .ok sampleSecret ∧
      Desktop.sealMessage Crypto.Primitives.toy Sign.Primitives.toy (fun _ => true)
        (sampleMessage Desktop.maxMessageLen) [sampleKey.toList] sampleMaterial
        (fun _ => sampleSeed) = .ok text ∧
      Cli.sealMessage Crypto.Primitives.toy Sign.Primitives.toy (fun _ => true)
        (sampleMessage Desktop.maxMessageLen) [("key", sampleKey.toList)] sampleMaterial
        (fun _ => sampleSeed) = .ok text ∧
      Desktop.unsealMessage Crypto.Primitives.toy Sign.Primitives.toy Cli.toyKeyring text keyFile
        (some "first passphrase") = .ok (sampleMessage Desktop.maxMessageLen) ∧
      Cli.unsealMessage Crypto.Primitives.toy Sign.Primitives.toy Cli.toyKeyring (textBytes text)
        "key" keyFile (some "first passphrase") =
          .error (.cli (.message "that armored message is larger than 1 MiB; use `open` instead")) := by
  obtain ⟨keyFile, hload⟩ := sample_loads
  have hlen := length_sampleMessage Desktop.maxMessageLen
  have hne : utf8 (sampleMessage Desktop.maxMessageLen) ≠ [] := by
    rw [← List.length_pos_iff, hlen]
    decide
  have hrun := sampleMessageRun_result hlen.le
  obtain ⟨hdesktop, hcli⟩ := sample_seals hne hlen.le
  have hholds := holds_messageRun toy_aeadCorrect Sign.Primitives.toy_correct hrun
    (List.mem_singleton.mpr rfl) (sampleMessage_separates _)
  refine ⟨keyFile, _, hload, hdesktop, hcli, desktop_unseals (desktop_loads hload) hholds,
    cli_unseals_of_lt ?_⟩
  calc Cli.maxArmoredMessage
      = (utf8 (sampleMessage Desktop.maxMessageLen)).length := by rw [hlen]; decide
    _ < containerLen 1 _ _ := lt_containerLen 1 _ _
    _ = (sampleMessageRun (sampleMessage Desktop.maxMessageLen)).output.length :=
        (length_messageRun toy_aeadCorrect hrun).symm
    _ < armoredLen _ := lt_armoredLen _

end Toy

end HideProtocol.Surfaces
