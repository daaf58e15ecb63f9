import HideProtocol.Cli.EpochRaces
import HideProtocol.Identity.Codec
import HideProtocol.Identity.Local

/-!
# Histories that grow too large to read

Identity logs and epoch histories are appended to in place. Their crates bound the number of
entries, but the command line reads such a file only up to 16 MiB and writes it at any size. An
entry of a log takes more than 3 KiB and a record of a history more than 1 KiB, so both files pass
the limit long before the number of entries does, and no command accepts them from then on.
-/

namespace HideProtocol.Cli

open Lib Crypto Keyring Epoch Sign

/-! ## Commands on an identity log -/

def maxSigningKeyFile : ℕ := 8192

/-- A file that is given to a command, with its path for messages. -/
structure GivenFile where
  path : String
  content : Bytes

section
variable (K : Keyring.Primitives) (P : Sign.Primitives)

def loadVerifyingIdentity (file : GivenFile) : Except CliError (VerifyingIdentity P) := do
  let bytes ← readBounded file.path file.content maxSigningKeyFile
  failIf (bytes.length ≠ verifyingKeyLength)
    (.message (file.path ++ " is not a HIDE signing public key (" ++ toString bytes.length ++
      " bytes, expected " ++ toString verifyingKeyLength ++ ")"))
  mapErr .sign (VerifyingIdentity.fromBytes P bytes)

def loadIdentityLog (log recovery : GivenFile) :
    Except CliError (Identity.IdentityLog P × VerifyingIdentity P) := do
  let recoveryKey ← loadVerifyingIdentity P recovery
  let bytes ← readBounded log.path log.content maxLogFile
  let entries ← mapErr .identity (Identity.decode bytes)
  -- verify before trusting, exactly as a stranger would
  let _ ← mapErr .identity (Identity.IdentityLog.verify K.crypto.sha256 entries recoveryKey)
  let log ← mapErr .identity (Identity.IdentityLog.fromEntries K.crypto.sha256 entries recoveryKey)
  pure (log, recoveryKey)

/-- Enrols a device. Returns what replaces the log; `passphrase` answers the prompt for the secret
key. -/
def identityEnrol (log secret device : GivenFile) (label : String) (recovery : GivenFile)
    (passphrase : String) : Except CliError Bytes := do
  let (loaded, _) ← loadIdentityLog K P log recovery
  let author ← loadSigningIdentity K secret.path secret.content passphrase
  let newDevice ← loadVerifyingIdentity P device
  let (loaded, _) ← mapErr .identity (loaded.enrol K.crypto.sha256 author newDevice label)
  pure (Identity.encode loaded.entries)

/-- Revokes a device. -/
def identityRevoke (log secret device recovery : GivenFile) (passphrase : String) :
    Except CliError Bytes := do
  let (loaded, _) ← loadIdentityLog K P log recovery
  let author ← loadSigningIdentity K secret.path secret.content passphrase
  let target ← loadVerifyingIdentity P device
  let (loaded, _) ← mapErr .identity
    (loaded.revoke K.crypto.sha256 author (Identity.deviceId K.crypto.sha256 target))
  pure (Identity.encode loaded.entries)

end

/-! ## Sizes -/

/-- The size of a log entry, from its position and the lengths of its payload and its label. -/
def entryLen (position payload label : ℕ) : ℕ :=
  1 + Cbor.headLen position + 1 + (Cbor.headLen payload + payload) + (Cbor.headLen label + label) +
    34 + 34 + 3376

theorem length_encodeEntry {framing : Identity.Framing} {entry : Identity.Entry}
    (h : entry.signature.length = signatureLength) :
    (Identity.encodeEntry framing entry).length = entryLen entry.sequence.toNat
      entry.event.payload.length (utf8 entry.event.labelItem).length := by
  have hheader : Cbor.headLen framing.header = 1 := by
    cases framing <;> rfl
  have htag : Cbor.headLen entry.event.tag.toNat = 1 := by
    cases entry.event <;> rfl
  have hdigest : Cbor.headLen 32 = 2 := rfl
  have hsignature : Cbor.headLen signatureLength + signatureLength = 3376 := rfl
  simp only [Identity.encodeEntry, Cbor.array, Cbor.uint, Cbor.bytes, Cbor.str, List.length_append,
    Cbor.length_head, Vector.length_toList, h, hheader, htag, hdigest, entryLen]
  omega

/-- The two framings of a log are equally long. -/
theorem length_encodeFramed {framing : Identity.Framing} {entries : List Identity.Entry}
    (h : ∀ entry ∈ entries, entry.WellSized) :
    (Identity.encodeFramed entries framing).length = (Identity.encode entries).length := by
  unfold Identity.encode Identity.encodeFramed
  rw [List.length_append, List.length_append, List.length_flatMap, List.length_flatMap]
  congr 2
  apply List.map_congr_left
  intro entry hentry
  rw [length_encodeEntry (h entry hentry).2, length_encodeEntry (h entry hentry).2]

/-- One more entry, and a longer count in front. -/
theorem length_encode_append {entries : List Identity.Entry} {entry : Identity.Entry}
    (h : entry.signature.length = signatureLength) :
    (Identity.encode (entries ++ [entry])).length + Cbor.headLen entries.length =
      (Identity.encode entries).length + Cbor.headLen (entries.length + 1) +
        entryLen entry.sequence.toNat entry.event.payload.length
          (utf8 entry.event.labelItem).length := by
  unfold Identity.encode Identity.encodeFramed
  rw [List.flatMap_append, List.flatMap_singleton]
  simp only [List.length_append, Cbor.array, Cbor.length_head, length_encodeEntry h,
    List.length_singleton]
  omega

/-! ## Reading a log back -/

section
variable {K : Keyring.Primitives} {P : Sign.Primitives} {log recovery : GivenFile}

theorem loadIdentityLog_eq_ok {loaded : Identity.IdentityLog P} {key : VerifyingIdentity P} :
    loadIdentityLog K P log recovery = .ok (loaded, key) ↔
      loadVerifyingIdentity P recovery = .ok key ∧ log.content.length ≤ maxLogFile ∧
      Identity.decode log.content = .ok loaded.entries ∧ loaded.recovery = key ∧
      ∃ membership, Identity.replay K.crypto.sha256 loaded.entries key = .ok membership := by
  unfold loadIdentityLog Identity.IdentityLog.verify Identity.IdentityLog.fromEntries
  simp only [bind_eq_ok, mapErr_eq_ok, pure_eq_ok]
  constructor
  · rintro ⟨key', hkey, bytes, hread, entries, hdecode, membership, hreplay, log', ⟨-, -, rfl⟩, heq⟩
    obtain ⟨rfl, hlen⟩ := readBounded_eq_ok hread
    cases heq
    exact ⟨hkey, hlen, hdecode, rfl, membership, hreplay⟩
  · rintro ⟨hkey, hlen, hdecode, rfl, membership, hreplay⟩
    exact ⟨_, hkey, _, readBounded_of_le hlen, _, hdecode, membership, hreplay, loaded,
      ⟨membership, hreplay, rfl⟩, rfl⟩

theorem identityEnrol_eq_ok {secret device : GivenFile} {label passphrase : String}
    {written : Bytes} :
    identityEnrol K P log secret device label recovery passphrase = .ok written ↔
      ∃ loaded key author newDevice after sequence,
        loadIdentityLog K P log recovery = .ok (loaded, key) ∧
        loadSigningIdentity K secret.path secret.content passphrase = .ok author ∧
        loadVerifyingIdentity P device = .ok newDevice ∧
        loaded.enrol K.crypto.sha256 author newDevice label = .ok (after, sequence) ∧
        written = Identity.encode after.entries := by
  unfold identityEnrol
  simp only [bind_eq_ok, mapErr_eq_ok, pure_eq_ok]
  constructor
  · rintro ⟨⟨loaded, key⟩, hload, author, hauthor, newDevice, hdevice, ⟨after, sequence⟩, henrol,
      rfl⟩
    exact ⟨loaded, key, author, newDevice, after, sequence, hload, hauthor, hdevice, henrol, rfl⟩
  · rintro ⟨loaded, key, author, newDevice, after, sequence, hload, hauthor, hdevice, henrol, rfl⟩
    exact ⟨(loaded, key), hload, author, hauthor, newDevice, hdevice, (after, sequence), henrol, rfl⟩

theorem identityRevoke_eq_ok {secret device : GivenFile} {passphrase : String} {written : Bytes} :
    identityRevoke K P log secret device recovery passphrase = .ok written ↔
      ∃ loaded key author target after sequence,
        loadIdentityLog K P log recovery = .ok (loaded, key) ∧
        loadSigningIdentity K secret.path secret.content passphrase = .ok author ∧
        loadVerifyingIdentity P device = .ok target ∧
        loaded.revoke K.crypto.sha256 author (Identity.deviceId K.crypto.sha256 target) =
          .ok (after, sequence) ∧
        written = Identity.encode after.entries := by
  unfold identityRevoke
  simp only [bind_eq_ok, mapErr_eq_ok, pure_eq_ok]
  constructor
  · rintro ⟨⟨loaded, key⟩, hload, author, hauthor, target, hdevice, ⟨after, sequence⟩, hrevoke,
      rfl⟩
    exact ⟨loaded, key, author, target, after, sequence, hload, hauthor, hdevice, hrevoke, rfl⟩
  · rintro ⟨loaded, key, author, target, after, sequence, hload, hauthor, hdevice, hrevoke, rfl⟩
    exact ⟨(loaded, key), hload, author, hauthor, target, hdevice, (after, sequence), hrevoke, rfl⟩

/-- A log that was appended to is read back as long as it is not too large. -/
theorem reload_iff {loaded after : Identity.IdentityLog P} {key : VerifyingIdentity P}
    (hload : loadIdentityLog K P log recovery = .ok (loaded, key)) {author : SigningIdentity}
    {event : Identity.Event} {sequence : Identity.Sequence}
    (happend : loaded.append K.crypto.sha256 author event = .ok (after, sequence)) :
    (∃ reloaded, loadIdentityLog K P { log with content := Identity.encode after.entries } recovery =
      .ok reloaded) ↔
    log.content.length + Cbor.headLen (loaded.entries.length + 1) +
      entryLen loaded.entries.length event.payload.length (utf8 event.labelItem).length ≤
        maxLogFile + Cbor.headLen loaded.entries.length := by
  obtain ⟨hkey, -, hdecode, rfl, membership, hreplay⟩ := loadIdentityLog_eq_ok.mp hload
  obtain ⟨membership', hreplay'⟩ := (Identity.IdentityLog.append_iff_replay hreplay).mp ⟨_, happend⟩
  obtain ⟨-, -, hafter, -⟩ := Identity.IdentityLog.append_eq_ok.mp happend
  have hentries : after.entries =
      loaded.entries ++ [loaded.candidate K.crypto.sha256 author event] := by
    rw [hafter]
  rw [← hentries] at hreplay'
  have hmax := (Identity.replay_eq_ok.mp hreplay').2.1
  have hsized : ∀ entry ∈ after.entries, entry.WellSized :=
    fun entry => Identity.wellSized_of_replay hreplay'
  have hdecode' : Identity.decode (Identity.encode after.entries) = .ok after.entries :=
    Identity.decode_encodeFramed hsized hmax .current
  -- only the size is left to decide
  have hreload : (∃ reloaded, loadIdentityLog K P
      { log with content := Identity.encode after.entries } recovery = .ok reloaded) ↔
      (Identity.encode after.entries).length ≤ maxLogFile := by
    constructor
    · rintro ⟨⟨reloaded, key⟩, hreload⟩
      exact (loadIdentityLog_eq_ok.mp hreload).2.1
    · intro hlen
      refine ⟨(after, loaded.recovery), loadIdentityLog_eq_ok.mpr ⟨hkey, hlen, hdecode', ?_,
        membership', hreplay'⟩⟩
      rw [hafter]
  obtain ⟨framing, hcontent⟩ := Identity.encodeFramed_of_decode hdecode
  have hlength : log.content.length = (Identity.encode loaded.entries).length := by
    rw [hcontent, length_encodeFramed fun entry => Identity.wellSized_of_replay hreplay]
  have hposition : (UInt64.ofNat loaded.entries.length).toNat = loaded.entries.length := by
    have hsize : Identity.maxEntries < UInt64.size := by decide
    rw [hentries, List.length_append, List.length_singleton] at hmax
    exact UInt64.toNat_ofNat_of_lt' (by omega)
  have hgrown := @length_encode_append loaded.entries
    (loaded.candidate K.crypto.sha256 author event) Vector.length_toList
  have hsequence : (loaded.candidate K.crypto.sha256 author event).sequence.toNat =
      loaded.entries.length := hposition
  have hevent : (loaded.candidate K.crypto.sha256 author event).event = event := rfl
  rw [hsequence, hevent] at hgrown
  rw [hreload, hlength, hentries]
  omega

end

/-! ## Reading a history back -/

/-- The largest number of epochs whose history is within the limit. -/
def maxReadableEpochs : ℕ := 13347

theorem fits_iff (n : ℕ) :
    Cbor.headLen n + recordsLen n ≤ maxLogFile ↔ n ≤ maxReadableEpochs := by
  have hlimit : maxLogFile = 16777216 := rfl
  have hmax : maxReadableEpochs = 13347 := rfl
  have hfirst := recordsLen_eq (Nat.le_refl 256) (by omega)
  have hlast := recordsLen_eq (by omega : 256 ≤ 65536) (Nat.le_refl 65536)
  have hhead := Cbor.headLen_le n
  by_cases hsmall : n < 256
  · have hle := recordsLen_le (by omega : n ≤ 256)
    omega
  · by_cases hlarge : n < 65536
    · have hthree : Cbor.headLen n = 3 := by
        unfold Cbor.headLen
        split_ifs <;> omega
      have hexact := recordsLen_eq (by omega : 256 ≤ n) (by omega)
      omega
    · have hle := recordsLen_le (by omega : 65536 ≤ n)
      omega

section
variable {K : Keyring.Primitives} {passphrase chainPath storePath : String}

/-- An advance leaves files that load as long as there are not too many epochs. -/
theorem reload_epochs_iff (hK : K.Seals) {drawn : Drawn} {files : Files}
    (hok : (epochAdvanceWith K passphrase chainPath storePath drawn).result files = .ok ())
    {records : List EpochRecord} (hrecords : Published files records) :
    (∃ chain, loadFiles K passphrase chainPath storePath (files.after
      ((epochAdvanceWith K passphrase chainPath storePath drawn).writes files)) = .ok chain) ↔
      records.length < maxReadableEpochs := by
  rcases @run_advance K passphrase chainPath storePath drawn files with
    hrefused | ⟨chain, plan, hload, hplan, hwrites⟩
  · obtain ⟨⟨e, herror⟩, -⟩ := hrefused
    rw [hok] at herror
    cases herror
  · have hloaded := loaded_of_loadFiles hload
    obtain rfl := hloaded.published.unique hrecords
    obtain ⟨⟨-, record, -, hnext, -⟩, hsealed, hhistory⟩ := advancePlan_eq_ok hplan
    have hadvanced := hloaded.coherent.advance drawn.secret
    have hiff := @loadFiles_of_chain K passphrase chainPath storePath hK _ hadvanced
      (by simp [hnext]) _ _ hsealed (files.after [(.store, plan.1), (.history, plan.2)]) rfl
      (hhistory ▸ rfl)
    have hlength := length_encodeRecords hadvanced.verified
    rw [hlength, fits_iff, hnext, List.length_append, List.length_singleton] at hiff
    rw [hwrites.2]
    constructor
    · rintro ⟨reloaded, hreload⟩
      obtain ⟨bytes, hbytes, hle⟩ := length_of_loadFiles hreload
      have hsame : plan.2 = bytes := Option.some.inj hbytes
      rw [← hsame, hhistory, hlength, fits_iff, hnext, List.length_append,
        List.length_singleton] at hle
      exact hle
    · intro hfew
      exact ⟨_, hiff.mpr hfew⟩

end

/-! ## When a written history is read back -/

/-- What a command has written is accepted again exactly if it fits into the size that readers
accept: for a log, what is there and the new entry; for a history, by the number of its epochs. -/
theorem written_history_readable_iff (K : Keyring.Primitives) (P : Sign.Primitives) :
    (∀ (log secret device : GivenFile) (label : String) (recovery : GivenFile)
      (passphrase : String) (written : Bytes) (entries : List Identity.Entry),
      identityEnrol K P log secret device label recovery passphrase = .ok written →
      Identity.decode log.content = .ok entries →
      ((∃ loaded, loadIdentityLog K P { log with content := written } recovery = .ok loaded) ↔
        log.content.length + Cbor.headLen (entries.length + 1) +
          entryLen entries.length verifyingKeyLength (utf8 label).length ≤
            maxLogFile + Cbor.headLen entries.length)) ∧
    (∀ (log secret device recovery : GivenFile) (passphrase : String) (written : Bytes)
      (entries : List Identity.Entry),
      identityRevoke K P log secret device recovery passphrase = .ok written →
      Identity.decode log.content = .ok entries →
      ((∃ loaded, loadIdentityLog K P { log with content := written } recovery = .ok loaded) ↔
        log.content.length + Cbor.headLen (entries.length + 1) + entryLen entries.length 32 0 ≤
          maxLogFile + Cbor.headLen entries.length)) ∧
    (K.Seals → ∀ (passphrase chainPath storePath : String) (drawn : Drawn) (files : Files)
      (records : List EpochRecord),
      (epochAdvanceWith K passphrase chainPath storePath drawn).result files = .ok () →
      Published files records →
      ((∃ chain, loadFiles K passphrase chainPath storePath (files.after
        ((epochAdvanceWith K passphrase chainPath storePath drawn).writes files)) = .ok chain) ↔
        records.length < maxReadableEpochs)) := by
  refine ⟨?_, ?_, ?_⟩
  · intro log secret device label recovery passphrase written entries hok hdecode
    obtain ⟨loaded, key, author, newDevice, after, sequence, hload, -, -, henrol, rfl⟩ :=
      identityEnrol_eq_ok.mp hok
    have hsame := (loadIdentityLog_eq_ok.mp hload).2.2.1
    obtain rfl : entries = loaded.entries := Except.ok.inj (hdecode.symm.trans hsame)
    have hiff := reload_iff hload henrol
    have hpayload : (Identity.Event.enrol newDevice.toBytes.toList label).payload.length =
        verifyingKeyLength := Vector.length_toList
    rw [hpayload] at hiff
    exact hiff
  · intro log secret device recovery passphrase written entries hok hdecode
    obtain ⟨loaded, key, author, target, after, sequence, hload, -, -, hrevoke, rfl⟩ :=
      identityRevoke_eq_ok.mp hok
    have hsame := (loadIdentityLog_eq_ok.mp hload).2.2.1
    obtain rfl : entries = loaded.entries := Except.ok.inj (hdecode.symm.trans hsame)
    have hiff := reload_iff hload hrevoke
    have hpayload : (Identity.Event.revoke (Identity.deviceId K.crypto.sha256 target)).payload.length =
        32 := Vector.length_toList
    rw [hpayload] at hiff
    exact hiff
  · intro hK passphrase chainPath storePath drawn files records hok hrecords
    exact reload_epochs_iff hK hok hrecords

/-! ## A log that is read back -/

section Sample
open Identity.Sample

/-- No more than 6000 bytes for an entry. -/
theorem entryLen_le {position payload label : ℕ} (hpayload : payload ≤ verifyingKeyLength)
    (hlabel : label ≤ Identity.maxLabelBytes) : entryLen position payload label ≤ 6000 := by
  have hkey : verifyingKeyLength = 1984 := rfl
  have hmax : Identity.maxLabelBytes = 256 := rfl
  have h₁ := Cbor.headLen_le position
  have h₂ := Cbor.headLen_le payload
  have h₃ := Cbor.headLen_le label
  rw [entryLen]
  omega

theorem length_encode_le {entries : List Identity.Entry}
    (h : ∀ entry ∈ entries, entry.WellSized) :
    (Identity.encode entries).length ≤ 9 + entries.length * 6000 := by
  have hentry : ∀ entry ∈ entries, (Identity.encodeEntry .current entry).length ≤ 6000 := by
    intro entry hin
    obtain ⟨hevent, hsignature⟩ := h entry hin
    rw [length_encodeEntry hsignature]
    exact entryLen_le (Identity.length_payload_le hevent) (Identity.items_sized hevent).2
  have hhead := Cbor.headLen_le entries.length
  have hbody := length_flatMap_le hentry
  unfold Identity.encode Identity.encodeFramed
  rw [List.length_append, Cbor.array, Cbor.length_head]
  omega

/-- With few entries there is room for one more. -/
theorem room_of_few {written position payload label : ℕ} (hwritten : written ≤ 42009)
    (hpayload : payload ≤ verifyingKeyLength) (hlabel : label ≤ Identity.maxLabelBytes) :
    written + Cbor.headLen (position + 1) + entryLen position payload label ≤
      maxLogFile + Cbor.headLen position := by
  have hmax : 60000 ≤ maxLogFile := by decide
  have hhead := Cbor.headLen_le (position + 1)
  have hentry := @entryLen_le position payload label hpayload hlabel
  omega

/-- Keys under which the bare file of any master seed signs as the founder. -/
def logKeys : Keyring.Primitives where
  nfc := id
  nfd := id
  argon2id _ _ _ _ _ := none
  hkdfExpand _ _ := Vector.replicate 32 1
  crypto := { Crypto.Primitives.toy with sha256 := digest }

/-- The log after `n` calls. -/
def logFile (n : ℕ) : GivenFile := ⟨"log", Identity.encode (log n).entries⟩

def publicFile (n : UInt8) : GivenFile := ⟨"key", (key n).toBytes.toList⟩

def secretFile : GivenFile := ⟨"secret", toySeed.toList⟩

theorem loadVerifyingIdentity_publicFile (n : UInt8) :
    loadVerifyingIdentity Primitives.keyed (publicFile n) = .ok (key n) := by
  have hlen : (key n).toBytes.toList.length = verifyingKeyLength := Vector.length_toList
  have hle : verifyingKeyLength ≤ maxSigningKeyFile := by decide
  unfold loadVerifyingIdentity publicFile
  have hne : ¬(key n).toBytes.toList.length ≠ verifyingKeyLength := fun h => h hlen
  rw [readBounded_of_le (by rw [hlen]; exact hle), ok_bind, failIf_neg _ hne, ok_bind,
    VerifyingIdentity.fromBytes_toBytes, mapErr_ok]

theorem loadSigningIdentity_secretFile :
    loadSigningIdentity logKeys secretFile.path secretFile.content "" = .ok (identity 1) := by
  have hbare : Bare toySeed.toList toySeed := ⟨by decide, rfl⟩
  exact loadSigningIdentity_of_identity (loadKey_bare hbare "")

theorem decode_logFile (n : ℕ) :
    Identity.decode (logFile n).content = .ok (log n).entries := by
  have hreplay := replay_log n
  exact Identity.decode_encodeFramed (fun entry => Identity.wellSized_of_replay hreplay)
    (Identity.replay_eq_ok.mp hreplay).2.1 .current

theorem length_logFile {n : ℕ} (hn : n ≤ 6) : (logFile n).content.length ≤ 42009 := by
  have hle := length_encode_le fun entry => Identity.wellSized_of_replay (replay_log n)
  rw [length_log hn] at hle
  show (Identity.encode (log n).entries).length ≤ 42009
  omega

theorem loadIdentityLog_logFile {n : ℕ} (hn : n ≤ 6) :
    loadIdentityLog logKeys Primitives.keyed (logFile n) (publicFile 9) = .ok (log n, key 9) := by
  have hle := length_logFile hn
  have hmax : 42009 ≤ maxLogFile := by decide
  exact loadIdentityLog_eq_ok.mpr ⟨loadVerifyingIdentity_publicFile 9, by omega,
    decode_logFile n, recovery_log n, _, replay_log n⟩

theorem identityEnrol_phone :
    identityEnrol logKeys Primitives.keyed (logFile 0) secretFile (publicFile 2) "phone"
      (publicFile 9) "" = .ok (logFile 1).content := by
  obtain ⟨sequence, hrun⟩ := @run_call 0 _ rfl
  exact identityEnrol_eq_ok.mpr ⟨log 0, key 9, identity 1, key 2, log 1, sequence,
    loadIdentityLog_logFile (Nat.zero_le _), loadSigningIdentity_secretFile,
    loadVerifyingIdentity_publicFile 2, hrun, rfl⟩

theorem identityRevoke_phone :
    identityRevoke logKeys Primitives.keyed (logFile 1) secretFile (publicFile 2) (publicFile 9) "" =
      .ok (logFile 2).content := by
  obtain ⟨sequence, hrun⟩ := @run_call 1 _ rfl
  rw [← deviceId_key] at hrun
  exact identityRevoke_eq_ok.mpr ⟨log 1, key 9, identity 1, key 2, log 2, sequence,
    loadIdentityLog_logFile (show 1 ≤ 6 by decide), loadSigningIdentity_secretFile,
    loadVerifyingIdentity_publicFile 2, hrun, rfl⟩

/-- The theorem where the founder of a log enrols a phone and revokes it again: both logs are read
back. -/
theorem written_history_readable_iff_phone :
    identityEnrol logKeys Primitives.keyed (logFile 0) secretFile (publicFile 2) "phone"
        (publicFile 9) "" = .ok (logFile 1).content ∧
      identityRevoke logKeys Primitives.keyed (logFile 1) secretFile (publicFile 2) (publicFile 9)
        "" = .ok (logFile 2).content ∧
      (∃ loaded, loadIdentityLog logKeys Primitives.keyed
        { logFile 0 with content := (logFile 1).content } (publicFile 9) = .ok loaded) ∧
      ∃ loaded, loadIdentityLog logKeys Primitives.keyed
        { logFile 1 with content := (logFile 2).content } (publicFile 9) = .ok loaded := by
  obtain ⟨hreadable, hreadable', -⟩ := written_history_readable_iff logKeys Primitives.keyed
  have hphone : (utf8 "phone").length ≤ Identity.maxLabelBytes := by decide
  have hid : 32 ≤ verifyingKeyLength := by decide
  refine ⟨identityEnrol_phone, identityRevoke_phone, ?_, ?_⟩
  · apply (hreadable _ _ _ _ _ _ _ _ identityEnrol_phone (decode_logFile 0)).mpr
    exact room_of_few (length_logFile (Nat.zero_le 6)) le_rfl hphone
  · apply (hreadable' _ _ _ _ _ _ _ identityRevoke_phone (decode_logFile 1)).mpr
    exact room_of_few (length_logFile (show 1 ≤ 6 by decide)) hid (Nat.zero_le _)

end Sample

/-! ## A history that cannot be read back -/

/-- A chain that was advanced `n` times. -/
def longChain : ℕ → EpochChain
  | 0 => ⟨[], []⟩
  | n + 1 => ((longChain n).advance sampleKeys.crypto (drawing 7).secret).2

theorem longChain_coherent (n : ℕ) : (longChain n).Coherent sampleKeys.crypto := by
  induction n with
  | zero => exact EpochChain.Coherent.empty
  | succ n ih => exact ih.advance _

theorem longChain_length {n : ℕ} (h : n ≤ maxChainEntries) :
    (longChain n).records.length = n ∧ (longChain n).held.length = n := by
  induction n with
  | zero => exact ⟨rfl, rfl⟩
  | succ n ih =>
    obtain ⟨hrecords, hheld⟩ := ih (by omega)
    obtain ⟨-, hrecords', hheld'⟩ := @EpochChain.advance_ok sampleKeys.crypto (longChain n)
      (by omega) ⟨Vector.replicate 32 7⟩
    rw [hrecords] at hrecords'
    rw [hheld] at hheld'
    exact ⟨hrecords', hheld'⟩

/-- The files of the longest chain that can be read. -/
def longFiles : Files := chainFiles (longChain maxReadableEpochs)

theorem longFiles_load : loadFiles sampleKeys "correct horse" "history" "store" longFiles =
    .ok (longChain maxReadableEpochs) := by
  have hfew : maxReadableEpochs ≤ Store.maxEntries := by decide
  obtain ⟨hrecords, hheld⟩ := longChain_length (by decide : maxReadableEpochs ≤ maxChainEntries)
  have hcoherent := longChain_coherent maxReadableEpochs
  refine chainFiles_load hcoherent ?_ (by omega) ?_
  · intro hnil
    rw [hnil] at hrecords
    cases hrecords
  · rw [length_encodeRecords hcoherent.verified, hrecords, fits_iff]

/-- One epoch more, and no command reads the history again. -/
theorem advance_beyond_readable :
    let advance := epochAdvanceWith sampleKeys "correct horse" "history" "store" (drawing 7)
    loadFiles sampleKeys "correct horse" "history" "store" longFiles =
      .ok (longChain maxReadableEpochs) ∧
    advance.result longFiles = .ok () ∧
    ∀ chain, loadFiles sampleKeys "correct horse" "history" "store"
      (longFiles.after (advance.writes longFiles)) ≠ .ok chain := by
  intro advance
  have hloaded := loaded_of_loadFiles longFiles_load
  obtain ⟨hrecords, hheld⟩ := longChain_length (by decide : maxReadableEpochs ≤ maxChainEntries)
  have hmore : maxReadableEpochs < maxChainEntries := by decide
  have hfew : maxReadableEpochs < Store.maxEntries := by decide
  obtain ⟨plan, hplan⟩ := @advancePlan_succeeds sampleKeys "correct horse" sampleKeys_seals _
    (longChain_coherent maxReadableEpochs) (by omega) (by omega) (by decide) _ (drawing_complete 7)
  have hok : advance.result longFiles = .ok () := (advance_writes longFiles_load hplan).1
  refine ⟨longFiles_load, hok, ?_⟩
  intro chain hchain
  have hfits := (reload_epochs_iff sampleKeys_seals hok hloaded.published).mp ⟨chain, hchain⟩
  omega

end HideProtocol.Cli
