import HideProtocol.Desktop.Files
import HideProtocol.Keyring.EpochStoreTheorems
import HideProtocol.Object.RoundTrip

/-!
# What the file commands leave behind

Each command is all or nothing as long as nothing goes wrong once it has created a file. The
steps that come before are harmless, and the conditions below say what is left: encrypting and
generating keys take nothing back, and decrypting replaces what was there.
-/

namespace HideProtocol.Desktop

open Lib Format Crypto Keyring Object

/-! ## The core on a reader that breaks -/

section
variable {P : Crypto.Primitives} {S : Sign.Primitives} {source : Reader}

theorem encryptLoop_of_breaks (key objectId headerHash : Key) {current : Bytes} {input : Reader}
    (h : input.Breaks) (hlen : current.length ≤ chunkLen) (counter total n : ℕ) :
    (encryptLoop P key objectId headerHash current input counter total).result ≠ .ok n := by
  induction hm : maxChunks - counter generalizing current input counter total with
  | zero =>
    rw [encryptLoop, dif_pos (by omega)]
    exact fun hok => by cases hok
  | succ m ih =>
    rcases encryptLoop_turn P key objectId headerHash input counter total hlen with
      ⟨-, heq⟩ | ⟨-, error, after, -, heq⟩ | ⟨-, next, after, -, -, heq⟩ |
      ⟨-, after, ciphertext, hread, -, -⟩ | ⟨hlt, next, after, ciphertext, hread, -, -, heq⟩
    · rw [heq]
      exact fun hok => by cases hok
    · rw [heq]
      exact fun hok => by cases hok
    · rw [heq]
      exact fun hok => by cases hok
    · -- the look-ahead never sees the end
      rcases Reader.readUpTo_of_breaks h chunkLen with ⟨error, _, hfail⟩ | ⟨bytes, _, hok, hfull, -⟩
      · rw [readChunk, hfail] at hread
        cases hread
      · rw [readChunk, hok] at hread
        cases hread
        exact absurd hfull (by decide)
    · have hafter : after.Breaks := by
        rcases Reader.readUpTo_of_breaks h chunkLen with ⟨error, _, hfail⟩ | ⟨bytes, _, hok, -, hb⟩
        · rw [readChunk, hfail] at hread
          cases hread
        · rw [readChunk, hok] at hread
          cases hread
          exact hb
      rw [heq]
      exact ih hafter (length_of_readChunk hread) (counter + 1) (total + current.length)
        (by omega)

/-- A run that succeeds has read its input to the end. -/
theorem encrypt_of_breaks (h : source.Breaks) (recipients : List (RecipientPublic × Key))
    (metadata : Metadata) (material : ObjectMaterial) (n : ℕ) :
    (encrypt P S source recipients metadata material).result ≠ .ok n := by
  intro hok
  unfold encrypt at hok
  obtain ⟨stanzas, -, hrun⟩ := encryptFor_eq_ok hok
  rw [hrun] at hok
  unfold encryptInner at hok
  rcases hprepare : prepare P S metadata material stanzas none {} [] with error | prepared
  · simp only [hprepare] at hok
    cases hok
  · simp only [hprepare] at hok
    have hrecords : (encryptRecords P (payloadKey P material.cek material.objectId
        material.payloadSalt) material.objectId (hash P [prepared.protectedBytes]) source).result =
        .ok n := hok
    unfold encryptRecords at hrecords
    rcases Reader.readUpTo_of_breaks h chunkLen with ⟨error, after, hread⟩ |
      ⟨bytes, after, hread, hfull, hafter⟩
    · rw [readChunk, hread] at hrecords
      cases hrecords
    · rw [readChunk, hread] at hrecords
      exact encryptLoop_of_breaks _ _ _ hafter hfull.le 0 0 n hrecords

theorem decryptFrom_of_breaks (h : source.Breaks) (secret : RecipientSecret)
    (verified : VerifiedObject S) : (decryptFrom P S source secret).result ≠ .ok verified := by
  obtain ⟨bytes, error, harrives⟩ := Reader.arrives_of_breaks h
  unfold decryptFrom
  rw [harrives]
  simp only []
  split
  · exact fun hok => by cases hok
  · split
    · exact fun hok => by cases hok
    · exact fun hok => by cases hok

theorem decryptFrom_ofBytes (bytes : Bytes) (secret : RecipientSecret) :
    decryptFrom P S (Reader.ofBytes bytes) secret = decryptToStaging P S bytes secret := by
  unfold decryptFrom
  rw [Reader.arrives_ofBytes]

end

/-! ## Reading -/

theorem readOnly_readFile (path : Path) (limit : ℕ) (fault : Option ReadFault) :
    (readFile path limit fault).ReadOnly := by
  apply Disk.ReadOnly.bind
  · exact (Disk.readOnly_openFile path fault).orFail _
  · intro file
    exact Disk.readOnly_lift _

theorem readOnly_loadPublicFile (accepts : Vector UInt8 publicKeyLength → Bool) (path : Path)
    (fault : Option ReadFault) : (loadPublicFile accepts path fault).ReadOnly :=
  (readOnly_readFile path maxKeyFile fault).bind fun _ => Disk.readOnly_lift _

theorem readOnly_loadSecretFile (K : Keyring.Primitives) (path : Path)
    (passphrase : Option String) (fault : Option ReadFault) :
    (loadSecretFile K path passphrase fault).ReadOnly :=
  (readOnly_readFile path maxKeyFile fault).bind fun _ => Disk.readOnly_lift _

theorem readOnly_openInput (path : Path) (fault : Option ReadFault) :
    (openInput path fault).ReadOnly := (Disk.readOnly_openFile path fault).orFail _

/-- An open file is read whole, or the reader breaks. -/
theorem openInput_eq_ok {path : Path} {fault : Option ReadFault} {files : Files} {source : Reader}
    (h : ((openInput path fault).run files).1 = .ok source) :
    ((openInput path none).run files).1 = .ok source ∨ source.Breaks := by
  have h : ((Disk.openFile path fault).run files).1 = .ok source := Disk.orFail_eq_ok.mp h
  rw [openInput, Disk.orFail_eq_ok]
  simp only [Disk.openFile] at h ⊢
  rcases hfile : files path with _ | content
  · rw [hfile] at h
    rcases fault with _ | ⟨error⟩ | ⟨after, error⟩ <;> cases h
  · rw [hfile] at h
    have hsource : source = readerOf content fault := by
      rcases fault with _ | ⟨error⟩ | ⟨after, error⟩
      · exact (Except.ok.inj h).symm
      · cases h
      · exact (Except.ok.inj h).symm
    rcases readerOf_cases content fault with hwhole | hbreaks
    · left
      rw [hsource, hwhole]
      rfl
    · right
      rw [hsource]
      exact hbreaks

/-! ## Generating keys -/

section
variable (K : Keyring.Primitives) (directory : Path) (name : Text) (passphrase : Option String)
  (drawn : Except KeyringError Key) (salt : Vector UInt8 saltLen) (nonce : Nonce)

/-- The files of a complete key pair. -/
def keyOutputs : List (Path × Bytes) :=
  match keyName name, newKeys K passphrase drawn salt nonce with
  | .ok name, .ok (sealed, publicKey) =>
    [(secretPath directory name, sealed), (publicPath directory name, publicKey)]
  | _, _ => []

/-- Once the secret key file is created, there is room for both files, and the public one is
created as well. -/
def KeysSafe (faults : KeyFaults) (files : Files) : Prop :=
  ∀ chosen, keyName name = .ok chosen →
    ∀ keys, newKeys K passphrase drawn salt nonce = .ok keys →
      faults.createSecret = none → files (secretPath directory chosen) = none →
      Fits keys.1 faults.writeSecret ∧ faults.createPublic = none ∧
        files (publicPath directory chosen) = none ∧ Fits keys.2 faults.writePublic

variable {K directory name passphrase drawn salt nonce} {chosen : Text}

theorem keyName_eq_ok (h : keyName name = .ok chosen) : chosen ≠ [] ∧ '/' ∉ chosen := by
  obtain ⟨_, hempty, h⟩ := bind_eq_ok.mp h
  obtain ⟨_, hescape, h⟩ := bind_eq_ok.mp h
  rw [pure_eq_ok.mp h]
  refine ⟨failIf_eq_ok.mp hempty, ?_⟩
  intro hmem
  apply failIf_eq_ok.mp hescape
  exact Or.inl (List.any_eq_true.mpr ⟨'/', hmem, by decide⟩)

/-- The two files of a pair are different files. -/
theorem secretPath_ne_publicPath (h : keyName name = .ok chosen) :
    secretPath directory chosen ≠ publicPath directory chosen := by
  obtain ⟨hne, hslash⟩ := keyName_eq_ok h
  have hhead : ∀ extension : Text, (chosen ++ extension).head? ≠ some '/' := by
    intro extension hhead
    rw [List.head?_append_of_ne_nil chosen hne] at hhead
    exact hslash (List.mem_of_mem_head? hhead)
  intro heq
  have hname := join_injective directory (hhead _) (hhead _) heq
  exact absurd (List.append_cancel_left hname) (by decide)

theorem writeKey_of_fits {fault : Option WriteFault} {bytes : Bytes} (h : Fits bytes fault)
    (context : String) (path : Path) (files : Files) :
    (writeKey context path fault bytes).run (Function.update files path (some [])) =
      (.ok (), Function.update files path (some bytes)) := Disk.fill_of_fits h

theorem writeKey_of_not_fits {fault : Option WriteFault} {bytes : Bytes} (h : ¬Fits bytes fault)
    (context : String) (path : Path) (files : Files) :
    ∃ error, (writeKey context path fault bytes).run (Function.update files path (some [])) =
      (.error error, Function.update files path (some (kept bytes fault))) :=
  Disk.fill_of_not_fits h

/-- With the secret key written, all depends on the public one. -/
theorem allOrNothing_writePublic_iff {faults : KeyFaults} {files : Files} {first second : Path}
    {sealed publicKey : Bytes} (hne : first ≠ second) (hnone : files first = none)
    (context : String) (pair : KeyPair) :
    Disk.AllOrNothing files [(first, sealed), (second, publicKey)]
      ((do
        createNew second faults.createPublic
        writeKey context second faults.writePublic publicKey
        pure pair : Command KeyPair).run (Function.update files first (some sealed))) ↔
    faults.createPublic = none ∧ files second = none ∧ Fits publicKey faults.writePublic := by
  have hsecond : Function.update files first (some sealed) second = files second :=
    Function.update_of_ne hne.symm _ _
  -- whatever happens to the other file, the first one stays
  have hfirst : ∀ content : Option Bytes, Function.update (Function.update files first
      (some sealed)) second content first = some sealed := by
    intro content
    rw [Function.update_of_ne hne, Function.update_self]
  by_cases hcreate : faults.createPublic = none ∧ files second = none
  · obtain ⟨hfault, hfree⟩ := hcreate
    unfold createNew
    rw [hfault, Disk.bind_of_ok (Disk.orFail_of_ok (Disk.createNew_of_none (hsecond.trans hfree)) _)]
    by_cases hfits : Fits publicKey faults.writePublic
    · rw [Disk.bind_of_ok (writeKey_of_fits hfits context second _), Disk.run_pure]
      refine iff_of_true ⟨?_, rfl⟩ ⟨rfl, hfree, hfits⟩
      intro output houtput
      rcases List.mem_cons.mp houtput with rfl | houtput
      · exact hnone
      · rw [List.mem_singleton.mp houtput]
        exact hfree
    · obtain ⟨error, hwrite⟩ := writeKey_of_not_fits hfits context second
        (Function.update files first (some sealed))
      rw [Disk.bind_of_error hwrite]
      exact iff_of_false (Disk.ne_of_new hnone (hfirst _)) fun h => hfits h.2.2
  · obtain ⟨error, hrefused⟩ := @Disk.createNew_of_refused _ _
      (Function.update files first (some sealed)) second faults.createPublic
      (by rw [hsecond]; exact hcreate)
    unfold createNew
    rw [Disk.bind_of_error (Disk.orFail_of_error hrefused _)]
    exact iff_of_false (Disk.update_some_ne hnone sealed) fun h => hcreate ⟨h.1, h.2.1⟩

theorem allOrNothing_generateKeys_iff {faults : KeyFaults} {files : Files} :
    Disk.AllOrNothing files (keyOutputs K directory name passphrase drawn salt nonce)
      ((generateKeys K directory name passphrase drawn salt nonce faults).run files) ↔
    KeysSafe K directory name passphrase drawn salt nonce faults files := by
  unfold generateKeys KeysSafe
  rw [Disk.allOrNothing_bind_iff (Disk.readOnly_lift _)]
  refine forall_congr' fun chosen => imp_congr_right fun hname => ?_
  rw [Disk.allOrNothing_bind_iff (Disk.readOnly_lift _)]
  refine forall_congr' fun keys => imp_congr_right fun hkeys => ?_
  obtain ⟨sealed, publicKey⟩ := keys
  have hname : keyName name = .ok chosen := hname
  have hkeys : newKeys K passphrase drawn salt nonce = .ok (sealed, publicKey) := hkeys
  have houtputs : keyOutputs K directory name passphrase drawn salt nonce =
      [(secretPath directory chosen, sealed), (publicPath directory chosen, publicKey)] := by
    unfold keyOutputs
    rw [hname, hkeys]
  rw [houtputs]
  refine (Disk.allOrNothing_createNew_iff _ _).trans ?_
  refine imp_congr_right fun _ => imp_congr_right fun hnone => ?_
  by_cases hfits : Fits sealed faults.writeSecret
  · rw [Disk.bind_of_ok (writeKey_of_fits hfits _ _ files), and_iff_right hfits]
    exact allOrNothing_writePublic_iff (secretPath_ne_publicPath hname) hnone _ _
  · obtain ⟨error, hwrite⟩ := writeKey_of_not_fits hfits "could not write the secret key"
      (secretPath directory chosen) files
    rw [Disk.bind_of_error hwrite]
    exact iff_of_false (Disk.update_some_ne hnone _) fun h => hfits h.1

end

/-! ## Encrypting -/

section
variable (P : Crypto.Primitives) (S : Sign.Primitives)
  (accepts : Vector UInt8 publicKeyLength → Bool) (input : Path) (recipients : List Path)
  (output : Path) (material : ObjectMaterial) (seeds : ℕ → Key) (faults : EncryptFaults)

/-- All recipients, each from its own file. -/
def loadRecipients : Command (List RecipientPublic) :=
  recipients.zipIdx.mapM fun recipient =>
    loadPublicFile accepts recipient.1 (faults.recipients recipient.2)

theorem readOnly_loadRecipients : (loadRecipients accepts recipients faults).ReadOnly := by
  apply Disk.readOnly_mapM
  intro recipient
  exact readOnly_loadPublicFile accepts _ _

theorem readOnly_encryptionRun :
    (encryptionRun P S accepts input recipients material seeds faults).ReadOnly := by
  unfold encryptionRun
  exact (Disk.readOnly_lift _).bind fun _ =>
    (readOnly_loadRecipients accepts recipients faults).bind fun _ =>
    (Disk.readOnly_lift _).bind fun _ => (readOnly_openInput input _).bind fun _ =>
    Disk.readOnly_pure _

/-- What a complete output of `encrypt_file` holds: the container of the whole input. -/
def encryptOutputs (files : Files) : List (Path × Bytes) :=
  match ((encryptionRun P S accepts input recipients material seeds
    { faults with input := none }).run files).1 with
  | .ok run => [(output, run.output)]
  | .error _ => []

/-- Once the output is created, the core succeeds and the disk has room. -/
def EncryptSafe (files : Files) : Prop :=
  ∀ run, ((encryptionRun P S accepts input recipients material seeds faults).run files).1 = .ok run →
    faults.create = none → files output = none →
    (∃ n, run.result = .ok n) ∧ Fits run.output faults.write

variable {P S accepts input recipients output material seeds faults} {files : Files}

theorem encryptionRun_eq_ok {run : ObjectEncryption} :
    ((encryptionRun P S accepts input recipients material seeds faults).run files).1 = .ok run ↔
      ¬(recipients = [] ∨ recipients.length > 64) ∧ ∃ loaded filename source,
        ((loadRecipients accepts recipients faults).run files).1 = .ok loaded ∧
        fileName input = some filename ∧
        ((openInput input faults.input).run files).1 = .ok source ∧
        run = encrypt P S source (withSeeds seeds loaded)
          { filename := some (String.ofList filename) } material := by
  unfold encryptionRun
  rw [Disk.bind_eq_ok (Disk.readOnly_lift _)]
  constructor
  · intro h
    obtain ⟨_, hcount, h⟩ := h
    obtain ⟨loaded, hload, h⟩ :=
      (Disk.bind_eq_ok (readOnly_loadRecipients accepts recipients faults)).mp h
    obtain ⟨filename, hname, h⟩ := (Disk.bind_eq_ok (Disk.readOnly_lift _)).mp h
    obtain ⟨source, hopen, h⟩ := (Disk.bind_eq_ok (readOnly_openInput input _)).mp h
    exact ⟨failIf_eq_ok.mp hcount, loaded, filename, source, hload, okOr_eq_ok.mp hname, hopen,
      (Except.ok.inj h).symm⟩
  · intro h
    obtain ⟨hcount, loaded, filename, source, hload, hname, hopen, rfl⟩ := h
    refine ⟨(), failIf_neg _ hcount,
      (Disk.bind_eq_ok (readOnly_loadRecipients accepts recipients faults)).mpr
        ⟨loaded, hload, (Disk.bind_eq_ok (Disk.readOnly_lift _)).mpr ⟨filename, ?_,
          (Disk.bind_eq_ok (readOnly_openInput input _)).mpr ⟨source, hopen, rfl⟩⟩⟩⟩
    exact okOr_eq_ok.mpr hname

/-- A run that succeeds is the run on the whole input. -/
theorem encryptionRun_whole {run : ObjectEncryption} {n : ℕ}
    (h : ((encryptionRun P S accepts input recipients material seeds faults).run files).1 = .ok run)
    (hok : run.result = .ok n) :
    ((encryptionRun P S accepts input recipients material seeds
      { faults with input := none }).run files).1 = .ok run := by
  obtain ⟨hcount, loaded, filename, source, hload, hname, hopen, hrun⟩ := encryptionRun_eq_ok.mp h
  rcases openInput_eq_ok hopen with hwhole | hbreaks
  · exact encryptionRun_eq_ok.mpr
      ⟨hcount, loaded, filename, source, hload, hname, hwhole, hrun⟩
  · rw [hrun] at hok
    exact absurd hok (encrypt_of_breaks hbreaks _ _ _ _)

theorem allOrNothing_encryptFile_iff :
    Disk.AllOrNothing files (encryptOutputs P S accepts input recipients output material seeds
        faults files)
      ((encryptFile P S accepts input recipients output material seeds faults).run files) ↔
    EncryptSafe P S accepts input recipients output material seeds faults files := by
  unfold encryptFile EncryptSafe
  rw [Disk.allOrNothing_bind_iff (readOnly_encryptionRun P S accepts input recipients material
    seeds faults)]
  refine forall_congr' fun run => imp_congr_right fun hrun => ?_
  unfold createNew
  rw [Disk.allOrNothing_createNew_iff]
  refine imp_congr_right fun _ => imp_congr_right fun hnone => ?_
  have houtputs : ∀ n, mapErr (fun error => fail "encryption failed" (.object error)) run.result =
      .ok n → encryptOutputs P S accepts input recipients output material seeds faults files =
        [(output, run.output)] := by
    intro n hn
    unfold encryptOutputs
    rw [encryptionRun_whole hrun (mapErr_eq_ok.mp hn)]
  rw [Disk.allOrNothing_fill_iff hnone houtputs]
  simp only [mapErr_eq_ok]

end

/-! ## Decrypting -/

section
variable (P : Crypto.Primitives) (S : Sign.Primitives) (K : Keyring.Primitives)
  (input secret : Path) (passphrase : Option String) (output : Path) (faults : DecryptFaults)

theorem readOnly_decryptionRun :
    (decryptionRun P S K input secret passphrase faults).ReadOnly := by
  unfold decryptionRun
  exact (readOnly_loadSecretFile K secret passphrase _).bind fun _ =>
    (readOnly_openInput input _).bind fun _ => Disk.readOnly_pure _

/-- What a complete output of `decrypt_file` holds: the plaintext of the whole input. -/
def decryptOutputs (files : Files) : List (Path × Bytes) :=
  match ((decryptionRun P S K input secret passphrase
    { faults with input := none }).run files).1 with
  | .ok read => [(output, read.staging)]
  | .error _ => []

/-- The container authenticates, and the disk has room for the plaintext. -/
def Arrived (read : ObjectDecryption S) : Prop :=
  (∃ verified, read.result = .ok verified) ∧ Fits read.staging faults.write

/-- Once the staging file is created, plaintext that arrived can be published and replaces
nothing, and anything else can be removed. -/
def DecryptSafe (files : Files) : Prop :=
  ∀ read, ((decryptionRun P S K input secret passphrase faults).run files).1 = .ok read →
    faults.create = none → files (stagingPath output) = none →
    (Arrived S faults read →
      faults.rename = none ∧ (stagingPath output = output ∨ files output = none)) ∧
    (¬Arrived S faults read → faults.remove = none)

variable {P S K input secret passphrase output faults} {files : Files}

theorem decryptionRun_eq_ok {read : ObjectDecryption S} :
    ((decryptionRun P S K input secret passphrase faults).run files).1 = .ok read ↔
      ∃ loaded source, ((loadSecretFile K secret passphrase faults.secret).run files).1 =
          .ok loaded ∧
        ((openInput input faults.input).run files).1 = .ok source ∧
        read = decryptFrom P S source loaded := by
  unfold decryptionRun
  rw [Disk.bind_eq_ok (readOnly_loadSecretFile K secret passphrase _)]
  constructor
  · intro h
    obtain ⟨loaded, hload, h⟩ := h
    obtain ⟨source, hopen, h⟩ := (Disk.bind_eq_ok (readOnly_openInput input _)).mp h
    exact ⟨loaded, source, hload, hopen, (Except.ok.inj h).symm⟩
  · intro h
    obtain ⟨loaded, source, hload, hopen, rfl⟩ := h
    exact ⟨loaded, hload, (Disk.bind_eq_ok (readOnly_openInput input _)).mpr ⟨source, hopen, rfl⟩⟩

/-- A run that succeeds is the run on the whole input. -/
theorem decryptionRun_whole {read : ObjectDecryption S} {verified : VerifiedObject S}
    (h : ((decryptionRun P S K input secret passphrase faults).run files).1 = .ok read)
    (hok : read.result = .ok verified) :
    ((decryptionRun P S K input secret passphrase { faults with input := none }).run files).1 =
      .ok read := by
  obtain ⟨loaded, source, hload, hopen, hread⟩ := decryptionRun_eq_ok.mp h
  rcases openInput_eq_ok hopen with hwhole | hbreaks
  · exact decryptionRun_eq_ok.mpr ⟨loaded, source, hload, hwhole, hread⟩
  · rw [hread] at hok
    exact absurd hok (decryptFrom_of_breaks hbreaks loaded verified)

/-- Publishing leaves the output alone behind, or the staging file. -/
theorem allOrNothing_publish_iff (hnone : files (stagingPath output) = none) (bytes : Bytes)
    (verified : VerifiedObject S) :
    Disk.AllOrNothing files [(output, bytes)] ((finishDecryption S output faults
      (.ok verified)).run (Function.update files (stagingPath output) (some bytes))) ↔
    faults.rename = none ∧ (stagingPath output = output ∨ files output = none) := by
  unfold finishDecryption
  cases hrename : faults.rename with
  | some error =>
    rw [Disk.bind_of_error (Disk.orFail_of_error rfl _)]
    apply iff_of_false
    · exact Disk.update_some_ne hnone bytes
    · intro h
      cases h.1
  | none =>
    rw [Disk.bind_of_ok (Disk.orFail_of_ok (Disk.rename_new hnone output bytes) _), Disk.run_pure]
    have hfree : (stagingPath output = output ∨ files output = none) ↔ files output = none := by
      apply or_iff_right_of_imp
      intro hsame
      rwa [hsame] at hnone
    rw [hfree, and_iff_right rfl]
    constructor
    · intro h
      exact h.1 (output, bytes) (List.mem_singleton.mpr rfl)
    · intro hnew
      refine ⟨?_, rfl⟩
      intro o ho
      rw [List.mem_singleton.mp ho]
      exact hnew

/-- Giving up leaves nothing behind, or the staging file. -/
theorem allOrNothing_giveUp_iff (hnone : files (stagingPath output) = none) (bytes : Bytes)
    (outputs : List (Path × Bytes)) (error : CommandError) :
    Disk.AllOrNothing files outputs ((finishDecryption S output faults
      (.error error)).run (Function.update files (stagingPath output) (some bytes))) ↔
    faults.remove = none := by
  unfold finishDecryption
  cases hremove : faults.remove with
  | some e =>
    apply iff_of_false
    · exact Disk.update_some_ne hnone bytes
    · intro h
      cases h
  | none =>
    apply iff_of_true _ rfl
    show ((Disk.removeFile (stagingPath output) none).run _).2 = files
    rw [Disk.removeFile_new hnone bytes]

/-- The staging file of a run: filled with the plaintext, or with something and an error. -/
theorem fill_staging (files : Files) (read : ObjectDecryption S) :
    let filled := (Disk.fill (stagingPath output) faults.write
      (fun error => fail "decryption failed" (.object (.io error)))
      (fun error => fail "decryption failed" (.io error)) read.staging
      (mapErr (fun error => fail "decryption failed" (.object error)) read.result)).run
        (Function.update files (stagingPath output) (some []))
    (Arrived S faults read ∧ ∃ verified, read.result = .ok verified ∧ filled =
      (.ok verified, Function.update files (stagingPath output) (some read.staging))) ∨
    (¬Arrived S faults read ∧ ∃ error bytes, filled =
      (.error error, Function.update files (stagingPath output) (some bytes))) := by
  intro filled
  by_cases hfits : Fits read.staging faults.write
  · have hfill : filled = (mapErr (fun error => fail "decryption failed" (.object error))
        read.result, Function.update files (stagingPath output) (some read.staging)) :=
      @Disk.fill_of_fits Path _ _ _ files (stagingPath output) _ _ _ _ _ hfits
    rcases hresult : read.result with error | verified
    · right
      rw [hfill, hresult]
      refine ⟨?_, _, _, rfl⟩
      intro harrived
      obtain ⟨⟨verified, hok⟩, -⟩ := harrived
      rw [hresult] at hok
      cases hok
    · left
      rw [hfill, hresult]
      exact ⟨⟨⟨verified, hresult⟩, hfits⟩, verified, rfl, rfl⟩
  · right
    obtain ⟨error, hfill⟩ : ∃ error, filled = (.error error,
        Function.update files (stagingPath output) (some (kept read.staging faults.write))) :=
      @Disk.fill_of_not_fits Path _ _ _ files (stagingPath output) _ _ _ _ _ hfits
    exact ⟨fun harrived => hfits harrived.2, error, _, hfill⟩

theorem allOrNothing_decryptFile_iff :
    Disk.AllOrNothing files (decryptOutputs P S K input secret passphrase output faults files)
      ((decryptFile P S K input secret passphrase output faults).run files) ↔
    DecryptSafe P S K input secret passphrase output faults files := by
  unfold decryptFile DecryptSafe
  rw [Disk.allOrNothing_bind_iff (readOnly_decryptionRun P S K input secret passphrase faults)]
  refine forall_congr' fun read => imp_congr_right fun hread => ?_
  unfold createNew
  rw [Disk.allOrNothing_createNew_iff]
  refine imp_congr_right fun _ => imp_congr_right fun hnone => ?_
  rw [Disk.caught_bind]
  rcases @fill_staging S output faults files read with ⟨harrived, verified, hresult, hfill⟩ |
    ⟨hnot, error, bytes, hfill⟩
  · have houtputs : decryptOutputs P S K input secret passphrase output faults files =
        [(output, read.staging)] := by
      unfold decryptOutputs
      rw [decryptionRun_whole hread hresult]
    rw [hfill, houtputs, allOrNothing_publish_iff hnone]
    exact ⟨fun h => ⟨fun _ => h, fun hnot => absurd harrived hnot⟩, fun h => h.1 harrived⟩
  · rw [hfill, allOrNothing_giveUp_iff hnone]
    exact ⟨fun h => ⟨fun harrived => absurd harrived hnot, fun _ => h⟩, fun h => h.2 hnot⟩

end

/-! ## All commands -/

/-- **What it takes to be all or nothing.** Whatever the files are and whichever steps fail, a
command either adds its complete outputs and nothing else, or fails and changes nothing, exactly
when no step goes wrong that it does not undo. -/
theorem file_commands_all_or_nothing_iff (P : Crypto.Primitives) (S : Sign.Primitives)
    (K : Keyring.Primitives) (files : Files) :
    (∀ accepts input recipients output material seeds faults,
      Disk.AllOrNothing files
        (encryptOutputs P S accepts input recipients output material seeds faults files)
        ((encryptFile P S accepts input recipients output material seeds faults).run files) ↔
      EncryptSafe P S accepts input recipients output material seeds faults files) ∧
    (∀ input secret passphrase output faults,
      Disk.AllOrNothing files (decryptOutputs P S K input secret passphrase output faults files)
        ((decryptFile P S K input secret passphrase output faults).run files) ↔
      DecryptSafe P S K input secret passphrase output faults files) ∧
    (∀ directory name passphrase drawn salt nonce faults,
      Disk.AllOrNothing files (keyOutputs K directory name passphrase drawn salt nonce)
        ((generateKeys K directory name passphrase drawn salt nonce faults).run files) ↔
      KeysSafe K directory name passphrase drawn salt nonce faults files) := by
  refine ⟨?_, ?_, ?_⟩
  · intro accepts input recipients output material seeds faults
    exact allOrNothing_encryptFile_iff
  · intro input secret passphrase output faults
    exact allOrNothing_decryptFile_iff
  · intro directory name passphrase drawn salt nonce faults
    exact allOrNothing_generateKeys_iff

/-! ## Where they are not -/

section Toy

theorem openFile_of_some {path : Path} {files : Files} {content : Bytes}
    (h : files path = some content) :
    ((Disk.openFile path none).run files).1 = .ok (Reader.ofBytes content) := by
  simp only [Disk.openFile, h]
  rfl

theorem readFile_of_le {path : Path} {files : Files} {content : Bytes} {limit : ℕ}
    (h : files path = some content) (hlen : content.length ≤ limit) :
    ((readFile path limit none).run files).1 = .ok content := by
  obtain ⟨after, hread, -⟩ := Reader.readUpTo_of_delivers (Reader.delivers_ofBytes content)
    (limit + 1)
  rw [List.take_of_length_le (hlen.trans (Nat.le_succ limit))] at hread
  refine (Disk.bind_eq_ok ((Disk.readOnly_openFile path none).orFail _)).mpr
    ⟨_, Disk.orFail_eq_ok.mpr (openFile_of_some h), ?_⟩
  show mapErr _ ((Reader.ofBytes content).readUpTo (limit + 1)).1 = .ok content
  rw [hread, mapErr_ok]

theorem loadPublicFile_of_le {accepts : Vector UInt8 publicKeyLength → Bool} {path : Path}
    {files : Files} {content : Bytes} {key : RecipientPublic} (h : files path = some content)
    (hlen : content.length ≤ maxKeyFile) (hload : loadPublic accepts content = .ok key) :
    ((loadPublicFile accepts path none).run files).1 = .ok key :=
  (Disk.bind_eq_ok (readOnly_readFile _ _ _)).mpr ⟨_, readFile_of_le h hlen, hload⟩

theorem loadRecipients_singleton {accepts : Vector UInt8 publicKeyLength → Bool} {path : Path}
    {faults : EncryptFaults} {files : Files} {key : RecipientPublic}
    (hfault : faults.recipients 0 = none)
    (h : ((loadPublicFile accepts path none).run files).1 = .ok key) :
    ((loadRecipients accepts [path] faults).run files).1 = .ok [key] := by
  rw [← hfault] at h
  unfold loadRecipients
  rw [List.zipIdx_singleton, List.mapM_cons, List.mapM_nil]
  exact (Disk.bind_eq_ok (readOnly_loadPublicFile _ _ _)).mpr ⟨key, h, rfl⟩

theorem loadSecretFile_of_le {K : Keyring.Primitives} {path : Path} {passphrase : Option String}
    {files : Files} {content : Bytes} {secret : RecipientSecret} (h : files path = some content)
    (hlen : content.length ≤ maxKeyFile) (hload : loadSecret K content passphrase = .ok secret) :
    ((loadSecretFile K path passphrase none).run files).1 = .ok secret :=
  (Disk.bind_eq_ok (readOnly_readFile _ _ _)).mpr ⟨_, readFile_of_le h hlen, hload⟩

/-- A raw key file is an identity. -/
theorem loadSecret_raw (K : Keyring.Primitives) {seed : Key} (h : inspect seed.toList = .raw)
    (passphrase : Option String) :
    loadSecret K seed.toList passphrase = .ok ((Identity.mk seed).recipientSecret K) := by
  have hlen : seed.toList.length = seedLen := Vector.length_toList
  have hinto : tryInto seedLen seed.toList = some seed := tryInto_toList seed
  have hopen : Keyring.«open» K seed.toList passphrase =
      .ok ((Identity.mk seed).recipientSecret K) := by
    unfold Keyring.«open»
    simp only [h]
    rw [failIf_neg _ (not_not.mpr hlen), ok_bind, hinto, okOr_some, ok_bind]
    rfl
  unfold loadSecret
  rw [readBounded_of_le (by rw [hlen]; decide), ok_bind, failIf_neg _ (by rw [h]; simp), ok_bind,
    hopen, mapErr_ok]

def sampleKeys : Keyring.Primitives := sampleKeyring Crypto.Primitives.toy.aeadOpen

/-- The recipient that the raw key file stands for. -/
def sampleRecipient : RecipientSecret := (Identity.mk sampleSeed).recipientSecret sampleKeys

/-- A folder with an input, a key, and files where the commands want to put theirs. -/
def sampleFolder (input key : Bytes) : Files := fun path =>
  if path = "in".toList then some input
  else if path = "key".toList then some key
  else if path = "out".toList ∨ path = "me.hide-pub".toList then some [9]
  else none

theorem sampleFolder_key (input key : Bytes) : sampleFolder input key "key".toList = some key := by
  unfold sampleFolder
  rw [if_neg (by decide), if_pos rfl]

theorem sampleFolder_none {input key : Bytes} {path : Path} (hinput : path ≠ "in".toList)
    (hkey : path ≠ "key".toList)
    (hother : ¬(path = "out".toList ∨ path = "me.hide-pub".toList)) :
    sampleFolder input key path = none := by
  unfold sampleFolder
  rw [if_neg hinput, if_neg hkey, if_neg hother]

/-- Nothing fails: the public key file is there, and the secret one stays behind. -/
theorem not_keysSafe (input key : Bytes) :
    ¬KeysSafe sampleKeys [] "me".toList none (.ok sampleSeed) (Vector.replicate saltLen 1)
      (Vector.replicate 12 2) {} (sampleFolder input key) := by
  intro hsafe
  have hname : keyName "me".toList = .ok "me".toList := by decide
  have hnone : sampleFolder input key (secretPath [] "me".toList) = none :=
    sampleFolder_none (by decide) (by decide) (by decide)
  have hfree := (hsafe _ hname _ rfl rfl hnone).2.2.1
  cases hfree

/-- Nothing fails: the plaintext replaces what was there. -/
theorem not_decryptSafe {container : Bytes} {verified : VerifiedObject Sign.Primitives.toy}
    (h : (decryptToStaging Crypto.Primitives.toy Sign.Primitives.toy container
      sampleRecipient).result = .ok verified) :
    ¬DecryptSafe Crypto.Primitives.toy Sign.Primitives.toy sampleKeys "in".toList "key".toList none
      "out".toList {} (sampleFolder container sampleSeed.toList) := by
  intro hsafe
  have hread : ((decryptionRun Crypto.Primitives.toy Sign.Primitives.toy sampleKeys "in".toList
      "key".toList none {}).run (sampleFolder container sampleSeed.toList)).1 =
      .ok (decryptToStaging Crypto.Primitives.toy Sign.Primitives.toy container
        sampleRecipient) := by
    have hlen : sampleSeed.toList.length ≤ maxKeyFile := by
      rw [Vector.length_toList]
      decide
    have hload : ((loadSecretFile sampleKeys "key".toList none none).run
        (sampleFolder container sampleSeed.toList)).1 = .ok sampleRecipient :=
      loadSecretFile_of_le (sampleFolder_key _ _) hlen
        (loadSecret_raw sampleKeys (show inspect sampleSeed.toList = .raw by decide) none)
    exact decryptionRun_eq_ok.mpr ⟨sampleRecipient, Reader.ofBytes container, hload,
      Disk.orFail_eq_ok.mpr (openFile_of_some rfl), (decryptFrom_ofBytes _ _).symm⟩
  have hnone : sampleFolder container sampleSeed.toList (stagingPath "out".toList) = none :=
    sampleFolder_none (by decide) (by decide) (by decide)
  obtain ⟨-, hfree⟩ := (hsafe _ hread rfl hnone).1 ⟨⟨verified, h⟩, trivial⟩
  rcases hfree with hsame | hfree
  · exact absurd hsame (by decide)
  · cases hfree

/-- The disk is full when the container is written: what there was room for stays behind. -/
theorem not_encryptSafe (input : Bytes) (error : IoError) :
    ¬EncryptSafe Crypto.Primitives.toy Sign.Primitives.toy (fun _ => true) "in".toList
      ["key".toList] "new".toList sampleMaterial (fun _ => sampleSeed)
      { write := some (.flush 0 error) } (sampleFolder input (toyPublic sampleSeed).toList) := by
  intro hsafe
  have hlen : (toyPublic sampleSeed).toList.length ≤ maxKeyFile := by
    rw [Vector.length_toList]
    decide
  have hload : loadPublic (fun _ => true) (toyPublic sampleSeed).toList =
      .ok ⟨toyPublic sampleSeed⟩ := loadPublic_toyPublic (by decide)
  have hone : ((loadPublicFile (fun _ => true) "key".toList none).run
      (sampleFolder input (toyPublic sampleSeed).toList)).1 = .ok ⟨toyPublic sampleSeed⟩ :=
    loadPublicFile_of_le (sampleFolder_key _ _) hlen hload
  have hrecipients : ((loadRecipients (fun _ => true) ["key".toList]
      { write := some (.flush 0 error) }).run
        (sampleFolder input (toyPublic sampleSeed).toList)).1 = .ok [⟨toyPublic sampleSeed⟩] :=
    loadRecipients_singleton rfl hone
  have hname : fileName "in".toList = some "in".toList := by decide
  have hnone : sampleFolder input (toyPublic sampleSeed).toList "new".toList = none :=
    sampleFolder_none (by decide) (by decide) (by decide)
  exact (hsafe _ (encryptionRun_eq_ok.mpr ⟨by simp, _, _, _, hrecipients, hname,
    Disk.orFail_eq_ok.mpr (openFile_of_some rfl), rfl⟩) rfl hnone).2

/-- Three ways to leave something behind, the last two on a disk that never fails: a container
that did not fit stays as far as it was written, plaintext replaces an existing file, and the
secret key stays when there is a public key of that name. -/
theorem file_commands_leave_traces :
    (∃ files faults, ¬Disk.AllOrNothing files
      (encryptOutputs Crypto.Primitives.toy Sign.Primitives.toy (fun _ => true) "in".toList
        ["key".toList] "new".toList sampleMaterial (fun _ => sampleSeed) faults files)
      ((encryptFile Crypto.Primitives.toy Sign.Primitives.toy (fun _ => true) "in".toList
        ["key".toList] "new".toList sampleMaterial (fun _ => sampleSeed) faults).run files)) ∧
    (∃ files, ¬Disk.AllOrNothing files
      (decryptOutputs Crypto.Primitives.toy Sign.Primitives.toy sampleKeys "in".toList "key".toList
        none "out".toList {} files)
      ((decryptFile Crypto.Primitives.toy Sign.Primitives.toy sampleKeys "in".toList "key".toList
        none "out".toList {}).run files)) ∧
    ∃ files, ¬Disk.AllOrNothing files
      (keyOutputs sampleKeys [] "me".toList none (.ok sampleSeed) (Vector.replicate saltLen 1)
        (Vector.replicate 12 2))
      ((generateKeys sampleKeys [] "me".toList none (.ok sampleSeed) (Vector.replicate saltLen 1)
        (Vector.replicate 12 2) {}).run files) := by
  refine ⟨?_, ?_, ?_⟩
  · refine ⟨sampleFolder [1, 2, 3] (toyPublic sampleSeed).toList,
      { write := some (.flush 0 ⟨28⟩) }, ?_⟩
    rw [allOrNothing_encryptFile_iff]
    exact not_encryptSafe [1, 2, 3] ⟨28⟩
  · have hrun := toy_encryptFor (S := Sign.Primitives.toy) sampleRecipient sampleMaterial sampleSeed
      none [1, 2, 3] empty_valid empty_room (by decide)
    obtain ⟨-, verified, hresult, -⟩ := (encryptFor_readsBack_iff toy_aeadCorrect
      Sign.Primitives.toy_correct (Reader.delivers_ofBytes [1, 2, 3]) production_none hrun
      (toy_listed sampleRecipient sampleSeed)
      (toy_separates sampleRecipient sampleMaterial sampleSeed {} none {} [1, 2, 3])).mpr
      (Or.inl rfl)
    exact ⟨_, mt allOrNothing_decryptFile_iff.mp (not_decryptSafe hresult)⟩
  · refine ⟨sampleFolder [] [], ?_⟩
    rw [allOrNothing_generateKeys_iff]
    exact not_keysSafe [] []

end Toy

end HideProtocol.Desktop
