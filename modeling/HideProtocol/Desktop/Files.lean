import HideProtocol.Desktop.Keys
import HideProtocol.Lib.Disk
import HideProtocol.Lib.Paths
import HideProtocol.Object.Container

/-!
# File commands of the desktop application

Every command reads files, computes in memory and writes files, and any of these steps may fail.
How the steps of a run fail is an argument, one field for each step.
-/

namespace HideProtocol.Desktop

open Lib Format Crypto Keyring

abbrev Files := Cells Path Bytes

/-- What a command does to the files. -/
abbrev Command (α : Type) := Disk Path Bytes CommandError α

/-- What `read_bounded` reads of a file: one byte more than it accepts. -/
def readFile (path : Path) (limit : ℕ) (fault : Option ReadFault) : Command Bytes := do
  let file ← (Disk.openFile path fault).orFail fun error =>
    fail "could not open the file" (.io error)
  Disk.lift (mapErr (fun error => fail "could not read the file" (.io error))
    (file.readUpTo (limit + 1)).1)

/-- `load_public` on a path. -/
def loadPublicFile (accepts : Vector UInt8 publicKeyLength → Bool) (path : Path)
    (fault : Option ReadFault) : Command RecipientPublic := do
  let file ← readFile path maxKeyFile fault
  Disk.lift (loadPublic accepts file)

/-- `load_secret` on a path. -/
def loadSecretFile (K : Keyring.Primitives) (path : Path) (passphrase : Option String)
    (fault : Option ReadFault) : Command RecipientSecret := do
  let file ← readFile path maxKeyFile fault
  Disk.lift (loadSecret K file passphrase)

/-- The input of a command. -/
def openInput (path : Path) (fault : Option ReadFault) : Command Reader :=
  (Disk.openFile path fault).orFail fun error => fail "could not open the input" (.io error)

/-- Refuses to overwrite. -/
def createNew (path : Path) (fault : Option IoError) : Command Unit :=
  (Disk.createNew path fault).orFail fun error =>
    if error = .alreadyExists then .message "that file already exists; choose another name"
    else fail "could not create the file" (.io error)

/-! ## Generating keys -/

structure KeyPair where
  publicPath : Path
  secretPath : Path
  armoredPublic : Text
  isProtected : Bool
deriving DecidableEq

structure KeyFaults where
  createSecret : Option IoError := none
  writeSecret : Option WriteFault := none
  createPublic : Option IoError := none
  writePublic : Option WriteFault := none

/-- A name that cannot escape the chosen directory. -/
def keyName (name : Text) : Except CommandError Text := do
  let name := trim name
  failIf (name = []) (.message "choose a name for the key")
  failIf ((name.any fun c => c ∈ ['/', '\\', ':']) ∨ name.head? = some '.')
    (.message "the name may not contain a path or start with a dot")
  pure name

section
variable (K : Keyring.Primitives)

/-- The contents of the secret and the public key file, for a seed that was drawn. -/
def newKeys (passphrase : Option String) (drawn : Except KeyringError Key)
    (salt : Vector UInt8 saltLen) (nonce : Nonce) : Except CommandError (Bytes × Bytes) := do
  let seed ← mapErr .keyring drawn
  let publicKey := ((Identity.mk seed).recipientSecret K).publicKey K.crypto
  let sealed ← match passphrase with
    | some passphrase => mapErr .keyring (protectIdentity K seed passphrase salt nonce)
    | none => pure seed.toList
  pure (sealed, publicKey.key.toList)

def secretPath (directory name : Path) : Path := join directory (name ++ ".hide-key".toList)
def publicPath (directory name : Path) : Path := join directory (name ++ ".hide-pub".toList)

/-- A key file, written and synchronised. -/
def writeKey (context : String) (path : Path) (fault : Option WriteFault) (bytes : Bytes) :
    Command Unit :=
  let failed (error : IoError) := fail context (.io error)
  Disk.fill path fault failed failed bytes (.ok ())

/-- The secret key is written first, and nothing is taken back. -/
def generateKeys (directory : Path) (name : Text) (passphrase : Option String)
    (drawn : Except KeyringError Key) (salt : Vector UInt8 saltLen) (nonce : Nonce)
    (faults : KeyFaults) : Command KeyPair := do
  let name ← Disk.lift (keyName name)
  let (sealed, publicKey) ← Disk.lift (newKeys K passphrase drawn salt nonce)
  createNew (secretPath directory name) faults.createSecret
  writeKey "could not write the secret key" (secretPath directory name) faults.writeSecret sealed
  createNew (publicPath directory name) faults.createPublic
  writeKey "could not write the public key" (publicPath directory name) faults.writePublic publicKey
  pure { publicPath := publicPath directory name, secretPath := secretPath directory name
         armoredPublic := encodePublic publicKey, isProtected := passphrase.isSome }

end

/-! ## Encrypting -/

structure EncryptFaults where
  recipients : ℕ → Option ReadFault := fun _ => none
  input : Option ReadFault := none
  create : Option IoError := none
  write : Option WriteFault := none

section
variable (P : Crypto.Primitives) (S : Sign.Primitives)

/-- What `encrypt_file` reads before it creates the output, and the run of the core on it. -/
def encryptionRun (accepts : Vector UInt8 publicKeyLength → Bool) (input : Path)
    (recipients : List Path) (material : Object.ObjectMaterial) (seeds : ℕ → Key)
    (faults : EncryptFaults) : Command Object.ObjectEncryption := do
  Disk.lift (failIf (recipients = [] ∨ recipients.length > 64)
    (.message "choose between 1 and 64 recipients"))
  let recipients ← recipients.zipIdx.mapM fun recipient =>
    loadPublicFile accepts recipient.1 (faults.recipients recipient.2)
  let filename ← Disk.lift (okOr (fileName input)
    (.message "that filename cannot be represented as text"))
  let source ← openInput input faults.input
  pure (Object.encrypt P S source (Object.withSeeds seeds recipients)
    { filename := some (String.ofList filename) } material)

/-- Returns what is shown to the person. -/
def encryptFile (accepts : Vector UInt8 publicKeyLength → Bool) (input : Path)
    (recipients : List Path) (output : Path) (material : Object.ObjectMaterial) (seeds : ℕ → Key)
    (faults : EncryptFaults) : Command String := do
  let run ← encryptionRun P S accepts input recipients material seeds faults
  createNew output faults.create
  let written ← Disk.fill output faults.write
    (fun error => fail "encryption failed" (.object (.io error)))
    (fun error => fail "encryption failed" (.io error)) run.output
    (mapErr (fun error => fail "encryption failed" (.object error)) run.result)
  pure ("Encrypted " ++ toString written ++ " bytes for " ++ toString recipients.length ++
    " recipient(s).")

/-! ## Decrypting -/

structure DecryptFaults where
  secret : Option ReadFault := none
  input : Option ReadFault := none
  create : Option IoError := none
  write : Option WriteFault := none
  rename : Option IoError := none
  remove : Option IoError := none

/-- An input that stops with an error where it should have gone on. -/
def stopped (error : IoError) : Object.ObjectError → Object.ObjectError
  | .unexpectedEof | .truncatedPayload => .io error
  | other => other

/-- `decrypt_to_staging` on a reader. Up to an error of the reader it goes like a run on what the
reader hands out. -/
def decryptFrom (source : Reader) (secret : RecipientSecret) : Object.ObjectDecryption S :=
  match source.arrives with
  | (bytes, none) => Object.decryptToStaging P S bytes secret
  | (bytes, some error) =>
    match Object.openHeader P bytes secret with
    | .error e => { result := .error (stopped error e) }
    | .ok opened =>
      let key := Object.payloadKey P opened.cek opened.header.objectId opened.salt
      let records := Object.decryptRecords P key opened.header.objectId
        (hash P [opened.protectedBytes]) opened.payload
      match records.result with
      | .error e => { staging := records.staging, result := .error (stopped error e) }
      | .ok n =>
        -- the read behind the last record fails, and its chunk is not written
        { staging := records.staging.take ((n - 1) / chunkLen * chunkLen)
          result := .error (.io error) }

/-- The name under which `output` is written. -/
def stagingPath (output : Path) : Path := withExtension output "hide-part".toList

/-- What `decrypt_file` reads before it creates its staging file, and the run of the core on it. -/
def decryptionRun (K : Keyring.Primitives) (input secret : Path) (passphrase : Option String)
    (faults : DecryptFaults) : Command (Object.ObjectDecryption S) := do
  let secret ← loadSecretFile K secret passphrase faults.secret
  let source ← openInput input faults.input
  pure (decryptFrom P S source secret)

/-- Publishes the staging file, or removes it. A failed removal goes unnoticed. -/
def finishDecryption (output : Path) (faults : DecryptFaults) :
    Except CommandError (Object.VerifiedObject S) → Command String
  | .ok verified => do
    (Disk.rename (stagingPath output) output faults.rename).orFail fun error =>
      fail "could not publish the output" (.io error)
    pure ("Verified " ++ toString verified.plaintextLen ++ " bytes. Original name: " ++
      verified.metadata.filename.getD "(no original name)" ++
      ". The sender is NOT authenticated.")
  | .error error => do
    let _ ← (Disk.removeFile (stagingPath output) faults.remove).caught
    Disk.lift (.error error)

/-- Decrypts beside the target and publishes once the last record has authenticated. -/
def decryptFile (K : Keyring.Primitives) (input secret : Path) (passphrase : Option String)
    (output : Path) (faults : DecryptFaults) : Command String := do
  let read ← decryptionRun P S K input secret passphrase faults
  createNew (stagingPath output) faults.create
  let result ← (Disk.fill (stagingPath output) faults.write
    (fun error => fail "decryption failed" (.object (.io error)))
    (fun error => fail "decryption failed" (.io error)) read.staging
    (mapErr (fun error => fail "decryption failed" (.object error)) read.result)).caught
  finishDecryption S output faults result

end

end HideProtocol.Desktop
