import HideProtocol.Cli.Keys
import HideProtocol.Epoch.Codec
import HideProtocol.Epoch.Secrets
import HideProtocol.Keyring.EpochStoreTheorems
import HideProtocol.Lib.Program

/-!
# Epoch commands

`epoch-init`, `epoch-advance` and `epoch-erase` work on two files: the public history of a chain
and the sealed store of its secrets. Each file is staged beside its place and renamed into it, so
one file is replaced at once, but never both. The store goes first, and whatever reads the two
refuses them when they disagree.

What is drawn at random is an argument, and pointers have 64 bits. File system errors are left
out, except for files that are missing.
-/

namespace HideProtocol.Cli

open Lib Crypto Keyring Epoch

def maxLogFile : ℕ := 16 * 1024 * 1024

def hexDigit (n : ℕ) : Char := "0123456789abcdef".toList.getD n '0'

def shortHex (bytes : Bytes) : String :=
  String.ofList ((bytes.take 8).flatMap fun b => [hexDigit (b.toNat / 16), hexDigit (b.toNat % 16)])

/-- The two files of the epoch commands. -/
inductive EpochFile where
  | history
  | store
deriving DecidableEq

abbrev Files := Cells EpochFile Bytes

/-- A program over the two files. -/
abbrev EpochProgram := Program EpochFile Bytes CliError

/-- What a command draws at random: a secret, and the salt and nonces of a store. -/
structure Drawn where
  secret : Except String RecipientSecret
  salt : Except KeyringError (Vector UInt8 saltLen)
  nonce : ℕ → Except KeyringError Nonce

section
variable (K : Keyring.Primitives) (passphrase chainPath storePath : String)

/-! ## Writing and reading the two files -/

/-- The store that `seal_chain` fills. -/
def storeOf (chain : EpochChain) : Except KeyringError EpochStore :=
  chain.held.foldlM (fun store item => store.insert item.1 item.2) (EpochStore.new chain.head)

/-- Seals whatever secrets `chain` still holds, bound to its current head. -/
def sealChain (chain : EpochChain) (drawn : Drawn) : Except CliError Bytes := do
  let store ← mapErr .keyring (storeOf chain)
  mapErr .keyring (store.seal K passphrase drawn.salt drawn.nonce)

/-- The first half of `load_epochs`: the records of a history file. -/
def readHistory (file : Option Bytes) : Except CliError (List EpochRecord) := do
  let file ← okOr file (.notFound chainPath)
  let bytes ← readBounded chainPath file maxLogFile
  let records ← mapErr .epoch (decodeRecords bytes)
  mapErr .epoch (verify K.crypto.sha256 records)
  pure records

/-- The second half of `load_epochs`: opens the store and refuses any disagreement. -/
def joinStore (records : List EpochRecord) (file : Option Bytes) :
    Except CliError EpochChain := do
  let file ← okOr file (.notFound storePath)
  let bytes ← readBounded storePath file Store.maxFileLen
  let store ← mapErr .keyring (EpochStore.«open» K bytes passphrase)
  let head := chainHead records
  failIf (store.chainHead ≠ head)
    (.message (storePath ++ " was sealed for epoch history " ++ shortHex store.chainHead.toList ++
      ", but " ++ chainPath ++ " is at " ++ shortHex head.toList ++
      "; they do not belong together"))
  mapErr .epoch (EpochChain.restore K.crypto 64 records store.entries)

/-- Opens the store and the history together. -/
def loadEpochs : EpochProgram EpochChain := do
  let history ← Program.get .history
  let records ← Program.done (readHistory K chainPath history)
  let store ← Program.get .store
  Program.done (joinStore K passphrase chainPath storePath records store)

/-- Refuses a place that is taken. -/
def newOutput (file : EpochFile) : EpochProgram Unit := do
  let existing ← Program.get file
  Program.done (failIf (existing.isSome = true)
    (.message "output already exists; refusing to overwrite"))

/-- Publishes a staged file without replacing one. -/
def commitOutput (file : EpochFile) (bytes : Bytes) : EpochProgram Unit :=
  .create file bytes fun created =>
    .done (failIf (created = false) (.message "could not publish output without overwriting"))

/-- Writes a store or a history, replacing it if present. -/
def writePublicFile (file : EpochFile) (bytes : Bytes) : EpochProgram Unit := Program.put file bytes

/-! ## The commands -/

def epochInitWith (drawn : Drawn) : EpochProgram Unit := do
  newOutput .history
  newOutput .store
  let chain ← Program.done (mapErr .epoch (EpochChain.new K.crypto drawn.secret))
  let sealed ← Program.done (sealChain K passphrase chain drawn)
  -- the store first: a history must not name a key whose secret was never saved
  commitOutput .store sealed
  commitOutput .history (encodeRecords chain.records)

def epochAdvanceWith (drawn : Drawn) : EpochProgram Unit := do
  let chain ← loadEpochs K passphrase chainPath storePath
  let (number, chain) := chain.advance K.crypto drawn.secret
  let _ ← Program.done (mapErr .epoch number)
  let sealed ← Program.done (sealChain K passphrase chain drawn)
  writePublicFile .store sealed
  writePublicFile .history (encodeRecords chain.records)

def epochEraseWith (number : EpochNumber) (drawn : Drawn) : EpochProgram Unit := do
  let chain ← loadEpochs K passphrase chainPath storePath
  let _ ← Program.done (mapErr .epoch (chain.publicKey 64 number))
  Program.done (failIf (number = chain.current)
    (.message ("epoch " ++ toString number ++
      " is current and senders still encrypt to it; run `epoch-advance` first")))
  Program.done (failIf (chain.isReadable 64 number = false)
    (.message ("epoch " ++ toString number ++ " was already erased")))
  let (erased, chain) := chain.erase 64 number
  Program.done (mapErr .epoch erased)
  let sealed ← Program.done (sealChain K passphrase chain drawn)
  -- replacing the file is what takes the epoch out of storage
  writePublicFile .store sealed

/-- One command with its arguments. -/
inductive EpochCommand where
  | init (drawn : Drawn)
  | advance (drawn : Drawn)
  | erase (number : EpochNumber) (drawn : Drawn)

def EpochCommand.program : EpochCommand → EpochProgram Unit
  | init drawn => epochInitWith K passphrase drawn
  | advance drawn => epochAdvanceWith K passphrase chainPath storePath drawn
  | erase number drawn => epochEraseWith K passphrase chainPath storePath number drawn

/-! ## Runs and crashes -/

/-- The files, and the epochs for which an erase has replaced the store. -/
structure EpochWorld where
  files : Files
  erased : List EpochNumber

/-- Before the first command. -/
def EpochWorld.fresh : EpochWorld := ⟨fun _ => none, []⟩

/-- The epochs that a command has erased once it has replaced a file. -/
def EpochCommand.erases : EpochCommand → List EpochNumber
  | erase number _ => [number]
  | _ => []

/-- A run of one command that completes, or crashes after `limit` replacements. -/
def EpochWorld.run (world : EpochWorld) (command : EpochCommand) (limit : ℕ) : EpochWorld :=
  let program := command.program K passphrase chainPath storePath
  { files := program.stop limit world.files
    erased :=
      if ((program.writes world.files).take limit).isEmpty = true then world.erased
      else command.erases ++ world.erased }

/-- One command after the other. -/
def EpochWorld.runs (world : EpochWorld) (commands : List (EpochCommand × ℕ)) : EpochWorld :=
  commands.foldl (fun world command =>
    world.run K passphrase chainPath storePath command.1 command.2) world

end

end HideProtocol.Cli
