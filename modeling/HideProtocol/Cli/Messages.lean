import HideProtocol.Cli.Keys
import HideProtocol.Crypto.PublicKeys
import HideProtocol.Keyring.PublicText
import HideProtocol.Object.Container

/-!
# Messages on the command line

`hide seal` writes a message as armored text and `hide unseal` reads one, from a file or from
standard input; both are the bytes that arrive. What is printed around a message is left out.
-/

namespace HideProtocol.Cli

open Lib Crypto Keyring

/-- `Box<dyn Error>`, for commands that encrypt. -/
inductive MessageError where
  | cli (error : CliError)
  | object (error : Object.ObjectError)
deriving DecidableEq

/-- The most bytes of armored text that are read. -/
def maxArmoredMessage : ℕ := 1024 * 1024

def messageHeader : Text := "----- BEGIN HIDE MESSAGE -----".toList
def messageFooter : Text := "----- END HIDE MESSAGE -----".toList

/-- Reads a file or standard input whose content is `input`. -/
def readArmoredMessage (input : Bytes) : Except CliError Text := do
  let bytes := input.take (maxArmoredMessage + 1)
  failIf (bytes.length > maxArmoredMessage)
    (.message "that armored message is larger than 1 MiB; use `open` instead")
  okOr (textFromUtf8 bytes) (.message "an armored message must be valid UTF-8")

def loadRecipient (accepts : Vector UInt8 publicKeyLength → Bool) (path : String) (file : Bytes) :
    Except CliError RecipientPublic := do
  let bytes ← readBounded path file maxKeyFile
  let raw ← publicBytes (.message "armored public key is not valid UTF-8") .keyring bytes
  failIf (raw.length ≠ publicKeyLength)
    (.message (path ++ " is not a HIDE public key (" ++ toString raw.length ++
      " bytes, expected " ++ toString publicKeyLength ++ ")"))
  mapErr .crypto (RecipientPublic.fromBytes accepts raw)

/-- The keys in files, each given by its path and its content. -/
def loadRecipients (accepts : Vector UInt8 publicKeyLength → Bool)
    (recipients : List (String × Bytes)) : Except CliError (List RecipientPublic) := do
  failIf (recipients = [] ∨ recipients.length > 64)
    (.message "recipient count must be between 1 and 64")
  recipients.mapM fun (path, file) => loadRecipient accepts path file

/-- Lines of 76 characters. -/
def armorMessage (container : Bytes) : Text :=
  armor messageHeader messageFooter 76 (Base64.encode container)

def dearmorMessage (text : Text) : Except CliError Bytes := do
  let body := dearmor messageHeader messageFooter text
  failIf (body = []) (.message "no HIDE message found in the input")
  okOr (Base64.decode body) (.message "message body is not valid base64")

section
variable (P : Crypto.Primitives) (S : Sign.Primitives)

/-- The text that is written or printed. -/
def sealMessage (accepts : Vector UInt8 publicKeyLength → Bool) (message : String)
    (recipients : List (String × Bytes)) (material : Object.ObjectMaterial) (seeds : ℕ → Key) :
    Except MessageError Text := do
  let recipients ← mapErr .cli (loadRecipients accepts recipients)
  failIf (utf8 message = []) (.cli (.message "refusing to seal an empty message"))
  let run := Object.encrypt P S (Reader.ofBytes (utf8 message))
    (Object.withSeeds seeds recipients) { mediaType := some "text/plain" } material
  let _ ← mapErr .object run.result
  pure (armorMessage run.output)

/-- The message that is printed. -/
def unsealMessage (K : Keyring.Primitives) (input : Bytes) (path : String) (secret : Bytes)
    (answer : Option String) : Except MessageError String := do
  let text ← mapErr .cli (readArmoredMessage input)
  let container ← mapErr .cli (dearmorMessage text)
  let secret ← mapErr .cli (loadSecretAsking K path secret answer)
  let read := Object.decryptToStaging P S container secret
  let _ ← mapErr .object read.result
  okOr (fromUtf8 read.staging)
    (.cli (.message "message decrypted but is not valid UTF-8; use `open` instead"))

end

end HideProtocol.Cli
