import HideProtocol.Desktop.Keys
import HideProtocol.Lib.Armor
import HideProtocol.Lib.Base64
import HideProtocol.Object.Container

/-!
# Messages in the desktop application

A message is sealed in memory and handed out as armored text, to be pasted somewhere else.
-/

namespace HideProtocol.Desktop

open Lib Crypto Keyring

/-- Messages are held in memory, so they are bounded well below file size. -/
def maxMessageLen : ℕ := 1 <<< 20

def messageHeader : Text := "----- BEGIN HIDE MESSAGE -----".toList
def messageFooter : Text := "----- END HIDE MESSAGE -----".toList

section
variable (P : Crypto.Primitives) (S : Sign.Primitives)

/-- Seals `message` for the keys in the files `recipients`. -/
def sealMessage (accepts : Vector UInt8 publicKeyLength → Bool) (message : String)
    (recipients : List Bytes) (material : Object.ObjectMaterial) (seeds : ℕ → Key) :
    Except CommandError Text := do
  failIf (utf8 message = []) (.message "write a message first")
  failIf ((utf8 message).length > maxMessageLen)
    (.message "that message is too long; encrypt it as a file instead")
  failIf (recipients = [] ∨ recipients.length > 64)
    (.message "choose between 1 and 64 recipients")
  let recipients ← recipients.mapM (loadPublic accepts)
  let run := Object.encrypt P S (Reader.ofBytes (utf8 message))
    (Object.withSeeds seeds recipients) { mediaType := some "text/plain" } material
  let _ ← mapErr (fun error => fail "encryption failed" (.object error)) run.result
  -- the base64 text is cut into lines of 76 characters
  pure (armor messageHeader messageFooter 76 (Base64.encode run.output))

def unsealMessage (K : Keyring.Primitives) (armored : Text) (secret : Bytes)
    (passphrase : Option String) : Except CommandError String := do
  let body := dearmor messageHeader messageFooter armored
  failIf (body = []) (.message "no HIDE message found in that text")
  let container ← okOr (Base64.decode body) (.message "that message is damaged or incomplete")
  let secret ← loadSecret K secret passphrase
  let read := Object.decryptToStaging P S container secret
  let _ ← mapErr (fun error => fail "decryption failed" (.object error)) read.result
  okOr (fromUtf8 read.staging)
    (.message "this is not a text message; open it as a file instead")

end

end HideProtocol.Desktop
