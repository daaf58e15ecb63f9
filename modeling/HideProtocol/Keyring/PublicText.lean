import HideProtocol.Keyring.KeyFile
import HideProtocol.Lib.Armor
import HideProtocol.Lib.Base64

/-!
# Public keys as text

A public key can be pasted into a message: a marker line and the key in base64, in lines of 64
characters.
-/

namespace HideProtocol.Keyring

open Lib

def publicMarker : Text := "hide-public-key:".toList

def encodePublic (bytes : Bytes) : Text :=
  publicMarker ++ (chunks 64 (Base64.encode bytes)).flatMap (fun chunk => '\n' :: chunk) ++ ['\n']

def decodePublic (text : Text) : Except KeyringError Bytes :=
  let body := ((lines text).filter fun line =>
    trim line ≠ [] ∧ ¬publicMarker.isPrefixOf line).flatten
  okOr (Base64.decode (trim body)) .malformed

/-- The bytes of a public key file, raw or pasted. -/
def publicBytes {ε : Type} (notText : ε) (undecodable : KeyringError → ε) (file : Bytes) :
    Except ε Bytes :=
  if (utf8 "hide-public-key:").isPrefixOf file then do
    let text ← okOr (textFromUtf8 file) notText
    mapErr undecodable (decodePublic text)
  else pure file

/-- A file that does not start like the marker is raw. -/
theorem publicBytes_of_head {ε : Type} {file : Bytes} (h : file.head? ≠ some 0x68) (notText : ε)
    (undecodable : KeyringError → ε) : publicBytes notText undecodable file = .ok file := by
  have hraw : ¬(utf8 "hide-public-key:").isPrefixOf file = true := by
    intro hprefix
    obtain ⟨rest, rfl⟩ := List.isPrefixOf_iff_prefix.mp hprefix
    apply h
    rfl
  exact if_neg hraw

end HideProtocol.Keyring
