import HideProtocol.Crypto.PublicKeys
import HideProtocol.Keyring.PublicText
import HideProtocol.Object.Records

/-!
# Keys in the desktop application

The commands of the application load keys from files that the person chose, here given by what
was read of them. Errors are texts shown to a person; an error of the core or of the file system
stands for its own.
-/

namespace HideProtocol.Desktop

open Lib Crypto Keyring

def maxKeyFile : ℕ := 4096

inductive CommandError where
  | message (text : String)
  | keyring (error : KeyringError)
  | crypto (error : CryptoError)
  | object (error : Object.ObjectError)
  | io (error : IoError)
  /-- The error behind what was being done, and a colon. -/
  | during (context : String) (error : CommandError)
deriving DecidableEq

def fail (context : String) (error : CommandError) : CommandError := .during context error

/-- Reads a file whose content is `file`. -/
def readBounded (file : Bytes) (limit : ℕ) : Except CommandError Bytes := do
  let bytes := file.take (limit + 1)
  failIf (bytes.length > limit) (.message "that file is too large to be a HIDE key")
  pure bytes

theorem readBounded_of_le {file : Bytes} {limit : ℕ} (h : file.length ≤ limit) :
    readBounded file limit = .ok file := by
  unfold readBounded
  rw [List.take_of_length_le (by omega)]
  simp only []
  rw [failIf_neg _ (by omega)]
  rfl

def loadPublic (accepts : Vector UInt8 publicKeyLength → Bool) (file : Bytes) :
    Except CommandError RecipientPublic := do
  let bytes ← readBounded file maxKeyFile
  let raw ← publicBytes (.message "that public key file is not valid text")
    (fun error => fail "public key" (.keyring error)) bytes
  failIf (raw.length ≠ publicKeyLength) (.message "that file is not a HIDE public key")
  mapErr (fun error => fail "public key" (.crypto error)) (RecipientPublic.fromBytes accepts raw)

/-- The key of the toy instance, from a raw file. -/
theorem loadPublic_toyPublic {seed : Key} (h : seed.toList.head? ≠ some 0x68) :
    loadPublic (fun _ => true) (toyPublic seed).toList = .ok ⟨toyPublic seed⟩ := by
  have hlen : (toyPublic seed).toList.length = publicKeyLength := Vector.length_toList
  have hhead : (toyPublic seed).toList.head? ≠ some 0x68 := by
    rw [toyPublic_toList, List.head?_append_of_ne_nil _ (by
      rw [← List.length_pos_iff, Vector.length_toList]
      decide)]
    exact h
  unfold loadPublic
  rw [readBounded_of_le (by rw [hlen]; decide), ok_bind, publicBytes_of_head hhead, ok_bind,
    failIf_neg _ (not_not.mpr hlen), ok_bind]
  exact mapErr_eq_ok.mpr (fromBytes_toyPublic seed)

/-- Goes through `Keyring.open`, so that a key file means what it means everywhere else. -/
def loadSecret (K : Keyring.Primitives) (file : Bytes) (passphrase : Option String) :
    Except CommandError RecipientSecret := do
  let bytes ← readBounded file maxKeyFile
  failIf (inspect bytes = .protected ∧ passphrase.isNone)
    (.message "this key is protected; enter its passphrase")
  mapErr .keyring (Keyring.«open» K bytes passphrase)

end HideProtocol.Desktop
