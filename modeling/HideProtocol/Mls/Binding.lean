import HideProtocol.Identity.Log

/-!
# MLS credentials

A device of an identity joins a group under an MLS key of its own. Its credential carries the
device id, the device's verifying key and the device's signature over the id and the MLS key.
Generating the MLS key and the group protocol are third-party code.
-/

namespace HideProtocol.Mls

open Lib Sign Identity

def bindingContext : Bytes := utf8 "HIDE/0.7 mls binding"

/-- What the HIDE key signs: the device it speaks for and the MLS key it vouches for. -/
def bindingMessage (device : DeviceId) (mlsPublicKey : Bytes) : Bytes :=
  device.toList ++ mlsPublicKey

theorem bindingMessage_inj {device device' : DeviceId} {key key' : Bytes}
    (h : bindingMessage device key = bindingMessage device' key') : device = device' ∧ key = key' :=
  selfDelimiting_vector 32 _ _ _ _ trivial trivial h

/-- The data of the credential `client_with_provider` gives a device for its MLS key. -/
def credentialData (sha256 : Bytes → Hash) (P : Primitives) (device : SigningIdentity)
    (mlsPublicKey : Bytes) : Bytes :=
  let verifying := device.verifyingKey P
  let id := deviceId sha256 verifying
  id.toList ++ verifying.toBytes.toList ++
    (device.sign P bindingContext (bindingMessage id mlsPublicKey)).toList

end HideProtocol.Mls
