import HideProtocol.Crypto.Suite

/-!
# Public keys of recipients

Every surface reads recipients from bytes. HPKE checks the length, and what else it does; the
X25519 half must not be a point of small order, nor any other spelling of one.
-/

namespace HideProtocol.Crypto

open Lib

/-- The X25519 half stands behind the ML-KEM-768 half. -/
def x25519Offset : ℕ := 1184

/-- Curve25519 points of order below eight. -/
def smallOrderPoints : List Bytes := [
  List.replicate 32 0,
  1 :: List.replicate 31 0,
  [224, 235, 122, 124, 59, 65, 184, 174, 22, 86, 227, 250, 241, 159, 196, 106, 218, 9, 141,
    235, 156, 50, 177, 253, 134, 98, 5, 22, 95, 73, 184, 0],
  [95, 156, 149, 188, 163, 80, 140, 36, 177, 208, 177, 85, 156, 131, 239, 91, 4, 68, 92, 196,
    88, 28, 142, 134, 216, 34, 78, 221, 208, 159, 17, 87],
  236 :: (List.replicate 30 255 ++ [127]),
  237 :: (List.replicate 30 255 ++ [127]),
  238 :: (List.replicate 30 255 ++ [127])]

/-- Bit 255 is clear and the little-endian value is below the modulus. -/
def isCanonicalX25519 (bytes : Vector UInt8 32) : Bool :=
  if bytes.get 31 &&& 0x80 ≠ 0 then false
  else
    let atLeastP := bytes.get 31 = 0x7f ∧ ((bytes.toList.drop 1).take 30).all (· = 0xff) = true ∧
      bytes.get 0 ≥ 0xed
    !decide atLeastP

/-- Reads a public key; `accepts` is what HPKE checks of it beside its length. -/
def RecipientPublic.fromBytes (accepts : Vector UInt8 publicKeyLength → Bool) (bytes : Bytes) :
    Except CryptoError RecipientPublic := do
  let key ← okOr (tryInto publicKeyLength bytes) .hpke
  failIf (!accepts key) .hpke
  let x25519 ← okOr (tryInto 32 (bytes.drop x25519Offset)) .degeneratePublicKey
  failIf (x25519.toList ∈ smallOrderPoints) .degeneratePublicKey
  failIf (!isCanonicalX25519 x25519) .degeneratePublicKey
  pure ⟨key⟩

/-- A key that is read is the bytes it was read from. -/
theorem bytes_of_fromBytes {accepts : Vector UInt8 publicKeyLength → Bool} {bytes : Bytes}
    {recipient : RecipientPublic} (h : RecipientPublic.fromBytes accepts bytes = .ok recipient) :
    bytes = recipient.key.toList := by
  unfold RecipientPublic.fromBytes at h
  obtain ⟨key, hkey, h⟩ := bind_eq_ok.mp h
  obtain ⟨_, -, h⟩ := bind_eq_ok.mp h
  obtain ⟨_, -, h⟩ := bind_eq_ok.mp h
  obtain ⟨_, -, h⟩ := bind_eq_ok.mp h
  obtain ⟨_, -, h⟩ := bind_eq_ok.mp h
  rw [pure_eq_ok.mp h]
  exact tryInto_eq_some (okOr_eq_ok.mp hkey)

/-- A reader of single keys reads the keys of a list that were laid out. -/
theorem recipients_of_mapM {ε : Type} {read : Bytes → Except ε RecipientPublic}
    (hread : ∀ bytes recipient, read bytes = .ok recipient → bytes = recipient.key.toList)
    {keys : List (Vector UInt8 publicKeyLength)} {recipients : List RecipientPublic}
    (h : (keys.map Vector.toList).mapM read = .ok recipients) :
    recipients = keys.map RecipientPublic.mk := by
  induction keys generalizing recipients with
  | nil => exact pure_eq_ok.mp h
  | cons key keys ih =>
    rw [List.map_cons, List.mapM_cons] at h
    obtain ⟨recipient, hfirst, h⟩ := bind_eq_ok.mp h
    obtain ⟨recipients', hmore, h⟩ := bind_eq_ok.mp h
    have hkey : key = recipient.key := Vector.toList_inj.mp (hread _ _ hfirst)
    rw [pure_eq_ok.mp h, ih hmore, List.map_cons, hkey]

/-! ## The toy instance -/

theorem toyPublic_toList (seed : Key) :
    (toyPublic seed).toList = seed.toList ++ List.replicate 1184 9 :=
  (Vector.toList_append ..).trans (by rw [Vector.toList_replicate])

/-- The key of the toy instance passes every check. -/
theorem fromBytes_toyPublic (seed : Key) :
    RecipientPublic.fromBytes (fun _ => true) (toyPublic seed).toList = .ok ⟨toyPublic seed⟩ := by
  have hseed : seed.toList.length = 32 := Vector.length_toList
  have hinto : tryInto publicKeyLength (toyPublic seed).toList = some (toyPublic seed) :=
    tryInto_toList _
  have hhalf : tryInto 32 ((toyPublic seed).toList.drop x25519Offset) =
      some (Vector.replicate 32 9) := by
    rw [toyPublic_toList, List.drop_append, hseed, List.drop_replicate,
      List.drop_of_length_le (by rw [hseed]; decide), List.nil_append]
    exact tryInto_toList (Vector.replicate 32 9)
  unfold RecipientPublic.fromBytes
  rw [hinto, okOr_some, ok_bind, failIf_neg _ (by simp), ok_bind, hhalf, okOr_some, ok_bind,
    failIf_neg _ (by decide), ok_bind, failIf_neg _ (by decide), ok_bind]
  rfl

end HideProtocol.Crypto
