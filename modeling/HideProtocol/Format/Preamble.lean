import HideProtocol.Lib.Parser

/-!
# The container preamble

The first 16 bytes of a container: magic, major 0, minor, object kind 1, flags and the
length of the header that follows. `Preamble.fromParts` is the only way to build one, on
the way out as on the way in, so the checks it makes are fields of the structure.
-/

namespace HideProtocol.Format

open Lib

/-! ## Protocol limits -/

/-- `HIDE\r\n\x1a\n`. -/
def magic : Bytes := [0x48, 0x49, 0x44, 0x45, 13, 10, 26, 10]

def preambleLen : ℕ := 16
def maxHeaderLen : ℕ := 1024 * 1024
def chunkLen : ℕ := 65536
def suite : ℕ := 1
def maxRecipients : ℕ := 64
def maxSignatures : ℕ := 1
def maxMetadataLen : ℕ := 262144
def tagLen : ℕ := 16

/-- The one flag that is defined. Every flag bit is critical. -/
def flagSigned : UInt8 := 0x01

/-- HIDE/0.5 through 0.8 marked a signed container by this minor. -/
def legacySignedMinor : UInt8 := 2

/-- The minor a HIDE/1.0 writer emits. -/
def currentMinor : UInt8 := 1

def maxExtensions : ℕ := 16
def maxExtensionLen : ℕ := 65536
def firstIgnorableKey : ℕ := 64
def maxStanzaItems : ℕ := 8

inductive FormatError where
  | malformedHeader
  | nonCanonical
  | unsupportedSuite
  | invalidMetadata
  | invalidContainer
  | unsupportedVersion
  | unsupportedFeature
  | headerTooLarge
deriving DecidableEq, Repr

/-- The text of an error. -/
def FormatError.display : FormatError → String
  | malformedHeader => "malformed HIDE header"
  | nonCanonical => "noncanonical CBOR encoding"
  | unsupportedSuite => "unsupported cryptographic suite"
  | invalidMetadata => "invalid file metadata"
  | invalidContainer => "invalid HIDE container"
  | unsupportedVersion => "unsupported HIDE version"
  | unsupportedFeature => "unsupported HIDE object kind or flags"
  | headerTooLarge => "header length is outside protocol limits"

/-! ## The preamble -/

/-- A preamble that passed the checks of `fromParts`. -/
structure Preamble where
  headerLen : ℕ
  minor : UInt8
  flags : UInt8
  minor_ne_zero : minor ≠ 0
  flags_known : ¬(flags &&& ~~~flagSigned ≠ 0 ∨ (minor = legacySignedMinor ∧ flags ≠ 0))
  headerLen_ok : ¬(headerLen = 0 ∨ headerLen > maxHeaderLen)
deriving DecidableEq

namespace Preamble

/-- Validates exactly as `decode` does. -/
def fromParts (headerLen : ℕ) (minor flags : UInt8) : Except FormatError Preamble :=
  if hm : minor = 0 then .error .unsupportedVersion
  else if hf : flags &&& ~~~flagSigned ≠ 0 ∨ (minor = legacySignedMinor ∧ flags ≠ 0) then
    .error .unsupportedFeature
  else if hl : headerLen = 0 ∨ headerLen > maxHeaderLen then .error .headerTooLarge
  else .ok ⟨headerLen, minor, flags, hm, hf, hl⟩

/-- The HIDE/0.5 form of a signed container. -/
def legacySigned (headerLen : ℕ) : Except FormatError Preamble :=
  fromParts headerLen legacySignedMinor 0

/-- A HIDE/0.5–0.8 signed container: legacy transcript, no extensions. -/
def isLegacy (p : Preamble) : Bool := p.minor = legacySignedMinor

def isSigned (p : Preamble) : Bool := p.isLegacy || p.flags &&& flagSigned ≠ 0

/-- Magic, major, minor, kind and flags: everything but the header length. -/
def signedPrefix (p : Preamble) : Bytes := magic ++ [0, p.minor, 1, p.flags]

def encode (p : Preamble) : Bytes := p.signedPrefix ++ beBytes 4 p.headerLen

def decode (bytes : Bytes) : Except FormatError Preamble := do
  failIf (bytes.length ≠ preambleLen ∨ bytes.take 8 ≠ magic) .invalidContainer
  failIf (bytes.getD 8 0 ≠ 0) .unsupportedVersion
  failIf (bytes.getD 10 0 ≠ 1) .unsupportedFeature
  fromParts (ofBe (bytes.drop 12)) (bytes.getD 9 0) (bytes.getD 11 0)

/-! ## Round trip -/

@[simp] theorem length_signedPrefix (p : Preamble) : p.signedPrefix.length = 12 := rfl

@[simp] theorem length_encode (p : Preamble) : p.encode.length = preambleLen := by
  simp [encode, preambleLen]

/-- Rebuilding a preamble from its own parts changes nothing. -/
theorem fromParts_self (p : Preamble) : fromParts p.headerLen p.minor p.flags = .ok p := by
  rw [fromParts, dif_neg p.minor_ne_zero, dif_neg p.flags_known, dif_neg p.headerLen_ok]

/-- What `fromParts` accepts keeps its arguments. -/
theorem fromParts_eq_ok {n : ℕ} {minor flags : UInt8} {p : Preamble}
    (h : fromParts n minor flags = .ok p) :
    p.headerLen = n ∧ p.minor = minor ∧ p.flags = flags := by
  unfold fromParts at h
  split at h
  · cases h
  split at h
  · cases h
  split at h
  · cases h
  · cases h
    exact ⟨rfl, rfl, rfl⟩

theorem decode_encode (p : Preamble) : decode p.encode = .ok p := by
  have hlen : p.headerLen < 256 ^ 4 := by
    have h := p.headerLen_ok
    simp only [maxHeaderLen] at h
    omega
  have hdrop : p.encode.drop 12 = beBytes 4 p.headerLen := rfl
  have htake : p.encode.take 8 = magic := rfl
  have h8 : p.encode.getD 8 0 = 0 := rfl
  have h9 : p.encode.getD 9 0 = p.minor := rfl
  have h10 : p.encode.getD 10 0 = 1 := rfl
  have h11 : p.encode.getD 11 0 = p.flags := rfl
  simp only [decode, hdrop, htake, h8, h9, h10, h11, length_encode]
  rw [ofBe_beBytes hlen, fromParts_self]
  rfl

/-- The signed prefix fixes the minor and the flags. -/
theorem signedPrefix_inj {p q : Preamble} (h : p.signedPrefix = q.signedPrefix) :
    p.minor = q.minor ∧ p.flags = q.flags := by
  simpa [signedPrefix] using h

end Preamble

end HideProtocol.Format
