import HideProtocol.Cli.Keys
import HideProtocol.Lib.Base64
import HideProtocol.Sign.Challenge

/-!
# The ssh-agent

`hide agent` offers the Ed25519 half of an identity to ssh. A sign request names a key and a
byte string; the agent compares the key with its own, asks its approver, and signs the byte
string as it stands. The approver is shown a fingerprint and not the bytes.

The same Ed25519 key is one half of every protocol signature, whose payload is `bind` of a
reserved context. The agent does not look for that form, so it signs such payloads as well: the
main result says for exactly which requests.
-/

namespace HideProtocol.Cli.Agent

open Lib Sign

def requestIdentities : UInt8 := 11
def identitiesAnswer : UInt8 := 12
def signRequest : UInt8 := 13
def signResponse : UInt8 := 14
def failure : UInt8 := 5

def keyType : String := "ssh-ed25519"

/-- Reads an RFC 4251 integer. -/
def u32 : Parser CliError ℕ := fun bytes => do
  let (head, rest) ← okOr (splitAtChecked 4 bytes) (.message "truncated length prefix")
  pure (ofBe head, rest)

/-- Reads an RFC 4251 string without trusting its length prefix. -/
def string : Parser CliError Bytes := do
  let length ← u32
  fun bytes => okOr (splitAtChecked length bytes)
    (.message "string longer than the message containing it")

/-- `put_string`: the length is cast to `u32`. -/
def putString (value : Bytes) : Bytes := lenPrefixed 4 value

/-- The public key blob, as it appears in an agent's identity list. -/
def publicKeyBlob (publicKey : Vector UInt8 32) : Bytes :=
  putString (utf8 keyType) ++ putString publicKey.toList

/-- The fingerprint OpenSSH prints, over the same blob. -/
def fingerprint (sha256 : Bytes → Vector UInt8 32) (publicKey : Vector UInt8 32) : String :=
  "SHA256:" ++ String.ofList (Base64.encodeNoPad (sha256 (publicKeyBlob publicKey)).toList)

/-- Decides whether a signature may be produced. `σ` is whatever state the decision has, such as
the terminal it is asked on. -/
abbrev Approver (σ : Type) := σ → String → Bool × σ

/-- Approves everything, for `--no-confirm`. -/
def approveEverything : Approver Unit := fun s _ => (true, s)

end HideProtocol.Cli.Agent

namespace HideProtocol.Cli

open Lib Sign Agent

/-- The Ed25519 key of an identity and its public half. -/
structure Agent where
  key : Vector UInt8 32
  publicKey : Vector UInt8 32
  comment : String

namespace Agent

section
variable (P : Primitives) (sha256 : Bytes → Vector UInt8 32)

def new (identity : SigningIdentity) (comment : String) : Agent :=
  ⟨identity.ed25519 P, P.edPublic (identity.ed25519 P), comment⟩

def identities (self : Agent) : Bytes :=
  identitiesAnswer :: beBytes 4 1 ++ putString (publicKeyBlob self.publicKey) ++
    putString (utf8 self.comment)

/-- The key that is asked for and the data to be signed. -/
def readSignRequest : Parser CliError (Bytes × Bytes) := do
  let requested ← string
  let data ← string
  -- flags select RSA hash algorithms and say nothing here
  let _flags ← u32
  pure (requested, data)

/-- The answer that carries the signature over `data`. -/
def signed (self : Agent) (data : Bytes) : Bytes :=
  signResponse :: putString (putString (utf8 keyType) ++
    putString (P.edSign self.key data).toList)

variable {σ : Type}

def sign (self : Agent) (body : Bytes) (approver : Approver σ) (s : σ) :
    Except CliError Bytes × σ :=
  match readSignRequest body with
  | .error e => (.error e, s)
  | .ok ((requested, data), _) =>
    if requested ≠ publicKeyBlob self.publicKey then
      (.error (.message "the requested key is not ours"), s)
    else
      let (approved, s) := approver s (fingerprint sha256 self.publicKey)
      if !approved then (.error (.message "refused"), s)
      else (.ok (self.signed P data), s)

def tryRespond (self : Agent) (request : Bytes) (approver : Approver σ) (s : σ) :
    Except CliError Bytes × σ :=
  match request with
  | [] => (.error (.message "empty request"), s)
  | kind :: body =>
    if kind = requestIdentities then (.ok self.identities, s)
    else if kind = signRequest then self.sign P sha256 body approver s
    else (.error (.message ("unsupported request " ++ toString kind.toNat)), s)

/-- Answers one request. Anything unrecognised, malformed or refused becomes `failure`. -/
def respond (self : Agent) (request : Bytes) (approver : Approver σ) (s : σ) : Bytes × σ :=
  match self.tryRespond P sha256 request approver s with
  | (.ok response, s) => (response, s)
  | (.error _, s) => ([failure], s)

end

/-! ## Which requests are answered -/

theorem u32_eq_ok {bytes rest : Bytes} {n : ℕ} :
    u32 bytes = .ok (n, rest) ↔ ∃ head, head.length = 4 ∧ ofBe head = n ∧ bytes = head ++ rest := by
  unfold u32
  simp only [bind_eq_ok, okOr_eq_ok, pure_eq_ok, Prod.mk.injEq]
  constructor
  · rintro ⟨⟨head, tail⟩, hsplit, rfl, rfl⟩
    obtain ⟨hbytes, hlen⟩ := splitAtChecked_eq_some.mp hsplit
    exact ⟨head, hlen, rfl, hbytes⟩
  · rintro ⟨head, hlen, rfl, hbytes⟩
    exact ⟨(head, rest), splitAtChecked_eq_some.mpr ⟨hbytes, hlen⟩, rfl, rfl⟩

theorem string_eq_ok {bytes rest value : Bytes} :
    string bytes = .ok (value, rest) ↔ bytes = putString value ++ rest ∧ value.length < 2 ^ 32 := by
  have hunfold : string bytes = u32 bytes >>= fun r => okOr (splitAtChecked r.1 r.2)
      (.message "string longer than the message containing it") := rfl
  rw [hunfold, bind_eq_ok]
  unfold putString lenPrefixed
  constructor
  · rintro ⟨⟨n, tail⟩, hlen, hvalue⟩
    obtain ⟨head, hhead, hn, hbytes⟩ := u32_eq_ok.mp hlen
    obtain ⟨htail, hlength⟩ := splitAtChecked_eq_some.mp (okOr_eq_ok.mp hvalue)
    dsimp only at htail hlength
    have hfour : beBytes 4 value.length = head := by
      rw [hlength, ← hn, beBytes_ofBe hhead]
    have hlt : ofBe head < 256 ^ 4 := by
      rw [← hhead]
      exact ofBe_lt head
    refine ⟨by rw [hfour, hbytes, htail, List.append_assoc], ?_⟩
    rw [hlength, ← hn]
    exact hlt
  · rintro ⟨hbytes, hlt⟩
    refine ⟨(value.length, value ++ rest), u32_eq_ok.mpr ?_, ?_⟩
    · exact ⟨beBytes 4 value.length, length_beBytes _ _, ofBe_beBytes (by simpa using hlt),
        by rw [hbytes, List.append_assoc]⟩
    · exact okOr_eq_ok.mpr (splitAtChecked_eq_some.mpr ⟨rfl, rfl⟩)

/-- A sign request: the two strings, then four bytes of flags and anything. -/
theorem readSignRequest_eq_ok {body requested data : Bytes} :
    (∃ rest, readSignRequest body = .ok ((requested, data), rest)) ↔
      ∃ tail, body = putString requested ++ (putString data ++ tail) ∧ 4 ≤ tail.length ∧
        requested.length < 2 ^ 32 ∧ data.length < 2 ^ 32 := by
  have hunfold : readSignRequest body = string body >>= fun r => string r.2 >>= fun d =>
      u32 d.2 >>= fun f => .ok ((r.1, d.1), f.2) := rfl
  rw [hunfold]
  constructor
  · rintro ⟨rest, h⟩
    obtain ⟨⟨requested', body'⟩, hrequested, h⟩ := bind_eq_ok.mp h
    obtain ⟨⟨data', tail⟩, hdata, h⟩ := bind_eq_ok.mp h
    obtain ⟨⟨flags, rest'⟩, hflags, h⟩ := bind_eq_ok.mp h
    cases h
    obtain ⟨hbody, hlt⟩ := string_eq_ok.mp hrequested
    obtain ⟨hbody', hlt'⟩ := string_eq_ok.mp hdata
    obtain ⟨head, hhead, -, htail⟩ := u32_eq_ok.mp hflags
    dsimp only at hbody' htail
    refine ⟨tail, by rw [hbody, hbody'], ?_, hlt, hlt'⟩
    rw [htail, List.length_append, hhead]
    omega
  · rintro ⟨tail, hbody, hlen, hlt, hlt'⟩
    refine ⟨tail.drop 4, bind_eq_ok.mpr ⟨_, string_eq_ok.mpr ⟨hbody, hlt⟩, ?_⟩⟩
    refine bind_eq_ok.mpr ⟨_, string_eq_ok.mpr ⟨rfl, hlt'⟩, ?_⟩
    refine bind_eq_ok.mpr ⟨(ofBe (tail.take 4), tail.drop 4), u32_eq_ok.mpr ?_, rfl⟩
    exact ⟨tail.take 4, List.length_take_of_le hlen, rfl, (List.take_append_drop 4 tail).symm⟩

/-- The data a sign request asks a signature for. -/
def requestedData (request : Bytes) : Option Bytes :=
  match readSignRequest request.tail with
  | .ok ((_, data), _) => some data
  | .error _ => none

section
variable {P : Primitives} {sha256 : Bytes → Vector UInt8 32} {σ : Type}

/-- A request for the agent's own key with `data` to sign. -/
def IsSignRequest (self : Agent) (request data : Bytes) : Prop :=
  ∃ tail, request = signRequest :: (putString (publicKeyBlob self.publicKey) ++
    (putString data ++ tail)) ∧ 4 ≤ tail.length ∧ data.length < 2 ^ 32

theorem length_publicKeyBlob (publicKey : Vector UInt8 32) :
    (publicKeyBlob publicKey).length = 51 := by
  have htype : (utf8 keyType).length = 11 := by decide
  simp only [publicKeyBlob, putString, lenPrefixed, List.length_append, length_beBytes, htype,
    Vector.length_toList]

/-- A request has this form exactly when the reader finds the agent's key and the data in it. -/
theorem isSignRequest_iff {self : Agent} {request data : Bytes} :
    self.IsSignRequest request data ↔
      ∃ body rest, request = signRequest :: body ∧
        readSignRequest body = .ok ((publicKeyBlob self.publicKey, data), rest) := by
  have hkey := length_publicKeyBlob self.publicKey
  constructor
  · rintro ⟨tail, hrequest, hlen, hlt⟩
    have hread : ∃ rest, readSignRequest (putString (publicKeyBlob self.publicKey) ++
        (putString data ++ tail)) = .ok ((publicKeyBlob self.publicKey, data), rest) :=
      readSignRequest_eq_ok.mpr ⟨tail, rfl, hlen, by omega, hlt⟩
    obtain ⟨rest, hread⟩ := hread
    exact ⟨_, rest, hrequest, hread⟩
  · rintro ⟨body, rest, hrequest, hread⟩
    obtain ⟨tail, hbody, hlen, -, hlt⟩ := readSignRequest_eq_ok.mp ⟨rest, hread⟩
    exact ⟨tail, by rw [hrequest, hbody], hlen, hlt⟩

theorem sign_eq_ok {self : Agent} {body response : Bytes} {approver : Approver σ} {s : σ} :
    (self.sign P sha256 body approver s).1 = .ok response ↔
      ∃ data rest, readSignRequest body = .ok ((publicKeyBlob self.publicKey, data), rest) ∧
        (approver s (fingerprint sha256 self.publicKey)).1 = true ∧
        response = self.signed P data := by
  unfold sign
  cases hread : readSignRequest body with
  | error e => simp
  | ok parsed =>
    obtain ⟨⟨requested, data⟩, rest⟩ := parsed
    by_cases hkey : requested = publicKeyBlob self.publicKey
    · by_cases happrove : (approver s (fingerprint sha256 self.publicKey)).1 = true
      · simp [hkey, happrove, eq_comm]
      · simp [hkey, happrove]
    · simp [hkey]

/-- What the agent answers to a request for its own key that its approver allows. -/
theorem respond_of_isSignRequest {self : Agent} {request data : Bytes} {approver : Approver σ}
    {s : σ} (h : self.IsSignRequest request data)
    (happrove : (approver s (fingerprint sha256 self.publicKey)).1 = true) :
    (self.respond P sha256 request approver s).1 = self.signed P data := by
  obtain ⟨body, rest, hrequest, hread⟩ := isSignRequest_iff.mp h
  have hsign := (sign_eq_ok (P := P)).mpr ⟨data, rest, hread, happrove, rfl⟩
  have htry : self.tryRespond P sha256 request approver s = self.sign P sha256 body approver s := by
    rw [hrequest]
    rfl
  unfold respond
  rw [htry]
  cases hresult : self.sign P sha256 body approver s with
  | mk result s' =>
    rw [hresult] at hsign
    dsimp only at hsign
    rw [hsign]

/-- No other answer carries a signature. -/
theorem isSignRequest_of_respond {self : Agent} {request : Bytes} {approver : Approver σ} {s : σ}
    (h : (self.respond P sha256 request approver s).1.head? = some signResponse) :
    ∃ data, self.IsSignRequest request data ∧
      (approver s (fingerprint sha256 self.publicKey)).1 = true := by
  have hfailure : ([failure] : Bytes).head? ≠ some signResponse := by decide
  unfold respond at h
  cases hresult : self.tryRespond P sha256 request approver s with
  | mk result s' =>
    rw [hresult] at h
    cases result with
    | error e => exact absurd h hfailure
    | ok response =>
      unfold tryRespond at hresult
      cases request with
      | nil => cases hresult
      | cons kind body =>
        dsimp only at h hresult
        split at hresult
        next =>
          -- the identity list starts with another byte
          cases hresult
          exact absurd (Option.some.inj h) (by decide)
        next =>
          split at hresult
          next hkind =>
            have hok : (self.sign P sha256 body approver s).1 = .ok response := by rw [hresult]
            obtain ⟨data, rest, hread, happrove, -⟩ := sign_eq_ok.mp hok
            exact ⟨data, isSignRequest_iff.mpr ⟨body, rest, by rw [hkind], hread⟩, happrove⟩
          next => cases hresult

/-! ## Which of them are protocol payloads -/

/-- Data that reads as a reserved context behind its length, with any message after it. -/
def looksReserved (data : Bytes) : Bool :=
  match splitAtChecked 8 data with
  | none => false
  | some (length, rest) =>
    match splitAtChecked (ofBe length) rest with
    | none => false
    | some (context, _) => isReservedContext context

theorem looksReserved_iff {data : Bytes} :
    looksReserved data = true ↔
      ∃ context message, context.length < 2 ^ 64 ∧ isReservedContext context = true ∧
        data = Sign.bind context message := by
  unfold looksReserved
  constructor
  · intro h
    split at h
    next => cases h
    next length rest hlength =>
      split at h
      next => cases h
      next context message hcontext =>
        obtain ⟨hdata, height⟩ := splitAtChecked_eq_some.mp hlength
        obtain ⟨hrest, hlen⟩ := splitAtChecked_eq_some.mp hcontext
        have hlt : ofBe length < 256 ^ 8 := by
          rw [← height]
          exact ofBe_lt length
        refine ⟨context, message, by rw [hlen]; simpa using hlt, h, ?_⟩
        rw [Sign.bind, lenPrefixed, hlen, beBytes_ofBe height, hdata, hrest, List.append_assoc]
  · rintro ⟨context, message, hlt, hreserved, rfl⟩
    have hlength : splitAtChecked 8 (bind context message) =
        some (beBytes 8 context.length, context ++ message) :=
      splitAtChecked_eq_some.mpr
        ⟨by rw [Sign.bind, lenPrefixed, List.append_assoc], length_beBytes _ _⟩
    have hcontext : splitAtChecked (ofBe (beBytes 8 context.length)) (context ++ message) =
        some (context, message) :=
      splitAtChecked_eq_some.mpr ⟨rfl, (ofBe_beBytes (by simpa using hlt)).symm⟩
    simp only [hlength, hcontext, hreserved]

/-- A request answered with a signature has not had a protocol payload signed. -/
def NoProtocolPayload (P : Primitives) (sha256 : Bytes → Vector UInt8 32) (self : Agent)
    (request : Bytes) (approver : Approver σ) (s : σ) : Prop :=
  (self.respond P sha256 request approver s).1.head? = some signResponse →
    ∃ data, requestedData request = some data ∧
      (self.respond P sha256 request approver s).1 = self.signed P data ∧
      ∀ context message, context.length < 2 ^ 64 → isReservedContext context = true →
        data ≠ Sign.bind context message

theorem requestedData_of_isSignRequest {self : Agent} {request data : Bytes}
    (h : self.IsSignRequest request data) : requestedData request = some data := by
  obtain ⟨body, rest, rfl, hread⟩ := isSignRequest_iff.mp h
  simp [requestedData, hread]

/-- An approved request for data of the reserved form has it signed. -/
theorem not_noProtocolPayload {self : Agent} {request data : Bytes} {approver : Approver σ} {s : σ}
    (hrequest : self.IsSignRequest request data)
    (happrove : (approver s (fingerprint sha256 self.publicKey)).1 = true)
    (hlooks : looksReserved data = true) : ¬NoProtocolPayload P sha256 self request approver s := by
  intro hsafe
  have hrespond : (self.respond P sha256 request approver s).1 = self.signed P data :=
    respond_of_isSignRequest hrequest happrove
  obtain ⟨data', hdata', -, hfresh⟩ := hsafe (by rw [hrespond]; rfl)
  rw [requestedData_of_isSignRequest hrequest] at hdata'
  cases hdata'
  obtain ⟨context, message, hlt, hreserved, hbind⟩ := looksReserved_iff.mp hlooks
  exact hfresh context message hlt hreserved hbind

/-- The agent keeps protocol payloads from being signed exactly where a request does not ask for
one: it never refuses data for its form. -/
theorem noProtocolPayload_iff (identity : SigningIdentity) (comment : String) (request : Bytes)
    (approver : Approver σ) (s : σ) :
    let agent := Agent.new P identity comment
    NoProtocolPayload P sha256 agent request approver s ↔
      ¬∃ data, agent.IsSignRequest request data ∧
        (approver s (fingerprint sha256 agent.publicKey)).1 = true ∧ looksReserved data = true := by
  intro agent
  constructor
  · rintro hsafe ⟨data, hrequest, happrove, hlooks⟩
    exact not_noProtocolPayload hrequest happrove hlooks hsafe
  · intro hnone hanswer
    obtain ⟨data, hrequest, happrove⟩ := isSignRequest_of_respond hanswer
    refine ⟨data, requestedData_of_isSignRequest hrequest,
      respond_of_isSignRequest hrequest happrove, ?_⟩
    intro context message hlt hreserved hbind
    have hlooks := looksReserved_iff.mpr ⟨context, message, hlt, hreserved, hbind⟩
    exact hnone ⟨data, hrequest, happrove, hlooks⟩

/-- The request for a signature over `data`, with no flags set. -/
def requestFor (self : Agent) (data : Bytes) : Bytes :=
  signRequest :: (putString (publicKeyBlob self.publicKey) ++ (putString data ++ beBytes 4 0))

theorem isSignRequest_requestFor (self : Agent) {data : Bytes} (h : data.length < 2 ^ 32) :
    self.IsSignRequest (self.requestFor data) data :=
  ⟨beBytes 4 0, rfl, by rw [length_beBytes], h⟩

/-- A client that sends a challenge's payload gets the Ed25519 half of the answer to it. -/
theorem respond_challenge :
    let identity : SigningIdentity := ⟨Vector.replicate 32 7⟩
    let agent := Agent.new .toy identity "hide"
    let payload := Sign.bind challengeContext lastChallenge.toSignedBytes
    let respond := agent.respond .toy (fun _ => Vector.replicate 32 0) (agent.requestFor payload)
      approveEverything ()
    respond.1 = agent.signed .toy payload ∧
      ¬NoProtocolPayload .toy (fun _ => Vector.replicate 32 0) agent (agent.requestFor payload)
        approveEverything () := by
  intro identity agent payload respond
  have hpayload : payload.length < 2 ^ 32 := by decide
  have hrequest := isSignRequest_requestFor agent hpayload
  have hlooks : looksReserved payload = true :=
    looksReserved_iff.mpr ⟨challengeContext, _, by decide, by decide, rfl⟩
  exact ⟨respond_of_isSignRequest hrequest rfl, not_noProtocolPayload hrequest rfl hlooks⟩

end

end Agent

end HideProtocol.Cli
