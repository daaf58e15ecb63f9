import HideProtocol.Ffi.Boundary
import HideProtocol.Object.Sizes
import HideProtocol.Wasm.Bindings

/-!
# What a surface writes and what it reads

The C ABI and the WebAssembly build limit every argument on its own. A container is longer than
its plaintext and an encoded challenge longer than its audience, so an argument just below the
limit of the writer makes something the reader refuses. Both round trips hold exactly as long
as what is written fits the limit of the reader, and the core has no part in their failure.
-/

namespace HideProtocol.Surfaces

open Lib Format Crypto Sign Object

section
variable {P : Crypto.Primitives} {S : Sign.Primitives}

/-! ## Containers, whatever the surface -/

@[simp] theorem map_fst_withSeeds (seeds : ℕ → Key) (recipients : List RecipientPublic) :
    (withSeeds seeds recipients).map Prod.fst = recipients := by
  unfold withSeeds
  rw [List.map_map]
  show recipients.zipIdx.map Prod.fst = recipients
  exact List.zipIdx_map_fst 0 recipients

theorem length_withSeeds (seeds : ℕ → Key) (recipients : List RecipientPublic) :
    (withSeeds seeds recipients).length = recipients.length := by
  simp [withSeeds]

/-- The run a surface makes: the bytes of a slice, for keys it parsed, with a filename and a
media type. -/
def surfaceRun (P : Crypto.Primitives) (S : Sign.Primitives) (plaintext : Bytes)
    (keys : List (Vector UInt8 publicKeyLength)) (filename mediaType : Option String)
    (material : ObjectMaterial) (seeds : ℕ → Key) : ObjectEncryption :=
  encrypt P S (Reader.ofBytes plaintext) (withSeeds seeds (keys.map RecipientPublic.mk))
    { filename, mediaType } material

variable {plaintext : Bytes} {keys : List (Vector UInt8 publicKeyLength)}
  {filename mediaType : Option String} {material : ObjectMaterial} {seeds : ℕ → Key} {n : ℕ}
  {secret : RecipientSecret}

theorem length_surfaceRun (hP : AeadCorrect P)
    (hok : (surfaceRun P S plaintext keys filename mediaType material seeds).result = .ok n) :
    (surfaceRun P S plaintext keys filename mediaType material seeds).output.length =
      containerLen keys.length (metadataLen (filename.map utf8) (mediaType.map utf8))
        plaintext.length := by
  unfold surfaceRun at hok ⊢
  rw [length_encrypt hP (Reader.delivers_ofBytes plaintext) hok, length_withSeeds,
    List.length_map, encodedLen_eq]

/-- What a run for `secret` assumes of HPKE. -/
def RunSeparates (P : Crypto.Primitives) (S : Sign.Primitives) (secret : RecipientSecret)
    (plaintext : Bytes) (keys : List (Vector UInt8 publicKeyLength))
    (filename mediaType : Option String) (material : ObjectMaterial) (seeds : ℕ → Key) : Prop :=
  Separates P S secret (withSeeds seeds (keys.map RecipientPublic.mk)) { filename, mediaType }
    material none {} plaintext

/-- The core reads back what it wrote, whatever its length. -/
theorem readsBack_surfaceRun (hP : AeadCorrect P) (hS : S.Correct)
    (hok : (surfaceRun P S plaintext keys filename mediaType material seeds).result = .ok n)
    (hlisted : (secret.publicKey P).key ∈ keys)
    (hpke : RunSeparates P S secret plaintext keys filename mediaType material seeds) :
    ∃ verified, decryptToStaging P S
        (surfaceRun P S plaintext keys filename mediaType material seeds).output secret =
        { staging := plaintext, result := .ok verified } ∧
      verified.metadata.filename = filename ∧ verified.metadata.mediaType = mediaType := by
  have hmem : secret.publicKey P ∈
      (withSeeds seeds (keys.map RecipientPublic.mk)).map Prod.fst := by
    rw [map_fst_withSeeds]
    exact List.mem_map.mpr ⟨_, hlisted, rfl⟩
  obtain ⟨hstaging, verified, hresult, hname, htype, -⟩ := (encryptFor_readsBack_iff hP hS
    (Reader.delivers_ofBytes plaintext) production_none hok hmem hpke).mpr (Or.inl rfl)
  refine ⟨verified, ?_, hname, htype⟩
  have heta : ∀ read : ObjectDecryption S, read = { staging := read.staging, result := read.result } :=
    fun _ => rfl
  rw [heta (decryptToStaging P S _ secret)]
  exact congrArg₂ ObjectDecryption.mk hstaging hresult

/-! ## The C ABI -/

namespace CAbi
open HideProtocol.Ffi

/-- `hide_decrypt` returns what went into `container`. -/
def Opens (P : Crypto.Primitives) (S : Sign.Primitives) (container : Bytes)
    (secret : RecipientSecret) (plaintext : Bytes) (filename mediaType : Option CString) : Prop :=
  hideDecrypt P S (some container) container.length secret =
    .ok { plaintext, filename := (filename.map CString.toBytes).getD []
          mediaType := (mediaType.map CString.toBytes).getD [] }

/-- An identity answers `challenge`, and a fresh record accepts the answer at time `now`. -/
def Accepts (S : Sign.Primitives) (identity : SigningIdentity) (challenge : Bytes)
    (now : UInt64) : Prop :=
  let publicKey := (identity.verifyingKey S).toBytes.toList
  ∃ answer, hideChallengeAnswer S identity (some challenge) challenge.length = .ok answer ∧
    (hideChallengeAccept S .new (some challenge) challenge.length (some answer) answer.length
      (some publicKey) publicKey.length now).1 = .ok ()

/-- The string a C string was decoded to is its bytes. -/
theorem utf8_of_borrowStr {text : Option CString} {s : Option String}
    (h : borrowStr text = some s) : s.map utf8 = text.map CString.toBytes := by
  cases text with
  | none =>
    rw [← Option.some.inj h]
    rfl
  | some text =>
    obtain ⟨t, ht, rfl⟩ := Option.map_eq_some_iff.mp h
    rw [Option.map_some, Option.map_some, utf8_of_fromUtf8 ht]

theorem utf8_getD {s : Option String} : utf8 (s.getD "") = (s.map utf8).getD [] := by
  cases s <;> rfl

theorem length_publicKey (key : Vector UInt8 publicKeyLength) :
    key.toList.length = publicKeyLength := Vector.length_toList

/-- What a successful `hide_encrypt` did. -/
theorem hideEncrypt_eq_ok {accepts : Vector UInt8 publicKeyLength → Bool}
    {filename mediaType : Option CString} {container : Bytes}
    (h : hideEncrypt P S accepts (some plaintext) plaintext.length
      (some (keys.flatMap Vector.toList)) keys.length filename mediaType material seeds =
        .ok container) :
    ∃ name type n, borrowStr filename = some name ∧ borrowStr mediaType = some type ∧
      (surfaceRun P S plaintext keys name type material seeds).result = .ok n ∧
      container = (surfaceRun P S plaintext keys name type material seeds).output := by
  unfold hideEncrypt at h
  obtain ⟨_, -, h⟩ := bind_eq_ok.mp h
  obtain ⟨plaintext', hplaintext, h⟩ := bind_eq_ok.mp h
  obtain ⟨bytes, hbytes, h⟩ := bind_eq_ok.mp h
  obtain ⟨parsed, hparsed, h⟩ := bind_eq_ok.mp h
  obtain ⟨name, hname, h⟩ := bind_eq_ok.mp h
  obtain ⟨type, htype, h⟩ := bind_eq_ok.mp h
  obtain ⟨n, hn, h⟩ := bind_eq_ok.mp h
  have hlen : (keys.flatMap Vector.toList).length = keys.length * publicKeyLength := by
    rw [List.length_flatMap, List.map_congr_left fun key _ => length_publicKey key]
    simp
  obtain ⟨hslice, -⟩ := borrow_eq_some (okOr_eq_ok.mp hplaintext)
  obtain ⟨hkeys, -⟩ := borrow_eq_some (okOr_eq_ok.mp (hlen ▸ hbytes))
  subst hslice hkeys
  rw [chunksExact_flatMap (by decide) length_publicKey] at hparsed
  have hrecipients := recipients_of_mapM (fun _ _ => bytes_of_fromBytes) (mapErr_eq_ok.mp hparsed)
  subst hrecipients
  exact ⟨name, type, n, okOr_eq_ok.mp hname, okOr_eq_ok.mp htype, mapErr_eq_ok.mp hn,
    pure_eq_ok.mp h⟩

theorem opens_iff (hP : AeadCorrect P) (hS : S.Correct)
    {accepts : Vector UInt8 publicKeyLength → Bool} {filename mediaType : Option CString}
    {container : Bytes}
    (h : hideEncrypt P S accepts (some plaintext) plaintext.length
      (some (keys.flatMap Vector.toList)) keys.length filename mediaType material seeds =
        .ok container)
    (hlisted : (secret.publicKey P).key ∈ keys)
    (hpke : ∀ name type, borrowStr filename = some name → borrowStr mediaType = some type →
      RunSeparates P S secret plaintext keys name type material seeds) :
    Opens P S container secret plaintext filename mediaType ↔
      containerLen keys.length (metadataLen (filename.map CString.toBytes)
        (mediaType.map CString.toBytes)) plaintext.length ≤ maxInput := by
  obtain ⟨name, type, n, hname, htype, hn, hcontainer⟩ := hideEncrypt_eq_ok h
  have hlen : container.length = containerLen keys.length (metadataLen
      (filename.map CString.toBytes) (mediaType.map CString.toBytes)) plaintext.length := by
    rw [hcontainer, length_surfaceRun hP hn, utf8_of_borrowStr hname, utf8_of_borrowStr htype]
  rw [← hlen]
  unfold Opens hideDecrypt
  constructor
  · intro hopens
    obtain ⟨bytes, hborrow, -⟩ := bind_eq_ok.mp hopens
    exact (borrow_eq_some (okOr_eq_ok.mp hborrow)).2
  · intro hle
    obtain ⟨verified, hread, hfile, hmedia⟩ :=
      readsBack_surfaceRun hP hS hn hlisted (hpke name type hname htype)
    rw [borrow_of_le hle, okOr_some, ok_bind, hcontainer, hread]
    simp only [mapErr_ok, ok_bind, hfile, hmedia, utf8_getD, utf8_of_borrowStr hname,
      utf8_of_borrowStr htype]
    rfl

theorem accepts_iff (hS : S.Correct) {nonce : Option (Vector UInt8 nonceLength)}
    {audience : CString} {now validFor : UInt64} {challenge : Bytes}
    (h : hideChallengeNew nonce (some audience) now validFor = .ok challenge)
    (identity : SigningIdentity) :
    Accepts S identity challenge now ↔ 56 + audience.toBytes.length ≤ maxKeyFile := by
  unfold hideChallengeNew at h
  obtain ⟨text, htext, h⟩ := bind_eq_ok.mp h
  obtain ⟨text', htext', h⟩ := bind_eq_ok.mp h
  obtain ⟨made, hmade, h⟩ := bind_eq_ok.mp h
  obtain ⟨haudience, hissued⟩ := Challenge.new_eq_ok (mapErr_eq_ok.mp hmade)
  have hbytes : utf8 made.audience = audience.toBytes := by
    have hborrow := utf8_of_borrowStr (okOr_eq_ok.mp htext)
    rw [okOr_eq_ok.mp htext'] at hborrow
    rw [haudience]
    exact Option.some.inj hborrow
  -- the fields around the audience take 56 bytes
  have hlen : challenge.length = 56 + audience.toBytes.length := by
    rw [pure_eq_ok.mp h, Challenge.length_encode, hbytes]
  rw [← hlen]
  unfold Accepts hideChallengeAnswer
  constructor
  · intro ⟨answer, hanswer, _⟩
    obtain ⟨bytes, hborrow, -⟩ := bind_eq_ok.mp hanswer
    exact (borrow_eq_some (okOr_eq_ok.mp hborrow)).2
  · intro hle
    -- a challenge that can be borrowed is read back, answered and accepted
    have hdecode : Challenge.decode challenge = .ok made := by
      rw [pure_eq_ok.mp h]
      exact Challenge.decode_encode made
    have hsignature : (made.answer S identity).toList.length = signatureLength :=
      Vector.length_toList
    have hkey : (identity.verifyingKey S).toBytes.toList.length = verifyingKeyLength :=
      Vector.length_toList
    refine ⟨(made.answer S identity).toList, ?_, ?_⟩
    · rw [borrow_of_le hle, okOr_some, ok_bind, hdecode]
      rfl
    · have hread : readAnswer S (some challenge) challenge.length
          (some (made.answer S identity).toList) (made.answer S identity).toList.length
          (some (identity.verifyingKey S).toBytes.toList)
          (identity.verifyingKey S).toBytes.toList.length =
          .ok (made, (made.answer S identity).toList, identity.verifyingKey S) := by
        unfold readAnswer
        rw [borrow_of_le hle, okOr_some, ok_bind, failIf_neg _ (by simp [hsignature, hkey]),
          ok_bind, borrow_of_le (by rw [hsignature]; decide), okOr_some, ok_bind,
          borrow_of_le (by rw [hkey]; decide), okOr_some, ok_bind, hdecode, mapErr_ok, ok_bind,
          VerifyingIdentity.fromBytes_toBytes]
        rfl
      unfold hideChallengeAccept
      rw [hread]
      show mapErr challengeErrorCode (SpentNonces.new.accept made _ _ now).1 = .ok ()
      rw [← hissued, Challenge.accept_answer hS made identity]
      rfl

end CAbi

/-! ## The WebAssembly build -/

namespace Browser
open HideProtocol.Wasm

/-- `decrypt` returns what went into `container`. -/
def Opens (P : Crypto.Primitives) (S : Sign.Primitives) (container : Bytes)
    (secret : RecipientSecret) (plaintext : Bytes) (filename mediaType : Option String) : Prop :=
  decrypt P S container secret = .ok { data := plaintext, filename, mediaType }

/-- An identity answers `challenge`, and a fresh record accepts the answer at time `now`. -/
def Accepts (S : Sign.Primitives) (identity : SigningIdentity) (challenge : Bytes)
    (now : UInt64) : Prop :=
  ∃ response, answer S identity challenge = .ok response ∧
    (accept S .new challenge response (identity.verifyingKey S).toBytes.toList now).1 = .ok ()

/-- What a successful `encrypt` did. -/
theorem encrypt_eq_ok {accepts : Vector UInt8 publicKeyLength → Bool} {container : Bytes}
    (h : Wasm.encrypt P S accepts plaintext (keys.flatMap Vector.toList) filename mediaType material
      seeds = .ok container) :
    ∃ n, (surfaceRun P S plaintext keys filename mediaType material seeds).result = .ok n ∧
      container = (surfaceRun P S plaintext keys filename mediaType material seeds).output := by
  unfold Wasm.encrypt at h
  obtain ⟨_, -, h⟩ := bind_eq_ok.mp h
  obtain ⟨parsed, hparsed, h⟩ := bind_eq_ok.mp h
  obtain ⟨n, hn, h⟩ := bind_eq_ok.mp h
  unfold parseRecipients at hparsed
  obtain ⟨_, -, hparsed⟩ := bind_eq_ok.mp hparsed
  obtain ⟨_, -, hparsed⟩ := bind_eq_ok.mp hparsed
  rw [chunksExact_flatMap (by decide) CAbi.length_publicKey] at hparsed
  have hrecipients := recipients_of_mapM
    (fun _ _ hread => bytes_of_fromBytes (mapErr_eq_ok.mp hread)) hparsed
  subst hrecipients
  exact ⟨n, mapErr_eq_ok.mp hn, pure_eq_ok.mp h⟩

theorem opens_iff (hP : AeadCorrect P) (hS : S.Correct)
    {accepts : Vector UInt8 publicKeyLength → Bool} {container : Bytes}
    (h : Wasm.encrypt P S accepts plaintext (keys.flatMap Vector.toList) filename mediaType material
      seeds = .ok container)
    (hlisted : (secret.publicKey P).key ∈ keys)
    (hpke : RunSeparates P S secret plaintext keys filename mediaType material seeds) :
    Opens P S container secret plaintext filename mediaType ↔
      containerLen keys.length (metadataLen (filename.map utf8) (mediaType.map utf8))
        plaintext.length ≤ maxInput := by
  obtain ⟨n, hn, hcontainer⟩ := encrypt_eq_ok h
  have hlen := length_surfaceRun hP hn
  rw [← hcontainer] at hlen
  rw [← hlen]
  unfold Opens Wasm.decrypt
  constructor
  · intro hopens
    obtain ⟨_, hfits, -⟩ := bind_eq_ok.mp hopens
    exact not_lt.mp (failIf_eq_ok.mp hfits)
  · intro hle
    obtain ⟨verified, hread, hfile, hmedia⟩ := readsBack_surfaceRun hP hS hn hlisted hpke
    rw [failIf_neg _ (by omega), ok_bind, hcontainer, hread]
    simp only [mapErr_ok, ok_bind, hfile, hmedia]
    rfl

theorem accepts_iff (hS : S.Correct) {nonce : Option (Vector UInt8 nonceLength)}
    {audience : String} {now validFor : UInt64} {challenge : Bytes}
    (h : newChallenge nonce audience now validFor = .ok challenge) (identity : SigningIdentity) :
    Accepts S identity challenge now ↔ 56 + (utf8 audience).length ≤ maxChallenge := by
  unfold newChallenge at h
  obtain ⟨made, hmade, h⟩ := bind_eq_ok.mp h
  obtain ⟨haudience, hissued⟩ := Challenge.new_eq_ok (mapErr_eq_ok.mp hmade)
  have hlen : challenge.length = 56 + (utf8 audience).length := by
    rw [pure_eq_ok.mp h, Challenge.length_encode, haudience]
  rw [← hlen]
  unfold Accepts answer
  constructor
  · intro ⟨response, hresponse, _⟩
    obtain ⟨_, hdecode, -⟩ := bind_eq_ok.mp hresponse
    unfold decodeChallenge at hdecode
    obtain ⟨_, hfits, -⟩ := bind_eq_ok.mp hdecode
    exact not_lt.mp (failIf_eq_ok.mp hfits)
  · intro hle
    have hdecode : decodeChallenge challenge = .ok made := by
      unfold decodeChallenge
      rw [failIf_neg _ (by omega), ok_bind, pure_eq_ok.mp h]
      exact mapErr_eq_ok.mpr (Challenge.decode_encode made)
    refine ⟨(made.answer S identity).toList, ?_, ?_⟩
    · rw [hdecode]
      rfl
    · unfold Wasm.accept
      rw [hdecode, VerifyingIdentity.fromBytes_toBytes]
      show mapErr _ (SpentNonces.new.accept made _ _ now).1 = .ok ()
      rw [← hissued, Challenge.accept_answer hS made identity]
      rfl

end Browser

/-! ## Both surfaces -/

/-- **A surface reads what it wrote** exactly when that is no longer than what the reader takes:
a container, for the size its recipients, its metadata and its plaintext give it, and a challenge
for an audience of at most 4040 bytes. -/
theorem surfaces_read_what_they_write_iff (hP : AeadCorrect P) (hS : S.Correct)
    (accepts : Vector UInt8 publicKeyLength → Bool) :
    (∀ plaintext keys filename mediaType material seeds container secret,
      Ffi.hideEncrypt P S accepts (some plaintext) plaintext.length
        (some (keys.flatMap Vector.toList)) keys.length filename mediaType material seeds =
          .ok container →
      (secret.publicKey P).key ∈ keys →
      (∀ name type, Ffi.borrowStr filename = some name → Ffi.borrowStr mediaType = some type →
        RunSeparates P S secret plaintext keys name type material seeds) →
      (CAbi.Opens P S container secret plaintext filename mediaType ↔
        containerLen keys.length (metadataLen (filename.map Ffi.CString.toBytes)
          (mediaType.map Ffi.CString.toBytes)) plaintext.length ≤ Ffi.maxInput)) ∧
    (∀ nonce audience now validFor challenge identity,
      Ffi.hideChallengeNew nonce (some audience) now validFor = .ok challenge →
      (CAbi.Accepts S identity challenge now ↔ audience.toBytes.length ≤ 4040)) ∧
    (∀ plaintext keys filename mediaType material seeds container secret,
      Wasm.encrypt P S accepts plaintext (keys.flatMap Vector.toList) filename mediaType material
        seeds = .ok container →
      (secret.publicKey P).key ∈ keys →
      RunSeparates P S secret plaintext keys filename mediaType material seeds →
      (Browser.Opens P S container secret plaintext filename mediaType ↔
        containerLen keys.length (metadataLen (filename.map utf8) (mediaType.map utf8))
          plaintext.length ≤ Wasm.maxInput)) ∧
    (∀ nonce audience now validFor challenge identity,
      Wasm.newChallenge nonce audience now validFor = .ok challenge →
      (Browser.Accepts S identity challenge now ↔ (utf8 audience).length ≤ 4040)) := by
  refine ⟨?_, ?_, ?_, ?_⟩
  · intro plaintext keys filename mediaType material seeds container secret h hlisted hpke
    exact CAbi.opens_iff hP hS h hlisted hpke
  · intro nonce audience now validFor challenge identity h
    apply (CAbi.accepts_iff hS h identity).trans
    rw [Ffi.maxKeyFile]
    omega
  · intro plaintext keys filename mediaType material seeds container secret h hlisted hpke
    exact Browser.opens_iff hP hS h hlisted hpke
  · intro nonce audience now validFor challenge identity h
    apply (Browser.accepts_iff hS h identity).trans
    rw [Wasm.maxChallenge]
    omega

end

/-! ## One recipient, in the toy instance -/

section Toy

def sampleKey : Vector UInt8 publicKeyLength := toyPublic sampleSecret.seed

theorem sampleKey_listed : (sampleSecret.publicKey Crypto.Primitives.toy).key ∈ [sampleKey] :=
  List.mem_singleton.mpr rfl

theorem mapM_sampleKey {ε : Type} {read : Bytes → Except ε RecipientPublic}
    (h : read sampleKey.toList = .ok ⟨sampleKey⟩) :
    (chunksExact publicKeyLength ([sampleKey].flatMap Vector.toList)).mapM read =
      .ok ([sampleKey].map RecipientPublic.mk) := by
  rw [chunksExact_flatMap (by decide) CAbi.length_publicKey, List.map_singleton, List.mapM_cons, h]
  rfl

theorem length_sampleKey : ([sampleKey].flatMap Vector.toList).length = publicKeyLength := by
  rw [List.flatMap_singleton, CAbi.length_publicKey]

theorem sample_withSeeds : withSeeds (fun _ => sampleSeed) ([sampleKey].map RecipientPublic.mk) =
    toyRecipients sampleSecret sampleSeed := by
  unfold withSeeds toyRecipients
  simp only [List.map_singleton, List.zipIdx_singleton]
  rfl

/-- The run for the sample recipient, without metadata. -/
def sampleSurfaceRun (plaintext : Bytes) : ObjectEncryption :=
  surfaceRun Crypto.Primitives.toy Sign.Primitives.toy plaintext [sampleKey] none none
    sampleMaterial fun _ => sampleSeed

theorem sampleSurfaceRun_result {plaintext : Bytes} (h : plaintext.length ≤ maxSignedInput) :
    (sampleSurfaceRun plaintext).result = .ok plaintext.length := by
  unfold sampleSurfaceRun surfaceRun
  rw [sample_withSeeds]
  exact toy_encryptFor sampleSecret sampleMaterial sampleSeed none plaintext empty_valid empty_room h

theorem sampleSurfaceRun_separates (plaintext : Bytes) :
    RunSeparates Crypto.Primitives.toy Sign.Primitives.toy sampleSecret plaintext [sampleKey] none
      none sampleMaterial fun _ => sampleSeed := by
  unfold RunSeparates
  rw [sample_withSeeds]
  exact toy_separates sampleSecret sampleMaterial sampleSeed _ _ _ _

theorem sample_hideEncrypt {plaintext : Bytes} (h : plaintext.length ≤ Ffi.maxInput) :
    Ffi.hideEncrypt Crypto.Primitives.toy Sign.Primitives.toy (fun _ => true) (some plaintext)
      plaintext.length (some ([sampleKey].flatMap Vector.toList)) [sampleKey].length none none
      sampleMaterial (fun _ => sampleSeed) = .ok (sampleSurfaceRun plaintext).output := by
  have hkeys : Ffi.borrow (some ([sampleKey].flatMap Vector.toList))
      ([sampleKey].length * publicKeyLength) Ffi.maxInput =
      some ([sampleKey].flatMap Vector.toList) := by
    have hborrow : Ffi.borrow (some ([sampleKey].flatMap Vector.toList))
        ([sampleKey].flatMap Vector.toList).length Ffi.maxInput =
        some ([sampleKey].flatMap Vector.toList) := by
      apply Ffi.borrow_of_le
      rw [length_sampleKey]
      decide
    rw [length_sampleKey] at hborrow
    rw [List.length_singleton, Nat.one_mul]
    exact hborrow
  have hrun := sampleSurfaceRun_result (h.trans (show Ffi.maxInput ≤ maxSignedInput by decide))
  unfold sampleSurfaceRun surfaceRun at hrun ⊢
  unfold Ffi.hideEncrypt
  have hnone : Ffi.borrowStr none = some none := rfl
  rw [failIf_neg _ (by simp), ok_bind, Ffi.borrow_of_le h, okOr_some, ok_bind, hkeys, okOr_some,
    ok_bind, mapM_sampleKey (fromBytes_toyPublic _), mapErr_ok, ok_bind, hnone, okOr_some, ok_bind,
    ok_bind]
  simp only [hrun, mapErr_ok, ok_bind]
  rfl

theorem sample_encrypt {plaintext : Bytes} (h : plaintext.length ≤ Wasm.maxInput) :
    Wasm.encrypt Crypto.Primitives.toy Sign.Primitives.toy (fun _ => true) plaintext
      ([sampleKey].flatMap Vector.toList) none none sampleMaterial (fun _ => sampleSeed) =
      .ok (sampleSurfaceRun plaintext).output := by
  have hrun := sampleSurfaceRun_result (h.trans (show Wasm.maxInput ≤ maxSignedInput by decide))
  unfold sampleSurfaceRun surfaceRun at hrun ⊢
  have hparse : Wasm.parseRecipients (fun _ => true) ([sampleKey].flatMap Vector.toList) =
      .ok ([sampleKey].map RecipientPublic.mk) := by
    have hne : ¬([sampleKey].flatMap Vector.toList = [] ∨
        ([sampleKey].flatMap Vector.toList).length % publicKeyLength ≠ 0) := by
      rw [← List.length_eq_zero_iff, length_sampleKey]
      decide
    unfold Wasm.parseRecipients
    rw [failIf_neg _ hne, ok_bind]
    simp only [length_sampleKey]
    rw [failIf_neg _ (by decide), ok_bind]
    apply mapM_sampleKey
    exact mapErr_eq_ok.mpr (fromBytes_toyPublic _)
  unfold Wasm.encrypt
  rw [failIf_neg _ (by omega), ok_bind, hparse, ok_bind]
  simp only [hrun, mapErr_ok, ok_bind]
  rfl

/-- An audience of `n` bytes. -/
def sampleAudience (n : ℕ) : String := String.ofList (List.replicate n 'a')

theorem length_sampleAudience (n : ℕ) : (utf8 (sampleAudience n)).length = n := by
  have hascii : ∀ c ∈ List.replicate n 'a', c.toNat < 0x80 := by
    intro c hc
    rw [List.eq_of_mem_replicate hc]
    decide
  exact (length_textBytes_ascii hascii).trans List.length_replicate

theorem sampleAudience_noNul (n : ℕ) : '\x00' ∉ (sampleAudience n).toList := by
  rw [sampleAudience, String.toList_ofList]
  intro h
  exact absurd (List.eq_of_mem_replicate h) (by decide)

def sampleNonce : Vector UInt8 nonceLength := Vector.replicate nonceLength 4

theorem sample_new {n : ℕ} (h : n < 2 ^ 64) :
    ∃ challenge, Challenge.new (some sampleNonce) (sampleAudience n) 5 60 = .ok challenge := by
  unfold Challenge.new
  rw [okOr_some, ok_bind, dif_pos (by rw [length_sampleAudience]; exact h)]
  exact ⟨_, rfl⟩

theorem toBytes_sampleAudience (n : ℕ) :
    (Ffi.CString.ofString (sampleAudience n)).toBytes.length = n := by
  rw [Ffi.toBytes_ofString (sampleAudience_noNul n), length_sampleAudience]

theorem sample_hideChallengeNew {n : ℕ} (h : n < 2 ^ 64) :
    ∃ challenge, Ffi.hideChallengeNew (some sampleNonce)
      (some (Ffi.CString.ofString (sampleAudience n))) 5 60 = .ok challenge := by
  obtain ⟨challenge, hnew⟩ := sample_new h
  have hborrow : Ffi.borrowStr (some (Ffi.CString.ofString (sampleAudience n))) =
      some (some (sampleAudience n)) := by
    apply @Ffi.borrowStr_ofString (some (sampleAudience n))
    intro t ht
    rw [← Option.some.inj ht]
    exact sampleAudience_noNul n
  refine ⟨challenge.encode, ?_⟩
  unfold Ffi.hideChallengeNew
  rw [hborrow, okOr_some, ok_bind, okOr_some, ok_bind, hnew]
  rfl

theorem sample_newChallenge {n : ℕ} (h : n < 2 ^ 64) :
    ∃ challenge, Wasm.newChallenge (some sampleNonce) (sampleAudience n) 5 60 = .ok challenge := by
  obtain ⟨challenge, hnew⟩ := sample_new h
  refine ⟨challenge.encode, ?_⟩
  unfold Wasm.newChallenge
  rw [hnew]
  rfl

/-- Three bytes and a short audience go all the way. -/
theorem surfaces_read_three_bytes :
    (∃ container, Ffi.hideEncrypt Crypto.Primitives.toy Sign.Primitives.toy (fun _ => true)
        (some [1, 2, 3]) 3 (some ([sampleKey].flatMap Vector.toList)) 1 none none sampleMaterial
        (fun _ => sampleSeed) = .ok container ∧
      CAbi.Opens Crypto.Primitives.toy Sign.Primitives.toy container sampleSecret [1, 2, 3] none
        none) ∧
    ∃ challenge, Wasm.newChallenge (some sampleNonce) (sampleAudience 20) 5 60 = .ok challenge ∧
      Browser.Accepts Sign.Primitives.toy sampleIdentity challenge 5 := by
  obtain ⟨hopens, _, _, haccepts⟩ := surfaces_read_what_they_write_iff toy_aeadCorrect
    Sign.Primitives.toy_correct (fun _ => true)
  constructor
  · have hencrypt := @sample_hideEncrypt [1, 2, 3] (by decide)
    refine ⟨_, hencrypt, (hopens [1, 2, 3] [sampleKey] none none sampleMaterial
      (fun _ => sampleSeed) _ sampleSecret hencrypt sampleKey_listed ?_).mpr (by decide)⟩
    intro name type hname htype
    rw [← Option.some.inj hname, ← Option.some.inj htype]
    exact sampleSurfaceRun_separates [1, 2, 3]
  · obtain ⟨challenge, hnew⟩ := sample_newChallenge (show 20 < 2 ^ 64 by decide)
    refine ⟨challenge, hnew, (haccepts _ _ _ _ challenge sampleIdentity hnew).mpr ?_⟩
    rw [length_sampleAudience]
    decide

/-- A plaintext as long as the limit seals and does not open. -/
theorem not_opens_cAbi {plaintext : Bytes} (h : plaintext.length = Ffi.maxInput) :
    ∃ container, Ffi.hideEncrypt Crypto.Primitives.toy Sign.Primitives.toy (fun _ => true)
        (some plaintext) plaintext.length (some ([sampleKey].flatMap Vector.toList)) 1 none none
        sampleMaterial (fun _ => sampleSeed) = .ok container ∧
      ¬CAbi.Opens Crypto.Primitives.toy Sign.Primitives.toy container sampleSecret plaintext none
        none := by
  have hencrypt := sample_hideEncrypt h.le
  refine ⟨_, hencrypt, ?_⟩
  intro hopens
  have hle := (CAbi.opens_iff toy_aeadCorrect Sign.Primitives.toy_correct hencrypt sampleKey_listed
    (by
      intro name type hname htype
      rw [← Option.some.inj hname, ← Option.some.inj htype]
      exact sampleSurfaceRun_separates plaintext)).mp hopens
  rw [h] at hle
  exact absurd hle (not_le.mpr (lt_containerLen _ _ _))

theorem not_opens_browser {plaintext : Bytes} (h : plaintext.length = Wasm.maxInput) :
    ∃ container, Wasm.encrypt Crypto.Primitives.toy Sign.Primitives.toy (fun _ => true) plaintext
        ([sampleKey].flatMap Vector.toList) none none sampleMaterial (fun _ => sampleSeed) =
          .ok container ∧
      ¬Browser.Opens Crypto.Primitives.toy Sign.Primitives.toy container sampleSecret plaintext
        none none := by
  have hencrypt := sample_encrypt h.le
  refine ⟨_, hencrypt, ?_⟩
  intro hopens
  have hle := (Browser.opens_iff toy_aeadCorrect Sign.Primitives.toy_correct hencrypt
    sampleKey_listed (sampleSurfaceRun_separates plaintext)).mp hopens
  rw [h] at hle
  exact absurd hle (not_le.mpr (lt_containerLen _ _ _))

/-- At the limits of the writers: one GiB through the C ABI and 64 MiB in the browser seal and do
not open, and on both a challenge for an audience of 4041 bytes is issued and not answered. -/
theorem surfaces_refuse_what_they_write :
    (∃ container, Ffi.hideEncrypt Crypto.Primitives.toy Sign.Primitives.toy (fun _ => true)
        (some (List.replicate Ffi.maxInput 0)) Ffi.maxInput
        (some ([sampleKey].flatMap Vector.toList)) 1 none none sampleMaterial
        (fun _ => sampleSeed) = .ok container ∧
      ¬CAbi.Opens Crypto.Primitives.toy Sign.Primitives.toy container sampleSecret
        (List.replicate Ffi.maxInput 0) none none) ∧
    (∃ challenge, Ffi.hideChallengeNew (some sampleNonce)
        (some (Ffi.CString.ofString (sampleAudience 4041))) 5 60 = .ok challenge ∧
      ¬CAbi.Accepts Sign.Primitives.toy sampleIdentity challenge 5) ∧
    (∃ container, Wasm.encrypt Crypto.Primitives.toy Sign.Primitives.toy (fun _ => true)
        (List.replicate Wasm.maxInput 0) ([sampleKey].flatMap Vector.toList) none none
        sampleMaterial (fun _ => sampleSeed) = .ok container ∧
      ¬Browser.Opens Crypto.Primitives.toy Sign.Primitives.toy container sampleSecret
        (List.replicate Wasm.maxInput 0) none none) ∧
    ∃ challenge, Wasm.newChallenge (some sampleNonce) (sampleAudience 4041) 5 60 = .ok challenge ∧
      ¬Browser.Accepts Sign.Primitives.toy sampleIdentity challenge 5 := by
  have hlong : (4041 : ℕ) < 2 ^ 64 := by decide
  refine ⟨?_, ?_, not_opens_browser List.length_replicate, ?_⟩
  · have hcontainer := not_opens_cAbi (List.length_replicate (n := Ffi.maxInput) (a := 0))
    rwa [List.length_replicate] at hcontainer
  · obtain ⟨challenge, hnew⟩ := sample_hideChallengeNew hlong
    refine ⟨challenge, hnew, ?_⟩
    rw [CAbi.accepts_iff Sign.Primitives.toy_correct hnew, toBytes_sampleAudience]
    decide
  · obtain ⟨challenge, hnew⟩ := sample_newChallenge hlong
    refine ⟨challenge, hnew, ?_⟩
    rw [Browser.accepts_iff Sign.Primitives.toy_correct hnew, length_sampleAudience]
    decide

end Toy

end HideProtocol.Surfaces
