import HideProtocol.Transparency.CheckpointTheorems

/-!
# Notes that the API makes

A log signs a checkpoint and parties cosign it, one after the other. Every note that comes of it is
a `partyNote`, whatever calls failed in between, fits the limit of a note with room to spare, and is
read back as it was written (`checkpoint_notes_round_trip`).
-/

namespace HideProtocol.Transparency

open Lib

section
variable {sha256 : Bytes → Hash} {S : Sign.Primitives}

/-- The line of an identity under a name. -/
def partyLine (sha256 : Bytes → Hash) (S : Sign.Primitives) (text : Text)
    (party : Text × Sign.SigningIdentity) : NoteSignature where
  name := party.1
  keyId := keyId sha256 party.1 (party.2.verifyingKey S)
  signature := (party.2.sign S checkpointContext (textBytes text)).toList

/-- The note that `sign` and then `cosign` make for a list of parties, the log first. -/
def partyNote (sha256 : Bytes → Hash) (S : Sign.Primitives) (text : Text)
    (parties : List (Text × Sign.SigningIdentity)) : SignedNote where
  text := text
  signatures := parties.map (partyLine sha256 S text)

theorem sign_eq_partyNote {checkpoint : Checkpoint} {text : Text} (h : checkpoint.text = .ok text)
    (identity : Sign.SigningIdentity) :
    checkpoint.sign sha256 S identity =
      .ok (partyNote sha256 S text [(checkpoint.origin, identity)]) := by
  unfold Checkpoint.sign
  rw [h, ok_bind]
  rfl

/-- A cosignature is one more line at the end. -/
theorem cosign_eq_ok {note cosigned : SignedNote} {name : Text} {witness : Sign.SigningIdentity} :
    Checkpoint.cosign sha256 S note name witness = .ok cosigned ↔
      validName name = true ∧ note.signatures.length < maxSignatures ∧
        cosigned = { note with
          signatures := note.signatures ++ [partyLine sha256 S note.text (name, witness)] } := by
  simp only [Checkpoint.cosign, bind_eq_ok, failIf_eq_ok, pure_eq_ok, not_or, Bool.not_eq_false,
    not_le, exists_const, and_assoc]
  rfl

/-- A party's line verifies on every note of its text. -/
theorem verifies_partyLine (hS : S.Correct) (note : SignedNote)
    (party : Text × Sign.SigningIdentity) :
    note.Verifies (party.2.verifyingKey S) (partyLine sha256 S note.text party) :=
  Sign.verify_sign hS party.2 checkpointContext (textBytes note.text)

theorem cosign_partyNote {text : Text} {parties : List (Text × Sign.SigningIdentity)} {name : Text}
    (hname : validName name = true) (hlen : parties.length < maxSignatures)
    (identity : Sign.SigningIdentity) :
    Checkpoint.cosign sha256 S (partyNote sha256 S text parties) name identity =
      .ok (partyNote sha256 S text (parties ++ [(name, identity)])) := by
  apply cosign_eq_ok.mpr
  refine ⟨hname, ?_, ?_⟩
  · show (parties.map _).length < maxSignatures
    rw [List.length_map]
    exact hlen
  · simp only [partyNote, List.map_append]
    rfl

theorem length_line_le {s : NoteSignature} (h : s.Valid)
    (hlen : s.signature.length = Sign.signatureLength) :
    (textBytes (SignedNote.encodeLine s ++ ['\n'])).length ≤ 4766 := by
  have hname := (of_decide_eq_true h.1).2.1
  rw [maxOriginBytes] at hname
  have hencoded : (textBytes (Base64.encode (s.keyId.toList ++ s.signature))).length = 4504 := by
    rw [length_textBytes_ascii, Base64.length_encode, List.length_append, Vector.length_toList, hlen]
    · rfl
    · intro c hc
      have := (Base64.printable_encode _ c hc).2
      omega
  have hdash : (textBytes dash).length = 4 := by decide
  have hspace : (textBytes [' ']).length = 1 := by decide
  have hnewline : (textBytes ['\n']).length = 1 := by decide
  unfold SignedNote.encodeLine
  rw [← List.singleton_append]
  simp only [textBytes_append, List.length_append]
  omega

theorem length_text_le {checkpoint : Checkpoint} {text : Text} (h : checkpoint.text = .ok text) :
    (textBytes text).length ≤ 323 := by
  have hname := (of_decide_eq_true (Checkpoint.text_eq_ok h).1).2.1
  rw [maxOriginBytes] at hname
  have hascii := Checkpoint.printable_text h
  have hlen : ∀ line ∈ [checkpoint.origin, formatU64 checkpoint.size,
      Base64.encode checkpoint.root.toList], (textBytes line).length = line.length := by
    intro line hline
    apply length_textBytes_ascii
    intro c hc
    have := (hascii line hline c hc).2
    omega
  have hdigits : (formatU64 checkpoint.size).length ≤ 20 := by
    apply (Nat.length_toDigits_le_iff (by decide) (by decide)).mpr
    have := checkpoint.size.toNat_lt
    omega
  have hroot : (Base64.encode checkpoint.root.toList).length = 44 := by
    rw [Base64.length_encode, Vector.length_toList]
  have h₂ := hlen (formatU64 checkpoint.size) (by simp)
  have h₃ := hlen (Base64.encode checkpoint.root.toList) (by simp)
  have hnewline : (textBytes ['\n']).length = 1 := by decide
  rw [(Checkpoint.text_eq_ok h).2]
  simp only [List.flatMap_cons, List.flatMap_nil, List.append_nil, textBytes_append,
    List.length_append]
  omega

theorem length_flatMap_le {α : Type} {f : α → Text} {xs : List α} {k : ℕ}
    (h : ∀ x ∈ xs, (textBytes (f x)).length ≤ k) :
    (textBytes (xs.flatMap f)).length ≤ xs.length * k := by
  induction xs with
  | nil => exact Nat.zero_le _
  | cons x xs ih =>
    have hx := h x List.mem_cons_self
    have hxs := ih fun y hy => h y (List.mem_cons_of_mem _ hy)
    rw [List.flatMap_cons, textBytes_append, List.length_append, List.length_cons, Nat.add_mul]
    omega

/-- The line of a party with a valid name. -/
theorem partyLine_valid (text : Text) {party : Text × Sign.SigningIdentity}
    (hname : validName party.1 = true) :
    (partyLine sha256 S text party).Valid ∧
      (partyLine sha256 S text party).signature.length = Sign.signatureLength := by
  have hlen : (partyLine sha256 S text party).signature.length = Sign.signatureLength :=
    Vector.length_toList
  refine ⟨⟨hname, ?_⟩, hlen⟩
  intro hnil
  rw [hnil] at hlen
  exact absurd hlen (by decide)

theorem length_encode_partyNote {checkpoint : Checkpoint} {text : Text}
    (h : checkpoint.text = .ok text) {parties : List (Text × Sign.SigningIdentity)}
    (hnames : ∀ p ∈ parties, validName p.1 = true) :
    (textBytes (partyNote sha256 S text parties).encode).length ≤ 324 + parties.length * 4766 := by
  have hlines : ∀ s ∈ (partyNote sha256 S text parties).signatures,
      (textBytes (SignedNote.encodeLine s ++ ['\n'])).length ≤ 4766 := by
    intro s hs
    have ⟨p, hp, heq⟩ := List.mem_map.mp hs
    subst heq
    exact length_line_le (partyLine_valid text (hnames p hp)).1
      (partyLine_valid text (hnames p hp)).2
  have hblock := length_flatMap_le hlines
  have hcount : (partyNote sha256 S text parties).signatures.length = parties.length :=
    List.length_map _
  have htextLen : (textBytes (partyNote sha256 S text parties).text).length ≤ 323 :=
    length_text_le h
  have hnewline : (textBytes ['\n']).length = 1 := by decide
  unfold SignedNote.encode
  rw [← List.singleton_append, textBytes_append, textBytes_append, List.length_append,
    List.length_append, ← hcount]
  omega

/-- What parties sign is a note every reader parses. -/
theorem partyNote_valid {checkpoint : Checkpoint} {text : Text} (h : checkpoint.text = .ok text)
    {parties : List (Text × Sign.SigningIdentity)} (hne : parties ≠ [])
    (hle : parties.length ≤ maxSignatures) (hnames : ∀ p ∈ parties, validName p.1 = true) :
    (partyNote sha256 S text parties).Valid := by
  apply Checkpoint.valid_note h
  · intro hnil
    exact hne (List.map_eq_nil_iff.mp hnil)
  · show (parties.map _).length ≤ maxSignatures
    rw [List.length_map]
    exact hle
  · intro s hs
    have ⟨p, hp, heq⟩ := List.mem_map.mp hs
    subst heq
    exact (partyLine_valid text (hnames p hp)).1
  · calc
      (textBytes (partyNote sha256 S text parties).encode).length
        ≤ 324 + parties.length * 4766 := length_encode_partyNote h hnames
      _ ≤ 324 + maxSignatures * 4766 := by gcongr
      _ ≤ maxNoteBytes := by decide

/-- Key ids tell the parties apart from every other pair that is asked for. -/
theorem signedBy_partyNote (hS : S.Correct) {text : Text}
    {parties : List (Text × Sign.SigningIdentity)} {name : Text} {key : Sign.VerifyingIdentity S}
    (hids : ∀ p ∈ parties, p.1 = name →
      keyId sha256 p.1 (p.2.verifyingKey S) = keyId sha256 name key → p.2.verifyingKey S = key) :
    (partyNote sha256 S text parties).signedBy sha256 name key =
      .ok (decide (∃ p ∈ parties, p.1 = name ∧ p.2.verifyingKey S = key)) := by
  have hmem : ∀ line, line ∈ (partyNote sha256 S text parties).linesOf sha256 name key ↔
      ∃ p ∈ parties, (p.1 = name ∧ p.2.verifyingKey S = key) ∧
        partyLine sha256 S text p = line := by
    intro line
    unfold SignedNote.linesOf partyNote
    rw [List.mem_filter, List.mem_map]
    constructor
    · rintro ⟨⟨p, hp, rfl⟩, hmatch⟩
      have hmatch := of_decide_eq_true hmatch
      exact ⟨p, hp, ⟨hmatch.1, hids p hp hmatch.1 hmatch.2⟩, rfl⟩
    · rintro ⟨p, hp, ⟨hname, hkey⟩, rfl⟩
      refine ⟨⟨p, hp, rfl⟩, decide_eq_true ⟨hname, ?_⟩⟩
      show keyId sha256 p.1 (p.2.verifyingKey S) = keyId sha256 name key
      rw [hname, hkey]
  apply signedBy_eq_ok.mpr
  constructor
  · intro line hline
    have ⟨p, _, ⟨_, hkey⟩, heq⟩ := (hmem line).mp hline
    subst heq
    subst hkey
    exact verifies_partyLine hS (partyNote sha256 S text parties) p
  · apply decide_eq_decide.mpr
    constructor
    · rintro ⟨p, hp, hparty⟩ hnil
      have : partyLine sha256 S text p ∈ [] := hnil ▸ (hmem _).mpr ⟨p, hp, hparty, rfl⟩
      cases this
    · intro hne
      have ⟨line, hline⟩ := List.exists_mem_of_ne_nil _ hne
      have ⟨p, hp, hparty, _⟩ := (hmem line).mp hline
      exact ⟨p, hp, hparty⟩

/-! ## Runs of `sign` and `cosign` -/

variable (sha256 S) in
/-- One call of `cosign` on a note held by the caller. A call that fails leaves it as it was. -/
def cosignCall (note : SignedNote) (call : Text × Sign.SigningIdentity) : SignedNote :=
  match Checkpoint.cosign sha256 S note call.1 call.2 with
  | .ok cosigned => cosigned
  | .error _ => note

theorem cosign_succeeds_iff {note : SignedNote} {name : Text} {witness : Sign.SigningIdentity} :
    (∃ cosigned, Checkpoint.cosign sha256 S note name witness = .ok cosigned) ↔
      validName name = true ∧ note.signatures.length < maxSignatures := by
  simp only [cosign_eq_ok, exists_and_left, exists_eq, and_true]

/-- What a log and its witnesses have signed so far: the log's line, and lines of other names. -/
def Signed (sha256 : Bytes → Hash) (S : Sign.Primitives) (text origin : Text)
    (log : Sign.SigningIdentity) (note : SignedNote) : Prop :=
  ∃ others, note = partyNote sha256 S text ((origin, log) :: others) ∧
    others.length < maxSignatures ∧ ∀ p ∈ others, validName p.1 = true ∧ p.1 ≠ origin

theorem Signed.cosignCall {text origin : Text} {log : Sign.SigningIdentity} {note : SignedNote}
    (h : Signed sha256 S text origin log note) {call : Text × Sign.SigningIdentity}
    (hcall : call.1 ≠ origin) :
    Signed sha256 S text origin log (cosignCall sha256 S note call) := by
  obtain ⟨others, hnote, hlen, hothers⟩ := h
  unfold Transparency.cosignCall
  by_cases hok : validName call.1 = true ∧ note.signatures.length < maxSignatures
  · have hroom : ((origin, log) :: others).length < maxSignatures := by
      have hcount : note.signatures.length = ((origin, log) :: others).length := by
        rw [hnote]
        exact List.length_map _
      omega
    rw [hnote, cosign_partyNote hok.1 hroom]
    refine ⟨others ++ [call], rfl, ?_, ?_⟩
    · rw [List.length_append, List.length_singleton]
      exact hroom
    · intro p hp
      rcases List.mem_append.mp hp with hp | hp
      · exact hothers p hp
      · rw [List.mem_singleton.mp hp]
        exact ⟨hok.1, hcall⟩
  · cases hresult : Checkpoint.cosign sha256 S note call.1 call.2 with
    | ok cosigned => exact absurd (cosign_succeeds_iff.mp ⟨cosigned, hresult⟩) hok
    | error _ => exact ⟨others, hnote, hlen, hothers⟩

theorem Signed.foldl_cosignCall {text origin : Text} {log : Sign.SigningIdentity}
    {calls : List (Text × Sign.SigningIdentity)} (hcalls : ∀ call ∈ calls, call.1 ≠ origin)
    {note : SignedNote} (h : Signed sha256 S text origin log note) :
    Signed sha256 S text origin log (calls.foldl (Transparency.cosignCall sha256 S) note) := by
  induction calls generalizing note with
  | nil => exact h
  | cons call calls ih =>
    rw [List.foldl_cons]
    apply ih
    · intro later hlater
      exact hcalls later (List.mem_cons_of_mem _ hlater)
    · exact h.cosignCall (hcalls call List.mem_cons_self)

/-- Such a note is read back, and the log's signature on it verifies. -/
theorem Signed.reads_back (hS : S.Correct) {checkpoint : Checkpoint} {text : Text}
    (htext : checkpoint.text = .ok text) {log : Sign.SigningIdentity} {note : SignedNote}
    (h : Signed sha256 S text checkpoint.origin log note) :
    (textBytes note.encode).length ≤ maxNoteBytes ∧
      SignedNote.decode (textBytes note.encode) = .ok note ∧
      Checkpoint.verify sha256 (textBytes note.encode) checkpoint.origin (log.verifyingKey S) =
        .ok checkpoint := by
  obtain ⟨others, hnote, hlen, hothers⟩ := h
  have hnames : ∀ p ∈ (checkpoint.origin, log) :: others, validName p.1 = true := by
    intro p hp
    rcases List.mem_cons.mp hp with rfl | hp
    · exact (Checkpoint.text_eq_ok htext).1
    · exact (hothers p hp).1
  have hvalid : note.Valid := by
    rw [hnote]
    exact partyNote_valid htext (List.cons_ne_nil _ _) hlen hnames
  have hdecode := SignedNote.decode_encode hvalid
  -- nobody else signs under the origin, so the only line of that name is the log's
  have hids : ∀ p ∈ (checkpoint.origin, log) :: others, p.1 = checkpoint.origin →
      keyId sha256 p.1 (p.2.verifyingKey S) =
        keyId sha256 checkpoint.origin (log.verifyingKey S) →
      p.2.verifyingKey S = log.verifyingKey S := by
    intro p hp hname _
    rcases List.mem_cons.mp hp with rfl | hp
    · rfl
    · exact absurd hname (hothers p hp).2
  have hsigned : note.signedBy sha256 checkpoint.origin (log.verifyingKey S) = .ok true := by
    rw [hnote, signedBy_partyNote hS hids]
    congr 1
    exact decide_eq_true ⟨(checkpoint.origin, log), List.mem_cons_self, rfl, rfl⟩
  have hparse : Checkpoint.parseText note.text = .ok checkpoint := by
    rw [hnote]
    exact Checkpoint.parseText_text htext
  refine ⟨hvalid.length, hdecode, ?_⟩
  unfold Checkpoint.verify Checkpoint.verifyWitnessed
  rw [hdecode, ok_bind, hparse, ok_bind, failIf_neg _ (by simp), ok_bind, hsigned, ok_bind]
  rfl

/-- **Notes round-trip and are canonical.** Whatever calls of `cosign` follow `sign`, under names
other than the origin, each succeeds exactly if its name is valid and there is room, and then adds
one line of that name, which verifies under the witness's key. The note they leave is within the
limit, decodes to itself and verifies to the checkpoint that was signed. And what `decode` or
`parseText` accepts is what writing the result gives. -/
theorem checkpoint_notes_round_trip (sha256 : Bytes → Hash) (S : Sign.Primitives)
    (hS : S.Correct) :
    (∀ (checkpoint : Checkpoint) (log : Sign.SigningIdentity)
        (calls : List (Text × Sign.SigningIdentity)), validName checkpoint.origin = true →
        (∀ call ∈ calls, call.1 ≠ checkpoint.origin) →
        ∃ signed, checkpoint.sign sha256 S log = .ok signed ∧
          let note := calls.foldl (cosignCall sha256 S) signed
          (∀ name witness, (∃ cosigned, Checkpoint.cosign sha256 S note name witness = .ok cosigned) ↔
            validName name = true ∧ note.signatures.length < maxSignatures) ∧
          (∀ name witness cosigned, Checkpoint.cosign sha256 S note name witness = .ok cosigned →
            ∃ line : NoteSignature,
              cosigned = { note with signatures := note.signatures ++ [line] } ∧
              line.name = name ∧ line.keyId = keyId sha256 name (witness.verifyingKey S) ∧
              cosigned.Verifies (witness.verifyingKey S) line) ∧
          (textBytes note.encode).length ≤ maxNoteBytes ∧
          SignedNote.decode (textBytes note.encode) = .ok note ∧
          Checkpoint.verify sha256 (textBytes note.encode) checkpoint.origin (log.verifyingKey S) =
            .ok checkpoint) ∧
      (∀ bytes note, SignedNote.decode bytes = .ok note → textBytes note.encode = bytes) ∧
      ∀ text checkpoint, Checkpoint.parseText text = .ok checkpoint → checkpoint.text = .ok text := by
  refine ⟨?_, ?_, fun _ _ => Checkpoint.text_of_parseText⟩
  · intro checkpoint log calls horigin hcalls
    have ⟨text, htext⟩ : ∃ text, checkpoint.text = .ok text := by
      unfold Checkpoint.text
      rw [failIf_neg _ (by simp [horigin]), ok_bind]
      exact ⟨_, rfl⟩
    refine ⟨_, sign_eq_partyNote htext log, ?_⟩
    have hstart : Signed sha256 S text checkpoint.origin log
        (partyNote sha256 S text [(checkpoint.origin, log)]) :=
      ⟨[], rfl, by decide, by simp⟩
    refine ⟨fun _ _ => cosign_succeeds_iff, ?_,
      (Signed.foldl_cosignCall hcalls hstart).reads_back hS htext⟩
    intro name witness cosigned hcosign
    obtain ⟨-, -, rfl⟩ := cosign_eq_ok.mp hcosign
    exact ⟨partyLine sha256 S _ (name, witness), rfl, rfl, rfl, verifies_partyLine hS _ _⟩
  · intro bytes note h
    exact (SignedNote.encode_of_decode h).1.symm

/-- The theorem at a log with one witness, a second call under an invalid name between its two. -/
theorem checkpoint_notes_round_trip_one_witness :
    let log : Sign.SigningIdentity := ⟨Vector.replicate 32 1⟩
    let witness : Sign.SigningIdentity := ⟨Vector.replicate 32 2⟩
    let checkpoint : Checkpoint := ⟨['l', 'o', 'g'], 7, Vector.replicate 32 0⟩
    let calls : List (Text × Sign.SigningIdentity) :=
      [(['w'], witness), (['+'], witness), (['v'], witness)]
    ∃ signed, checkpoint.sign (fun _ => Vector.replicate 32 0) Sign.Primitives.keyed log =
        .ok signed ∧
      Checkpoint.verify (fun _ => Vector.replicate 32 0) (textBytes (calls.foldl (cosignCall
        (fun _ => Vector.replicate 32 0) Sign.Primitives.keyed) signed).encode) checkpoint.origin
        (log.verifyingKey Sign.Primitives.keyed) = .ok checkpoint := by
  intro log witness checkpoint calls
  obtain ⟨signed, hsigned, -, -, -, -, hverify⟩ := (checkpoint_notes_round_trip
    (fun _ => Vector.replicate 32 0) Sign.Primitives.keyed Sign.Primitives.keyed_correct).1
    checkpoint log calls (by decide) (by decide)
  exact ⟨signed, hsigned, hverify⟩

end

end HideProtocol.Transparency
