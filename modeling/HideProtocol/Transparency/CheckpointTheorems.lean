import HideProtocol.Transparency.Checkpoint

/-!
# What a witnessed checkpoint says

A note of valid lines reads back as itself (`SignedNote.decode_encode`), a line is attributed
to a key only if it verifies under it (`signedBy_eq_true`), and the loop over the witnesses
counts entries with different names (`countWitnesses_eq_ok`). So the threshold counts
different keys exactly when no key is listed under two names: names and key ids are compared,
keys are not.
-/

namespace HideProtocol.Transparency

open Lib

/-! ## Names and lines -/

theorem chars_of_validName {name : Text} (h : validName name = true) :
    name ≠ [] ∧ ∀ c ∈ name, (0x21 ≤ c.toNat ∧ c.toNat ≤ 0x7e) ∧ c.toNat ≠ '+'.toNat := by
  have ⟨hne, _, hall⟩ := of_decide_eq_true h
  simp only [List.all_eq_true, Bool.and_eq_true, decide_eq_true_eq] at hall
  refine ⟨hne, ?_⟩
  apply chars_of_bytes (P := fun n => (0x21 ≤ n ∧ n ≤ 0x7e) ∧ n ≠ '+'.toNat) _ hall
  intro n hn
  omega

theorem not_mem_of_validName {name : Text} (h : validName name = true) {c : Char}
    (hc : c.toNat < 0x21) : c ∉ name := by
  intro hmem
  have := ((chars_of_validName h).2 c hmem).1
  omega

/-- A line that `decode` accepts: a valid name and a signature that is there. -/
def NoteSignature.Valid (s : NoteSignature) : Prop := validName s.name = true ∧ s.signature ≠ []

namespace SignedNote

/-- A character of a signature line is the dash, a space or printable. -/
theorem mem_encodeLine {s : NoteSignature} (h : s.Valid) :
    ∀ c ∈ encodeLine s, c = '—' ∨ c = ' ' ∨ Base64.Printable c := by
  intro c hc
  simp only [encodeLine, dash, List.mem_append, List.mem_cons, List.not_mem_nil, or_false] at hc
  rcases hc with ((hc | hc) | hc) | hc | hc
  · exact Or.inl hc
  · exact Or.inr (Or.inl hc)
  · exact Or.inr (Or.inr ((chars_of_validName h.1).2 c hc).1)
  · exact Or.inr (Or.inl hc)
  · exact Or.inr (Or.inr (Base64.printable_encode _ c hc))

theorem newline_not_mem_encodeLine {s : NoteSignature} (h : s.Valid) : '\n' ∉ encodeLine s := by
  intro hmem
  rcases mem_encodeLine h '\n' hmem with hc | hc | hc
  · exact absurd hc (by decide)
  · exact absurd hc (by decide)
  · exact absurd hc.1 (by decide)

theorem isControl_encodeLine {s : NoteSignature} (h : s.Valid) :
    ∀ c ∈ encodeLine s, isControl c = false := by
  intro c hc
  rcases mem_encodeLine h c hc with rfl | rfl | hc
  · decide
  · decide
  · unfold isControl
    have h₁ := hc.1
    have h₂ := hc.2
    simp only [Bool.or_eq_false_iff, decide_eq_false_iff_not, Bool.and_eq_false_iff]
    omega

/-- The four bytes in front of a signature are its key id. -/
theorem keyId_getD (id : KeyId) (signature : Bytes) :
    (#v[(id.toList ++ signature).getD 0 0, (id.toList ++ signature).getD 1 0,
      (id.toList ++ signature).getD 2 0, (id.toList ++ signature).getD 3 0] : KeyId) = id := by
  have hlist : id.toList = [id[0], id[1], id[2], id[3]] := by
    apply List.ext_getElem
    · simp
    · intro i hi _
      rw [Vector.length_toList] at hi
      match i, hi with
      | 0, _ => simp
      | 1, _ => simp
      | 2, _ => simp
      | 3, _ => simp
  apply Vector.toList_inj.mp
  rw [hlist]
  rfl

theorem decodeLine_encodeLine {s : NoteSignature} (h : s.Valid) :
    decodeLine (encodeLine s) = .ok s := by
  have hstrip : (encodeLine s).dropPrefix? dash =
      some (s.name ++ ' ' :: Base64.encode (s.keyId.toList ++ s.signature)) := by
    unfold encodeLine
    rw [List.append_assoc]
    exact List.dropPrefix?_append_of_beq _ (by simp)
  have hsplit := splitOnce_append (not_mem_of_validName h.1 (by decide : ' '.toNat < 0x21))
    (Base64.encode (s.keyId.toList ++ s.signature))
  have hlen : ¬(s.keyId.toList ++ s.signature).length < 5 := by
    have := List.length_pos_iff.mpr h.2
    rw [List.length_append, Vector.length_toList]
    omega
  have hdrop : (s.keyId.toList ++ s.signature).drop 4 = s.signature :=
    List.drop_left' Vector.length_toList
  unfold decodeLine
  simp only [hstrip, hsplit, okOr_some, ok_bind, h.1, Base64.decode_encode]
  rw [failIf_neg _ (by decide), ok_bind, failIf_neg _ hlen, ok_bind, hdrop, keyId_getD]
  rfl

theorem decodeLines_encodeLine {signatures : List NoteSignature} (h : ∀ s ∈ signatures, s.Valid)
    {count : ℕ} (hcount : count + signatures.length ≤ maxSignatures) :
    decodeLines count (signatures.map encodeLine) = .ok signatures := by
  induction signatures generalizing count with
  | nil => rfl
  | cons s signatures ih =>
    rw [List.length_cons] at hcount
    have hrest := ih (fun t ht => h t (List.mem_cons_of_mem _ ht))
      (show count + 1 + signatures.length ≤ maxSignatures by omega)
    rw [List.map_cons, decodeLines, failIf_neg _ (by omega), ok_bind,
      decodeLine_encodeLine (h s List.mem_cons_self), ok_bind, hrest]
    rfl

/-- A note whose lines are valid and whose text is terminated. -/
structure Valid (note : SignedNote) : Prop where
  text : ∃ body, note.text = body ++ ['\n']
  control : ∀ c ∈ note.text, isControl c = true → c = '\n'
  signatures_ne : note.signatures ≠ []
  signatures_le : note.signatures.length ≤ maxSignatures
  signatures : ∀ s ∈ note.signatures, s.Valid
  length : (textBytes note.encode).length ≤ maxNoteBytes

theorem getLast?_lines {sep : Char} {lines : List Text} (h : lines ≠ []) :
    (lines.flatMap fun line => line ++ [sep]).getLast? = some sep := by
  obtain ⟨init, last, rfl⟩ : ∃ init last, lines = init ++ [last] :=
    ⟨lines.dropLast, lines.getLast h, (List.dropLast_append_getLast h).symm⟩
  rw [List.flatMap_append, List.flatMap_singleton, ← List.append_assoc, List.getLast?_concat]

theorem encode_lines (note : SignedNote) :
    note.encode =
      note.text ++ '\n' :: (note.signatures.map encodeLine).flatMap fun line => line ++ ['\n'] := by
  rw [encode, List.flatMap_map]

theorem newline_not_mem_lines {signatures : List NoteSignature} (h : ∀ s ∈ signatures, s.Valid) :
    ∀ line ∈ signatures.map encodeLine, '\n' ∉ line := by
  intro line hline
  obtain ⟨s, hs, rfl⟩ := List.mem_map.mp hline
  exact newline_not_mem_encodeLine (h s hs)

/-- The only control character of a note is the newline. -/
theorem control_encode {note : SignedNote} (h : note.Valid) {c : Char} (hc : c ∈ note.encode)
    (hctl : isControl c = true) : c = '\n' := by
  rw [encode_lines, List.mem_append, List.mem_cons, List.mem_flatMap] at hc
  rcases hc with hc | hc | ⟨line, hline, hc⟩
  · exact h.control c hc hctl
  · exact hc
  · obtain ⟨s, hs, rfl⟩ := List.mem_map.mp hline
    rcases List.mem_append.mp hc with hc | hc
    · rw [isControl_encodeLine (h.signatures s hs) c hc] at hctl
      cases hctl
    · exact List.mem_singleton.mp hc

theorem getLast?_encode {note : SignedNote} (h : note.signatures ≠ []) :
    note.encode.getLast? = some '\n' := by
  have hlines : note.signatures.map encodeLine ≠ [] := by
    intro hnil
    exact h (List.map_eq_nil_iff.mp hnil)
  rw [encode_lines, List.getLast?_append, List.getLast?_cons, getLast?_lines hlines]
  rfl

/-- The last blank line of a note is the one behind its text. -/
theorem splitLastDouble_encode {note : SignedNote} (h : note.Valid) :
    splitLastDouble '\n' note.encode = some (note.text,
      (note.signatures.map encodeLine).flatMap fun line => line ++ ['\n']) := by
  obtain ⟨body, hbody⟩ := h.text
  have hne : ∀ line ∈ note.signatures.map encodeLine, line ≠ [] := by
    intro line hline
    obtain ⟨s, hs, rfl⟩ := List.mem_map.mp hline
    simp [encodeLine, dash]
  rw [encode_lines, hbody, List.append_assoc]
  exact splitLastDouble_append body (noDouble_lines (newline_not_mem_lines h.signatures) hne)

/-- A note reads back as itself. -/
theorem decode_encode {note : SignedNote} (h : note.Valid) :
    decode (textBytes note.encode) = .ok note := by
  have hcontrol : ¬((note.encode.any fun c => isControl c && c ≠ '\n') = true ∨
      note.encode.getLast? ≠ some '\n') := by
    intro hbad
    simp only [List.any_eq_true, Bool.and_eq_true, decide_eq_true_eq] at hbad
    rcases hbad with ⟨c, hc, hctl, hnl⟩ | hlast
    · exact hnl (control_encode h hc hctl)
    · exact hlast (getLast?_encode h.signatures_ne)
  have hsigs : decodeLines 0 (note.signatures.map encodeLine) = .ok note.signatures :=
    decodeLines_encodeLine h.signatures (by rw [Nat.zero_add]; exact h.signatures_le)
  unfold decode
  rw [failIf_neg _ (not_lt.mpr h.length), ok_bind, textFromUtf8_textBytes, okOr_some, ok_bind,
    failIf_neg _ hcontrol, ok_bind, splitLastDouble_encode h]
  simp only [okOr_some, ok_bind, splitTerminator_lines (newline_not_mem_lines h.signatures), hsigs]
  rw [failIf_neg _ h.signatures_ne, ok_bind, failIf_neg _ (by simp), ok_bind]
  rfl

theorem valid_of_decodeLine {line : Text} {s : NoteSignature} (h : decodeLine line = .ok s) :
    s.Valid := by
  simp only [decodeLine, bind_eq_ok, okOr_eq_ok, failIf_eq_ok, pure_eq_ok, Bool.not_eq_false] at h
  obtain ⟨_, _, ⟨name, _⟩, _, _, hname, raw, _, _, hlen, rfl⟩ := h
  refine ⟨hname, ?_⟩
  intro hnil
  have := congrArg List.length hnil
  simp only [List.length_drop, List.length_nil] at this
  omega

theorem valid_of_decodeLines {lines : List Text} {count : ℕ} {signatures : List NoteSignature}
    (h : decodeLines count lines = .ok signatures) (hcount : count ≤ maxSignatures) :
    (∀ s ∈ signatures, s.Valid) ∧ count + signatures.length ≤ maxSignatures := by
  induction lines generalizing count signatures with
  | nil =>
    rw [decodeLines, pure_eq_ok] at h
    rw [h]
    exact ⟨by simp, hcount⟩
  | cons line lines ih =>
    simp only [decodeLines, bind_eq_ok, failIf_eq_ok, pure_eq_ok] at h
    obtain ⟨_, hroom, first, hfirst, rest, hrest, rfl⟩ := h
    obtain ⟨hvalid, hlen⟩ := ih hrest (by omega)
    refine ⟨List.forall_mem_cons.mpr ⟨valid_of_decodeLine hfirst, hvalid⟩, ?_⟩
    rw [List.length_cons]
    omega

/-- What `decode` accepts: the encoding of a note of valid lines. -/
theorem encode_of_decode {bytes : Bytes} {note : SignedNote} (h : decode bytes = .ok note) :
    bytes = textBytes note.encode ∧ bytes.length ≤ maxNoteBytes ∧ note.signatures ≠ [] ∧
      note.signatures.length ≤ maxSignatures ∧ ∀ s ∈ note.signatures, s.Valid := by
  simp only [decode, bind_eq_ok, okOr_eq_ok, failIf_eq_ok, pure_eq_ok, not_not] at h
  obtain ⟨_, hlen, _, _, _, _, _, _, signatures, hsigs, _, hne, _, hsame, rfl⟩ := h
  obtain ⟨hvalid, hle⟩ := valid_of_decodeLines hsigs (Nat.zero_le _)
  rw [Nat.zero_add] at hle
  exact ⟨hsame.symm, not_lt.mp hlen, hne, hle, hvalid⟩

/-- Every line of a note that was decoded has a valid name. -/
theorem validName_of_decode {bytes : Bytes} {note : SignedNote} (h : decode bytes = .ok note) :
    ∀ s ∈ note.signatures, validName s.name = true := by
  obtain ⟨_, _, _, _, hvalid⟩ := encode_of_decode h
  intro s hs
  exact (hvalid s hs).1

end SignedNote

/-! ## The text of a checkpoint -/

namespace Checkpoint

variable {checkpoint : Checkpoint} {text : Text}

theorem text_eq_ok (h : checkpoint.text = .ok text) :
    validName checkpoint.origin = true ∧
      text = [checkpoint.origin, formatU64 checkpoint.size,
        Base64.encode checkpoint.root.toList].flatMap fun line => line ++ ['\n'] := by
  simp only [Checkpoint.text, bind_eq_ok, failIf_eq_ok, pure_eq_ok, Bool.not_eq_false] at h
  obtain ⟨_, hname, rfl⟩ := h
  exact ⟨hname, by simp⟩

/-- A character of a line is printable. -/
theorem printable_text (h : checkpoint.text = .ok text) :
    ∀ line ∈ [checkpoint.origin, formatU64 checkpoint.size, Base64.encode checkpoint.root.toList],
      ∀ c ∈ line, Base64.Printable c := by
  intro line hline c hc
  simp only [List.mem_cons, List.not_mem_nil, or_false] at hline
  rcases hline with rfl | rfl | rfl
  · exact ((chars_of_validName (text_eq_ok h).1).2 c hc).1
  · obtain ⟨h₁, h₂⟩ := toNat_isDigit (isDigit_formatU64 _ c hc)
    show 0x21 ≤ c.toNat ∧ c.toNat ≤ 0x7e
    omega
  · exact Base64.printable_encode _ c hc

/-- A character of the text is printable or ends a line. -/
theorem mem_text (h : checkpoint.text = .ok text) {c : Char} (hc : c ∈ text) :
    Base64.Printable c ∨ c = '\n' := by
  rw [(text_eq_ok h).2, List.mem_flatMap] at hc
  have ⟨line, hline, hc⟩ := hc
  rcases List.mem_append.mp hc with hc | hc
  · exact Or.inl (printable_text h line hline c hc)
  · exact Or.inr (List.mem_singleton.mp hc)

/-- A note of a checkpoint's text and valid lines reads back, if it is not too long. -/
theorem valid_note {note : SignedNote} (h : checkpoint.text = .ok note.text)
    (hne : note.signatures ≠ []) (hle : note.signatures.length ≤ maxSignatures)
    (hvalid : ∀ s ∈ note.signatures, s.Valid)
    (hlen : (textBytes note.encode).length ≤ maxNoteBytes) : note.Valid := by
  refine ⟨?_, ?_, hne, hle, hvalid, hlen⟩
  · refine ⟨checkpoint.origin ++ '\n' :: (formatU64 checkpoint.size ++ '\n' ::
      Base64.encode checkpoint.root.toList), ?_⟩
    rw [(text_eq_ok h).2]
    simp
  · intro c hc hctl
    rcases mem_text h hc with hp | hnewline
    · simp only [isControl, Bool.or_eq_true, decide_eq_true_eq, Bool.and_eq_true] at hctl
      have h₁ := hp.1
      have h₂ := hp.2
      omega
    · exact hnewline

/-- What `parse_text` accepts is the text of what it returns. -/
theorem text_of_parseText (h : parseText text = .ok checkpoint) : checkpoint.text = .ok text := by
  unfold parseText at h
  split at h
  · simp only [bind_eq_ok, okOr_eq_ok, failIf_eq_ok, pure_eq_ok, not_not] at h
    obtain ⟨_, _, _, _, _, _, _, _, canonical, hcanonical, _, hsame, rfl⟩ := h
    rw [← hsame]
    exact hcanonical
  · cases h

theorem parseText_text (h : checkpoint.text = .ok text) : parseText text = .ok checkpoint := by
  have hlines : splitTerminator '\n' text = [checkpoint.origin, formatU64 checkpoint.size,
      Base64.encode checkpoint.root.toList] := by
    rw [(text_eq_ok h).2]
    apply splitTerminator_lines
    intro line hline hmem
    exact absurd (printable_text h line hline '\n' hmem).1 (by decide)
  unfold parseText
  simp only [hlines, (text_eq_ok h).1, parseU64_formatU64, Base64.decode_encode, tryInto_toList,
    okOr_some, ok_bind, h]
  rw [failIf_neg _ (by decide), ok_bind, failIf_neg _ (by simp), ok_bind]
  rfl

end Checkpoint

/-! ## Who signed -/

section
variable {sha256 : Bytes → Hash} {S : Sign.Primitives}

/-- A line of a note verifies under a key. -/
def SignedNote.Verifies (note : SignedNote) (key : Sign.VerifyingIdentity S)
    (line : NoteSignature) : Prop :=
  key.verify checkpointContext (textBytes note.text) line.signature = .ok ()

/-- The lines of a note that carry a name and the key id that goes with it. -/
def SignedNote.linesOf (sha256 : Bytes → Hash) (note : SignedNote) (name : Text)
    (key : Sign.VerifyingIdentity S) : List NoteSignature :=
  note.signatures.filter fun s => s.name = name ∧ s.keyId = keyId sha256 name key

/-- A key signed a note if it has a line there, and all its lines have to verify. -/
theorem signedBy_eq_ok {note : SignedNote} {name : Text} {key : Sign.VerifyingIdentity S}
    {signed : Bool} :
    note.signedBy sha256 name key = .ok signed ↔
      (∀ line ∈ note.linesOf sha256 name key, note.Verifies key line) ∧
        signed = decide (note.linesOf sha256 name key ≠ []) := by
  have hloop : ∀ (lines : List NoteSignature) (found : Bool),
      lines.foldlM (fun _ line => do
        failIf (line.signature.length ≠ Sign.signatureLength ∨
          key.verify checkpointContext (textBytes note.text) line.signature ≠ .ok ())
          LogError.badSignature
        pure true) found = Except.ok signed ↔
      (∀ line ∈ lines, note.Verifies key line) ∧ signed = (found || decide (lines ≠ [])) := by
    intro lines
    induction lines with
    | nil => simp [List.foldlM, eq_comm, pure, Except.pure]
    | cons line lines ih =>
      intro found
      rw [List.foldlM_cons]
      -- the length check is part of verifying
      by_cases hverify : note.Verifies key line
      · have hlen := Sign.length_of_verify hverify
        rw [failIf_neg _ (by
          rintro (h | h)
          · exact h hlen
          · exact h hverify), ok_bind]
        refine (ih true).trans ?_
        simp [hverify]
      · have hbad : line.signature.length ≠ Sign.signatureLength ∨
            key.verify checkpointContext (textBytes note.text) line.signature ≠ .ok () :=
          Or.inr hverify
        rw [failIf_pos _ hbad]
        simp [hverify]
  have h := hloop (note.linesOf sha256 name key) false
  rw [Bool.false_or] at h
  exact h

/-- Whoever signed a note has a line under its name that verifies. -/
theorem signedBy_eq_true {note : SignedNote} {name : Text} {key : Sign.VerifyingIdentity S}
    (h : note.signedBy sha256 name key = .ok true) :
    ∃ line ∈ note.signatures, line.name = name ∧ note.Verifies key line := by
  have ⟨hverify, hsome⟩ := signedBy_eq_ok.mp h
  have hne : note.linesOf sha256 name key ≠ [] := of_decide_eq_true hsome.symm
  have ⟨line, hline⟩ := List.exists_mem_of_ne_nil _ hne
  have hmem := List.mem_filter.mp hline
  exact ⟨line, hmem.1, (of_decide_eq_true hmem.2).1, hverify line hline⟩

/-- Two entries that are told apart: by their names and by their key ids. -/
def Apart (sha256 : Bytes → Hash) (p q : Text × Sign.VerifyingIdentity S) : Prop :=
  p.1 ≠ q.1 ∧ keyId sha256 p.1 p.2 ≠ keyId sha256 q.1 q.2

/-- What the loop remembers of an entry. -/
def remembered (sha256 : Bytes → Hash) (p : Text × Sign.VerifyingIdentity S) : Text × KeyId :=
  (p.1, keyId sha256 p.1 p.2)

/-- What a run of the loop counted: entries that signed, pairwise apart and apart from those
counted before, and such that every entry that signed shares a name or an id with one. -/
structure Counts (sha256 : Bytes → Hash) (note : SignedNote) (counted : List (Text × KeyId))
    (witnesses chosen : List (Text × Sign.VerifyingIdentity S)) : Prop where
  sublist : chosen.Sublist witnesses
  apart : chosen.Pairwise (Apart sha256)
  new : ∀ p ∈ chosen, ∀ entry ∈ counted, entry.1 ≠ p.1 ∧ entry.2 ≠ keyId sha256 p.1 p.2
  signed : ∀ p ∈ chosen, note.signedBy sha256 p.1 p.2 = .ok true
  covers : ∀ p ∈ witnesses, note.signedBy sha256 p.1 p.2 = .ok true →
    ∃ entry ∈ counted ++ chosen.map (remembered sha256),
      entry.1 = p.1 ∨ entry.2 = keyId sha256 p.1 p.2

theorem countWitnesses_eq_ok {note : SignedNote}
    {witnesses : List (Text × Sign.VerifyingIdentity S)} {counted : List (Text × KeyId)}
    {cosigned n : ℕ}
    (h : Checkpoint.countWitnesses sha256 note counted cosigned witnesses = .ok n) :
    ∃ chosen, Counts sha256 note counted witnesses chosen ∧ n = cosigned + chosen.length := by
  induction witnesses generalizing counted cosigned with
  | nil =>
    rw [Checkpoint.countWitnesses, pure_eq_ok] at h
    exact ⟨[], ⟨List.Sublist.refl _, List.Pairwise.nil, by simp, by simp, by simp⟩, h⟩
  | cons p witnesses ih =>
    rw [Checkpoint.countWitnesses] at h
    by_cases hseen : ∃ entry ∈ counted, entry.1 = p.1 ∨ entry.2 = keyId sha256 p.1 p.2
    · -- passed over
      rw [if_pos hseen] at h
      have ⟨chosen, hcounts, hn⟩ := ih h
      refine ⟨chosen, ⟨hcounts.sublist.cons p, hcounts.apart, hcounts.new, hcounts.signed, ?_⟩, hn⟩
      intro q hq hsigned
      rcases List.mem_cons.mp hq with rfl | hq
      · have ⟨entry, hentry, hmatch⟩ := hseen
        exact ⟨entry, List.mem_append_left _ hentry, hmatch⟩
      · exact hcounts.covers q hq hsigned
    · rw [if_neg hseen] at h
      have ⟨signed, hsigned, h⟩ := bind_eq_ok.mp h
      by_cases hs : signed = true
      · -- counted
        subst hs
        rw [if_pos rfl] at h
        have ⟨chosen, hcounts, hn⟩ := ih h
        have hnew : ∀ q ∈ chosen, Apart sha256 p q := by
          intro q hq
          exact hcounts.new q hq (remembered sha256 p) (List.mem_append_right _ (by
            simp [remembered]))
        refine ⟨p :: chosen, ⟨hcounts.sublist.cons_cons p,
          List.pairwise_cons.mpr ⟨hnew, hcounts.apart⟩, ?_, ?_, ?_⟩, ?_⟩
        · intro q hq entry hentry
          rcases List.mem_cons.mp hq with rfl | hq
          · have hnot := fun hmatch => hseen ⟨entry, hentry, hmatch⟩
            exact ⟨fun heq => hnot (Or.inl heq), fun heq => hnot (Or.inr heq)⟩
          · exact hcounts.new q hq entry (List.mem_append_left _ hentry)
        · intro q hq
          rcases List.mem_cons.mp hq with rfl | hq
          · exact hsigned
          · exact hcounts.signed q hq
        · intro q hq hq'
          rcases List.mem_cons.mp hq with rfl | hq
          · refine ⟨remembered sha256 q, List.mem_append_right _ ?_, Or.inl rfl⟩
            exact List.mem_map_of_mem List.mem_cons_self
          · have ⟨entry, hentry, hmatch⟩ := hcounts.covers q hq hq'
            refine ⟨entry, ?_, hmatch⟩
            rw [List.map_cons]
            simpa [remembered] using hentry
        · rw [hn, List.length_cons]
          omega
      · -- did not sign
        rw [if_neg hs] at h
        have ⟨chosen, hcounts, hn⟩ := ih h
        refine ⟨chosen, ⟨hcounts.sublist.cons p, hcounts.apart, hcounts.new, hcounts.signed, ?_⟩, hn⟩
        intro q hq hq'
        rcases List.mem_cons.mp hq with rfl | hq
        · rw [hsigned] at hq'
          exact absurd (Except.ok.inj hq') hs
        · exact hcounts.covers q hq hq'

/-- The loop succeeds when no line of a listed key fails. -/
theorem countWitnesses_succeeds {note : SignedNote}
    {witnesses : List (Text × Sign.VerifyingIdentity S)}
    (h : ∀ p ∈ witnesses, ∃ signed, note.signedBy sha256 p.1 p.2 = .ok signed)
    (counted : List (Text × KeyId)) (cosigned : ℕ) :
    ∃ n, Checkpoint.countWitnesses sha256 note counted cosigned witnesses = .ok n := by
  induction witnesses generalizing counted cosigned with
  | nil => exact ⟨cosigned, rfl⟩
  | cons p witnesses ih =>
    have hrest := ih fun q hq => h q (List.mem_cons_of_mem _ hq)
    have ⟨signed, hsigned⟩ := h p List.mem_cons_self
    rw [Checkpoint.countWitnesses]
    by_cases hseen : ∃ entry ∈ counted, entry.1 = p.1 ∨ entry.2 = keyId sha256 p.1 p.2
    · rw [if_pos hseen]
      exact hrest counted cosigned
    · rw [if_neg hseen, hsigned, ok_bind]
      by_cases hs : signed = true
      · rw [if_pos hs]
        exact hrest _ _
      · rw [if_neg hs]
        exact hrest _ _

end

end HideProtocol.Transparency
