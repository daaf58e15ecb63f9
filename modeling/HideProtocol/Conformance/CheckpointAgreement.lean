import HideProtocol.Conformance.IdentityAgreement
import HideProtocol.Transparency.Witnesses

/-!
# Two readers of checkpoint notes

The Rust reader decides whether a note is canonical by writing it out again; the independent reader
checks every field as it goes. Both accept the same notes (`parseNote_eq_ok`,
`decode_parseText_iff`), and then count the same signatures. They differ in front of the note: a
byte order mark there is dropped by one and refused by the other.
-/

namespace HideProtocol.Conformance.Subsystems

open Lib

/-! ## Names -/

theorem utf16_ascii {c : Char} (h : c.toNat < 0x80) : utf16 c = [c.toNat] :=
  if_pos (by omega)

/-- On ASCII, code units and bytes are the characters. -/
theorem ascii_eq {text : Text} (h : ∀ c ∈ text, c.toNat < 0x80) : ascii text = textBytes text := by
  rw [textBytes_eq_flatMap]
  unfold ascii
  rw [List.map_flatMap]
  apply List.flatMap_congr
  intro c hc
  rw [utf16_ascii (h c hc), utf8EncodeChar_ascii (h c hc)]
  rfl

theorem length_utf16 {text : Text} (h : ∀ c ∈ text, c.toNat < 0x80) :
    (text.flatMap utf16).length = (textBytes text).length := by
  rw [← ascii_eq h, ascii, List.length_map]

/-- One tests bytes, the other code units and a character class. -/
theorem validName_eq (name : Text) : validName name = Transparency.validName name := by
  rw [Bool.eq_iff_iff]
  constructor
  · intro h
    simp only [validName, Bool.and_eq_true, decide_eq_true_eq, List.all_eq_true] at h
    obtain ⟨⟨hpos, hlen⟩, hall⟩ := h
    have hrange : ∀ c ∈ name, (0x21 ≤ c.toNat ∧ c.toNat ≤ 0x7e) ∧ c.toNat ≠ '+'.toNat := by
      intro c hc
      have hclass := hall c hc
      have hplus : '+'.toNat = 0x2b := rfl
      simp only [isNameChar, Bool.or_eq_true, Bool.and_eq_true, decide_eq_true_eq] at hclass
      omega
    have hascii : ∀ c ∈ name, c.toNat < 0x80 := by
      intro c hc
      have := (hrange c hc).1
      omega
    have hne : name ≠ [] := by
      rintro rfl
      simp at hpos
    refine decide_eq_true ⟨hne, by rwa [length_utf16 hascii] at hlen, ?_⟩
    rw [List.all_eq_true]
    intro b hb
    rw [textBytes_eq_flatMap, List.mem_flatMap] at hb
    obtain ⟨c, hc, hb⟩ := hb
    rw [utf8EncodeChar_ascii (hascii c hc), List.mem_singleton] at hb
    have hnat : b.toNat = c.toNat := by
      rw [hb, UInt8.toNat_ofNat', Nat.mod_eq_of_lt (by have := hascii c hc; omega)]
    rw [hnat]
    have := hrange c hc
    simp only [Bool.and_eq_true, decide_eq_true_eq]
    exact this
  · intro h
    obtain ⟨hne, hrange⟩ := Transparency.chars_of_validName h
    obtain ⟨-, hlen, -⟩ := of_decide_eq_true h
    have hascii : ∀ c ∈ name, c.toNat < 0x80 := by
      intro c hc
      have := (hrange c hc).1
      omega
    simp only [validName, Bool.and_eq_true, decide_eq_true_eq, List.all_eq_true]
    refine ⟨⟨?_, ?_⟩, ?_⟩
    · rw [length_utf16 hascii, length_textBytes_ascii hascii]
      exact List.length_pos_iff.mpr hne
    · rw [length_utf16 hascii]
      exact hlen
    · intro c hc
      have hplus : '+'.toNat = 0x2b := rfl
      have := hrange c hc
      simp only [isNameChar, Bool.or_eq_true, Bool.and_eq_true, decide_eq_true_eq]
      omega

/-! ## Lines -/

/-- What the independent reader keeps of a signature line. -/
def viewSignature (s : Transparency.NoteSignature) : NoteSignature where
  name := s.name
  keyId := s.keyId.toList
  signature := s.signature

/-- What the independent reader returns of a checkpoint. -/
def viewCheckpoint (checkpoint : Transparency.Checkpoint) : Checkpoint where
  origin := checkpoint.origin
  size := checkpoint.size.toNat
  root := checkpoint.root.toList

section
variable {base64 : Base64Reader}

theorem space_not_mem_encode (bytes : Bytes) : ' ' ∉ Base64.encode bytes := by
  intro hmem
  exact absurd (Base64.printable_encode bytes ' ' hmem).1 (by decide)

/-- A line is accepted exactly when it is the canonical form of a valid one. -/
theorem parseLine_eq_ok {line : Text} {seen : NoteSignature} :
    parseLine base64 line = .ok seen ↔ ∃ s : Transparency.NoteSignature, s.Valid ∧
      line = Transparency.SignedNote.encodeLine s ∧ seen = viewSignature s := by
  constructor
  · intro h
    unfold parseLine at h
    simp only [bind_eq_ok, failIf_eq_ok, okOr_eq_ok, pure_eq_ok] at h
    obtain ⟨_, hdash, _, hpieces, encoded, hencoded, _, hraw, rfl⟩ := h
    rw [not_or] at hpieces hraw
    obtain ⟨hraw, hcanonical⟩ := hraw
    obtain ⟨rest, rfl⟩ : dash <+: line := by simpa using hdash
    rw [List.drop_left] at hpieces hencoded ⊢
    have hjoin : [' '].intercalate (rest.splitOn ' ') = rest := List.intercalate_splitOn ' '
    -- after the dash there are exactly two pieces
    obtain ⟨name, hname⟩ : ∃ name, rest.splitOn ' ' = [name, encoded] := by
      rcases hsplit : rest.splitOn ' ' with _ | ⟨name, _ | ⟨second, _ | ⟨third, more⟩⟩⟩
      · rw [hsplit] at hencoded
        cases hencoded
      · rw [hsplit] at hencoded
        cases hencoded
      · rw [hsplit] at hencoded
        exact ⟨name, by rw [Option.some.inj hencoded]⟩
      · rw [hsplit] at hpieces
        simp at hpieces
    rw [hname] at hpieces hjoin ⊢
    have hvalid : Transparency.validName name = true := by
      rw [← validName_eq]
      simpa using hpieces.2
    have hlen : 5 ≤ (base64.read encoded).length := not_lt.mp hraw
    -- the second piece holds four bytes of key id and at least one of signature
    obtain ⟨id, hid⟩ := exists_vector (n := 4)
      (show ((base64.read encoded).take 4).length = 4 by rw [List.length_take]; omega)
    refine ⟨⟨name, id, (base64.read encoded).drop 4⟩, ⟨hvalid, ?_⟩, ?_, ?_⟩
    · intro hnil
      have := congrArg List.length hnil
      simp only [List.length_drop, List.length_nil] at this
      omega
    · unfold Transparency.SignedNote.encodeLine
      rw [hid, List.take_append_drop, not_not.mp hcanonical, ← hjoin]
      simp [dash, Transparency.dash]
    · unfold viewSignature
      rw [hid]
      rfl
  · rintro ⟨s, hvalid, rfl, rfl⟩
    -- neither piece of a written line has a space in it
    have hspace := Transparency.not_mem_of_validName hvalid.1 (by decide : ' '.toNat < 0x21)
    let raw := s.keyId.toList ++ s.signature
    have hdrop : (Transparency.SignedNote.encodeLine s).drop dash.length =
        s.name ++ ' ' :: Base64.encode raw := by
      unfold Transparency.SignedNote.encodeLine
      rw [List.append_assoc]
      rfl
    have hsplit : (s.name ++ ' ' :: Base64.encode raw).splitOn ' ' = [s.name, Base64.encode raw] := by
      rw [List.splitOn_append_cons_self_of_not_mem hspace,
        List.splitOn_eq_singleton (space_not_mem_encode raw)]
    have hdash : dash.isPrefixOf (Transparency.SignedNote.encodeLine s) = true := by
      rw [List.isPrefixOf_iff_prefix]
      unfold Transparency.SignedNote.encodeLine
      rw [List.append_assoc]
      exact List.prefix_append _ _
    have hlen : ¬raw.length < 5 := by
      have := List.length_pos_iff.mpr hvalid.2
      rw [List.length_append, Vector.length_toList]
      omega
    unfold parseLine
    simp only [hdash, hdrop, hsplit]
    rw [failIf_neg _ (by simp), ok_bind, failIf_neg _ (by simp [validName_eq, hvalid.1]), ok_bind]
    simp only [List.getElem?_cons_succ, List.getElem?_cons_zero, okOr_some, ok_bind,
      base64.read_encode]
    rw [failIf_neg _ (by simp [hlen]), ok_bind]
    have htake : raw.take 4 = s.keyId.toList := List.take_left' Vector.length_toList
    have hrest : raw.drop 4 = s.signature := List.drop_left' Vector.length_toList
    rw [htake, hrest]
    rfl

/-! ## The text -/

/-- Decimal digits without a leading zero are the form of a 64-bit number or too many. -/
theorem isDecimal_iff {text : Text} :
    isDecimal text = true ∧ ¬Nat.ofDigitChars 10 text 0 > u64Max ↔
      ∃ n : UInt64, text = formatU64 n := by
  constructor
  · rintro ⟨hdecimal, hle⟩
    let value := Nat.ofDigitChars 10 text 0
    have hlt : value < 2 ^ 64 := by
      unfold u64Max at hle
      omega
    refine ⟨UInt64.ofNat value, ?_⟩
    unfold formatU64
    rw [UInt64.toNat_ofNat_of_lt' hlt]
    rcases text with _ | ⟨c, cs⟩
    · cases hdecimal
    · simp only [isDecimal, Bool.or_eq_true, Bool.and_eq_true, decide_eq_true_eq, List.isEmpty_iff,
        List.all_eq_true] at hdecimal
      rcases hdecimal with ⟨rfl, rfl⟩ | ⟨⟨hzero, hc⟩, hcs⟩
      · have hvalue : value = 0 := by simp [value, Nat.ofDigitChars_cons]
        rw [hvalue, Nat.toDigits_zero]
      · refine (toDigits_ofDigitChars ?_ (List.cons_ne_nil _ _) ?_).2.symm
        · exact List.forall_mem_cons.mpr ⟨hc, hcs⟩
        · intro h0
          exact hzero (Option.some.inj h0)
  · rintro ⟨n, rfl⟩
    have hvalue : Nat.ofDigitChars 10 (formatU64 n) 0 = n.toNat := Nat.ofDigitChars_ten_toDigits
    have hlt := n.toNat_lt
    constructor
    · have hdigits := isDigit_formatU64 n
      rcases hform : formatU64 n with _ | ⟨c, cs⟩
      · exact absurd hform Nat.toDigits_ne_nil
      · rw [hform] at hdigits hvalue
        simp only [isDecimal, Bool.or_eq_true, Bool.and_eq_true, decide_eq_true_eq,
          List.isEmpty_iff, List.all_eq_true]
        by_cases hzero : c = '0'
        · have hn : n.toNat = 0 := by
            by_contra hne
            have hhead := head?_toDigits hne
            rw [show Nat.toDigits 10 n.toNat = c :: cs from hform, hzero] at hhead
            exact hhead rfl
          left
          unfold formatU64 at hform
          rw [hn, Nat.toDigits_zero] at hform
          exact ⟨hzero, (List.cons.inj hform).2.symm⟩
        · right
          exact ⟨⟨hzero, hdigits c List.mem_cons_self⟩,
            fun d hd => hdigits d (List.mem_cons_of_mem _ hd)⟩
    · rw [hvalue]
      unfold u64Max
      omega

/-- A terminated text is accepted exactly when it is the canonical text of a checkpoint. -/
theorem parseText_eq_ok {text : Text} (hlast : text.getLast? = some '\n') {seen : Checkpoint} :
    parseText base64 text = .ok seen ↔ ∃ checkpoint : Transparency.Checkpoint,
      checkpoint.text = .ok text ∧ seen = viewCheckpoint checkpoint := by
  constructor
  · intro h
    unfold parseText at h
    simp only [bind_eq_ok, failIf_eq_ok, pure_eq_ok] at h
    obtain ⟨_, hlines, _, hsize, _, hroot, rfl⟩ := h
    rw [not_or, not_or] at hlines
    obtain ⟨hlen, hname, hdecimal⟩ := hlines
    rw [not_or, not_not, not_not] at hroot
    obtain ⟨hrootLen, hcanonical⟩ := hroot
    have hjoin := lines_splitOn hlast
    obtain ⟨origin, size, root, hform⟩ : ∃ origin size root,
        (text.splitOn '\n').dropLast = [origin, size, root] := by
      rcases hform : (text.splitOn '\n').dropLast with
        _ | ⟨origin, _ | ⟨size, _ | ⟨root, _ | ⟨extra, more⟩⟩⟩⟩
      · simp [hform] at hcanonical
      · simp [hform] at hcanonical
      · simp [hform] at hcanonical
      · exact ⟨origin, size, root, rfl⟩
      · simp [hform] at hlen
    rw [hform] at hname hdecimal hsize hrootLen hcanonical hjoin ⊢
    simp only [List.getD_cons_zero, List.getD_cons_succ, List.getElem?_cons_succ,
      List.getElem?_cons_zero, Option.some.injEq, Bool.not_eq_false] at *
    have hvalid : Transparency.validName origin = true := by
      rw [← validName_eq]
      exact hname
    obtain ⟨n, rfl⟩ := isDecimal_iff.mp ⟨hdecimal, hsize⟩
    obtain ⟨digest, hdigest⟩ := exists_vector hrootLen
    refine ⟨⟨origin, n, digest⟩, ?_, ?_⟩
    · unfold Transparency.Checkpoint.text
      rw [failIf_neg _ (by simp [hvalid]), ok_bind, ← hjoin, hdigest, hcanonical]
      simp [pure, Except.pure]
    · unfold viewCheckpoint
      rw [hdigest, show Nat.ofDigitChars 10 (formatU64 n) 0 = n.toNat from
        Nat.ofDigitChars_ten_toDigits]
  · rintro ⟨checkpoint, htext, rfl⟩
    have hprintable := Transparency.Checkpoint.printable_text htext
    obtain ⟨hvalid, hform⟩ := Transparency.Checkpoint.text_eq_ok htext
    have hlines : (text.splitOn '\n').dropLast = [checkpoint.origin, formatU64 checkpoint.size,
        Base64.encode checkpoint.root.toList] := by
      rw [hform, splitOn_lines, List.dropLast_concat]
      intro line hline hmem
      exact absurd (hprintable line hline '\n' hmem).1 (by decide)
    obtain ⟨hdecimal, hsize⟩ := isDecimal_iff.mpr ⟨checkpoint.size, rfl⟩
    have hvalue : Nat.ofDigitChars 10 (formatU64 checkpoint.size) 0 = checkpoint.size.toNat :=
      Nat.ofDigitChars_ten_toDigits
    unfold parseText
    simp only [hlines, List.getD_cons_zero, List.getD_cons_succ, List.getElem?_cons_succ,
      List.getElem?_cons_zero, base64.read_encode]
    rw [failIf_neg _ (by simp [validName_eq, hvalid, hdecimal]), ok_bind, failIf_neg _ hsize,
      ok_bind, failIf_neg _ (by simp), ok_bind, hvalue]
    rfl

/-! ## The whole note -/

/-- The canonical notes: the text of a checkpoint and one to thirty-two valid lines. -/
structure Canonical (note : Transparency.SignedNote) (checkpoint : Transparency.Checkpoint) :
    Prop where
  text : checkpoint.text = .ok note.text
  signatures_ne : note.signatures ≠ []
  signatures_le : note.signatures.length ≤ Transparency.maxSignatures
  signatures : ∀ s ∈ note.signatures, s.Valid

/-- The Rust reader parses the canonical notes. -/
theorem decode_parseText_iff {bytes : Bytes} {note : Transparency.SignedNote}
    {checkpoint : Transparency.Checkpoint} :
    Transparency.SignedNote.decode bytes = .ok note ∧
        Transparency.Checkpoint.parseText note.text = .ok checkpoint ↔
      bytes.length ≤ maxNoteBytes ∧ bytes = textBytes note.encode ∧ Canonical note checkpoint := by
  constructor
  · rintro ⟨hdecode, hparse⟩
    obtain ⟨hbytes, hlen, hne, hle, hvalid⟩ :=
      Transparency.SignedNote.encode_of_decode hdecode
    exact ⟨hlen, hbytes, Transparency.Checkpoint.text_of_parseText hparse, hne, hle, hvalid⟩
  · rintro ⟨hlen, rfl, hcanonical⟩
    have hvalid := Transparency.Checkpoint.valid_note hcanonical.text hcanonical.signatures_ne
      hcanonical.signatures_le hcanonical.signatures hlen
    exact ⟨Transparency.SignedNote.decode_encode hvalid,
      Transparency.Checkpoint.parseText_text hcanonical.text⟩

/-- The lines of a block, one by one. -/
theorem mapM_parseLine {lines : List Text} {seen : List NoteSignature} :
    lines.mapM (parseLine base64) = .ok seen ↔ ∃ signatures : List Transparency.NoteSignature,
      (∀ s ∈ signatures, s.Valid) ∧ lines = signatures.map Transparency.SignedNote.encodeLine ∧
        seen = signatures.map viewSignature := by
  constructor
  · intro h
    have hpairs := forall₂_of_mapM h
    clear h
    induction hpairs with
    | nil => exact ⟨[], by simp, rfl, rfl⟩
    | cons hline _ ih =>
      obtain ⟨s, hvalid, rfl, rfl⟩ := parseLine_eq_ok.mp hline
      obtain ⟨signatures, hall, rfl, rfl⟩ := ih
      exact ⟨s :: signatures, List.forall_mem_cons.mpr ⟨hvalid, hall⟩, rfl, rfl⟩
  · rintro ⟨signatures, hall, rfl, rfl⟩
    induction signatures with
    | nil => rfl
    | cons s signatures ih =>
      have hline : parseLine base64 (Transparency.SignedNote.encodeLine s) = .ok (viewSignature s) :=
        parseLine_eq_ok.mpr ⟨s, hall s List.mem_cons_self, rfl, rfl⟩
      rw [List.map_cons, List.mapM_cons, hline, ok_bind,
        ih fun t ht => hall t (List.mem_cons_of_mem _ ht)]
      rfl

/-- The independent reader parses the canonical notes, behind a byte order mark if there is one. -/
theorem parseNote_eq_ok {bytes : Bytes} {parsed : Text × List NoteSignature × Checkpoint} :
    parseNote base64 bytes = .ok parsed ↔ bytes.length ≤ maxNoteBytes ∧
      ∃ note checkpoint, Canonical note checkpoint ∧ decodeText bytes = some note.encode ∧
        parsed = (note.text, note.signatures.map viewSignature, viewCheckpoint checkpoint) := by
  constructor
  · intro h
    unfold parseNote at h
    simp only [bind_eq_ok, failIf_eq_ok, okOr_eq_ok, pure_eq_ok, not_lt] at h
    obtain ⟨_, hlen, written, hwritten, _, hcontrol, ⟨text, block⟩, hsplit, _, hcount, seen, hseen,
      checkpoint, hcheckpoint, rfl⟩ := h
    rw [not_or] at hcontrol hcount
    obtain ⟨hwhole, htext⟩ := splitLastDouble_eq_some hsplit
    obtain ⟨signatures, hvalid, hlines, rfl⟩ := mapM_parseLine.mp hseen
    obtain ⟨checkpoint, hform, rfl⟩ := (parseText_eq_ok htext).mp hcheckpoint
    have hne : signatures ≠ [] := by
      rintro rfl
      rw [hlines] at hcount
      exact hcount.1 rfl
    -- the block is terminated because the note is
    have hblock : block.getLast? = some '\n' := by
      have hlast := not_not.mp hcontrol.2
      rw [hwhole, List.getLast?_append, List.getLast?_cons] at hlast
      rcases hb : block.getLast? with _ | c
      · rw [List.getLast?_eq_none_iff.mp hb] at hlines
        exact absurd (List.map_eq_nil_iff.mp hlines.symm) hne
      · rw [hb] at hlast
        exact hlast
    refine ⟨hlen, ⟨text, signatures⟩, checkpoint, ⟨hform, hne, ?_, hvalid⟩, ?_, rfl⟩
    · have hle := hcount.2
      rw [hlines, List.length_map] at hle
      exact not_lt.mp hle
    · rw [hwritten, hwhole, Transparency.SignedNote.encode_lines, ← hlines, lines_splitOn hblock]
  · rintro ⟨hlen, note, checkpoint, hcanonical, hdecode, rfl⟩
    have hshort : (textBytes note.encode).length ≤ Transparency.maxNoteBytes := by
      obtain ⟨whole, hwhole, hdrop⟩ := Option.map_eq_some_iff.mp hdecode
      have hle := length_dropMark_le whole
      rw [hdrop, textBytes_of_textFromUtf8 hwhole] at hle
      exact hle.trans hlen
    have hvalid := Transparency.Checkpoint.valid_note hcanonical.text hcanonical.signatures_ne
      hcanonical.signatures_le hcanonical.signatures hshort
    have hcontrol : ¬(note.encode.any isRefused = true ∨ note.encode.getLast? ≠ some '\n') := by
      rintro (hbad | hlast)
      · obtain ⟨c, hc, hrefused⟩ := List.any_eq_true.mp hbad
        simp only [isRefused, Bool.or_eq_true, Bool.and_eq_true, decide_eq_true_eq] at hrefused
        have hctl : isControl c = true := by
          simp only [isControl, Bool.or_eq_true, Bool.and_eq_true, decide_eq_true_eq]
          omega
        have hnewline : c.toNat = 0x0a := by
          rw [Transparency.SignedNote.control_encode hvalid hc hctl]
          rfl
        omega
      · exact hlast (Transparency.SignedNote.getLast?_encode hcanonical.signatures_ne)
    have hlast : note.text.getLast? = some '\n' := by
      obtain ⟨body, hbody⟩ := hvalid.text
      rw [hbody, List.getLast?_concat]
    have hlines := splitOn_lines
      (Transparency.SignedNote.newline_not_mem_lines hcanonical.signatures)
    have hcount : ¬((note.signatures.map Transparency.SignedNote.encodeLine).length = 0 ∨
        (note.signatures.map Transparency.SignedNote.encodeLine).length > 32) := by
      have hpos := List.length_pos_iff.mpr hcanonical.signatures_ne
      have hle : note.signatures.length ≤ 32 := hcanonical.signatures_le
      rw [List.length_map]
      omega
    unfold parseNote
    rw [failIf_neg _ (not_lt.mpr hlen), ok_bind, hdecode, okOr_some, ok_bind,
      failIf_neg _ hcontrol, ok_bind, Transparency.SignedNote.splitLastDouble_encode hvalid]
    simp only [okOr_some, ok_bind, hlines, List.dropLast_concat]
    rw [failIf_neg _ hcount, ok_bind,
      mapM_parseLine.mpr ⟨note.signatures, hcanonical.signatures, rfl, rfl⟩, ok_bind,
      (parseText_eq_ok hlast).mpr ⟨checkpoint, hcanonical.text, rfl⟩]
    rfl

end

/-! ## Counting signatures -/

section
variable {sha256 : Bytes → Hash} {S : Sign.Primitives}

theorem noteKeyId_eq {name : Text} (h : ∀ c ∈ name, c.toNat < 0x80)
    (key : Sign.VerifyingIdentity S) :
    noteKeyId sha256 name key.toBytes.toList = (Transparency.keyId sha256 name key).toList := by
  have htake : ∀ digest : Hash, digest.toList.take 4 =
      (#v[digest[0], digest[1], digest[2], digest[3]] : Transparency.KeyId).toList := by
    intro digest
    apply List.ext_getElem
    · simp
    · intro i hi _
      have hlt : i < 4 := by
        rw [List.length_take] at hi
        omega
      rw [List.getElem_take]
      interval_cases i
      all_goals simp
  unfold noteKeyId Transparency.keyId Transparency.signatureType
  rw [ascii_eq h, htake]
  simp only [List.append_assoc, List.cons_append, List.nil_append]

theorem ascii_of_validName {name : Text} (h : Transparency.validName name = true) :
    ∀ c ∈ name, c.toNat < 0x80 := by
  intro c hc
  have := ((Transparency.chars_of_validName h).2 c hc).1
  omega

theorem ascii_of_text {checkpoint : Transparency.Checkpoint} {text : Text}
    (h : checkpoint.text = .ok text) : ∀ c ∈ text, c.toNat < 0x80 := by
  intro c hc
  rcases Transparency.Checkpoint.mem_text h hc with hp | rfl
  · have := hp.2
    omega
  · decide

variable {note : Transparency.SignedNote} {checkpoint : Transparency.Checkpoint}

/-- Both readers find the same lines of a key and verify them alike. -/
theorem signedBy_matches (h : Canonical note checkpoint) (name : Text)
    (key : Sign.VerifyingIdentity S) :
    Matches Eq (note.signedBy sha256 name key)
      (signedBy sha256 S note.text (note.signatures.map viewSignature) name
        key.toBytes.toList) := by
  -- a line under another name has another name, whatever the ids
  have hfilter : (note.signatures.map viewSignature).filter (fun s => decide (s.name = name ∧
        s.keyId = noteKeyId sha256 name key.toBytes.toList)) =
      (note.signatures.filter fun s => decide (s.name = name ∧
        s.keyId = Transparency.keyId sha256 name key)).map viewSignature := by
    rw [List.filter_map]
    congr 1
    apply List.filter_congr
    intro s hs
    rw [Function.comp_apply, decide_eq_decide]
    show s.name = name ∧ s.keyId.toList = _ ↔ _
    constructor
    · rintro ⟨rfl, hid⟩
      rw [noteKeyId_eq (ascii_of_validName (h.signatures s hs).1), Vector.toList_inj] at hid
      exact ⟨rfl, hid⟩
    · rintro ⟨rfl, hid⟩
      rw [noteKeyId_eq (ascii_of_validName (h.signatures s hs).1), hid]
      exact ⟨rfl, rfl⟩
  unfold Transparency.SignedNote.signedBy signedBy
  simp only [hfilter]
  apply Matches.run
  · rintro s - found _ rfl
    obtain ⟨verified, hverified, hiff⟩ := verifyHybrid_toBytes key checkpointContext
      (textBytes note.text) s.signature
    have hverifies : (s.signature.length ≠ Sign.signatureLength ∨
        key.verify Transparency.checkpointContext (textBytes note.text) s.signature ≠ .ok ()) ↔
        (!verified) = true := by
      rw [Bool.not_eq_true', ← Bool.not_eq_true, hiff]
      constructor
      · rintro (hlen | hverify)
        · intro hverify
          exact hlen (Sign.length_of_verify hverify)
        · exact hverify
      · intro hverify
        exact Or.inr hverify
    rw [ascii_eq (ascii_of_text h.text)]
    show Matches Eq _ (do
      let verified ← verifyHybrid S key.toBytes.toList checkpointContext (textBytes note.text)
        s.signature
      failIf (!verified) (reject .badSignature)
      pure true)
    rw [hverified, ok_bind]
    apply Matches.check hverifies
    intro _
    exact rfl
  · rfl

/-- Both loops count the same witnesses, if no key id stands for two of the list. -/
theorem countWitnesses_matches (h : Canonical note checkpoint)
    {witnesses : List (Text × Sign.VerifyingIdentity S)} {counted : List (Text × Transparency.KeyId)}
    (hids : witnesses.Pairwise fun p q =>
      Transparency.keyId sha256 p.1 p.2 ≠ Transparency.keyId sha256 q.1 q.2)
    (hcounted : ∀ p ∈ witnesses, ∀ entry ∈ counted,
      entry.2 ≠ Transparency.keyId sha256 p.1 p.2) (cosigned : ℕ) :
    Matches Eq (Transparency.Checkpoint.countWitnesses sha256 note counted cosigned witnesses)
      (countWitnesses sha256 S note.text (note.signatures.map viewSignature)
        (counted.map Prod.fst) cosigned
        (witnesses.map fun p => (p.1, p.2.toBytes.toList))) := by
  induction witnesses generalizing counted cosigned with
  | nil => exact rfl
  | cons p witnesses ih =>
    obtain ⟨hfirst, hrest⟩ := List.pairwise_cons.mp hids
    have hskip := @ih counted hrest fun q hq => hcounted q (List.mem_cons_of_mem _ hq)
    have hseen : (∃ entry ∈ counted, entry.1 = p.1 ∨
        entry.2 = Transparency.keyId sha256 p.1 p.2) ↔
        (counted.map Prod.fst).contains p.1 = true := by
      rw [List.contains_iff_mem, List.mem_map]
      constructor
      · rintro ⟨entry, hentry, hname | hid⟩
        · exact ⟨entry, hentry, hname⟩
        · exact absurd hid (hcounted p List.mem_cons_self entry hentry)
      · rintro ⟨entry, hentry, hname⟩
        exact ⟨entry, hentry, Or.inl hname⟩
    rw [List.map_cons, Transparency.Checkpoint.countWitnesses, countWitnesses]
    by_cases hin : ∃ entry ∈ counted, entry.1 = p.1 ∨
        entry.2 = Transparency.keyId sha256 p.1 p.2
    · rw [if_pos hin, if_pos (hseen.mp hin)]
      exact hskip cosigned
    · rw [if_neg hin, if_neg (mt hseen.mpr hin)]
      apply (signedBy_matches h p.1 p.2).bind
      rintro signed _ rfl
      by_cases hsigned : signed = true
      · rw [if_pos hsigned, if_pos hsigned]
        have hadded : ∀ q ∈ witnesses,
            ∀ entry ∈ counted ++ [(p.1, Transparency.keyId sha256 p.1 p.2)],
            entry.2 ≠ Transparency.keyId sha256 q.1 q.2 := by
          intro q hq entry hentry
          rcases List.mem_append.mp hentry with hentry | hentry
          · exact hcounted q (List.mem_cons_of_mem _ hq) entry hentry
          · rw [List.mem_singleton.mp hentry]
            exact hfirst q hq
        have hnext := ih hrest hadded (cosigned + 1)
        rw [List.map_append] at hnext
        exact hnext
      · rw [if_neg hsigned, if_neg hsigned]
        exact hskip cosigned

/-! ## Both readers -/

variable {base64 : Base64Reader} {bytes unmarked : Bytes} {origin : Text}
  {log : Sign.VerifyingIdentity S}
  {witnesses : List (Text × Sign.VerifyingIdentity S)} {threshold : ℕ}

/-- The witness list as the independent reader is given it. -/
def viewWitnesses (witnesses : List (Text × Sign.VerifyingIdentity S)) : List (Text × Bytes) :=
  witnesses.map fun p => (p.1, p.2.toBytes.toList)

/-- Both readers on a note that both parse, each from its own bytes. -/
theorem readers_match_parsed (h : Canonical note checkpoint)
    (hdecode : Transparency.SignedNote.decode unmarked = .ok note ∧
      Transparency.Checkpoint.parseText note.text = .ok checkpoint)
    (hparse : parseNote base64 bytes =
      .ok (note.text, note.signatures.map viewSignature, viewCheckpoint checkpoint))
    (hids : witnesses.Pairwise fun p q =>
      Transparency.keyId sha256 p.1 p.2 ≠ Transparency.keyId sha256 q.1 q.2)
    (hlog : ∀ p ∈ witnesses,
      Transparency.keyId sha256 origin log ≠ Transparency.keyId sha256 p.1 p.2) :
    Matches (fun checkpoint seen => seen = viewCheckpoint checkpoint)
      (Transparency.Checkpoint.verifyWitnessed sha256 unmarked origin log witnesses threshold)
      (verifyCheckpointNote sha256 S base64 bytes origin log.toBytes.toList
        (viewWitnesses witnesses) threshold) := by
  unfold Transparency.Checkpoint.verifyWitnessed verifyCheckpointNote
  rw [hdecode.1, ok_bind, hdecode.2, ok_bind, hparse, ok_bind]
  apply Matches.check Iff.rfl
  intro _
  apply (signedBy_matches h origin log).bind
  rintro signed _ rfl
  apply Matches.check Iff.rfl
  intro _
  have hcounted : ∀ p ∈ witnesses, ∀ entry ∈ [(origin, Transparency.keyId sha256 origin log)],
      entry.2 ≠ Transparency.keyId sha256 p.1 p.2 := by
    intro p hp entry hentry
    rw [List.mem_singleton.mp hentry]
    exact hlog p hp
  apply (countWitnesses_matches h hids hcounted 0).bind
  rintro cosigned _ rfl
  apply Matches.check Iff.rfl
  intro _
  exact rfl

/-- The bytes of a byte order mark. -/
def markBytes : Bytes := [0xef, 0xbb, 0xbf]

theorem textBytes_mark (text : Text) :
    textBytes (byteOrderMark :: text) = markBytes ++ textBytes text := by
  have hmark : textBytes [byteOrderMark] = markBytes := by decide
  rw [← List.singleton_append, textBytes_append, hmark]

/-- A canonical note starts with a printable character. -/
theorem Canonical.not_marked (h : Canonical note checkpoint) :
    note.encode.head? ≠ some byteOrderMark ∧ ¬markBytes <+: textBytes note.encode := by
  obtain ⟨hvalid, hform⟩ := Transparency.Checkpoint.text_eq_ok h.text
  obtain ⟨hne, hrange⟩ := Transparency.chars_of_validName hvalid
  obtain ⟨c, cs, horigin⟩ := List.exists_cons_of_ne_nil hne
  have hc := (hrange c (by rw [horigin]; exact List.mem_cons_self)).1
  obtain ⟨rest, hencode⟩ : ∃ rest, note.encode = c :: rest := by
    rw [Transparency.SignedNote.encode, hform, horigin]
    exact ⟨_, rfl⟩
  constructor
  · rw [hencode]
    intro hmark
    have hbig : c.toNat = 0xfeff := congrArg Char.toNat (Option.some.inj hmark)
    omega
  · rintro ⟨tail, htail⟩
    rw [hencode, ← List.singleton_append, textBytes_append, textBytes_eq_flatMap,
      List.flatMap_singleton, utf8EncodeChar_ascii (by omega)] at htail
    have hbyte := congrArg UInt8.toNat (List.cons.inj htail).1
    rw [UInt8.toNat_ofNat', Nat.mod_eq_of_lt (by omega)] at hbyte
    have hmark : (0xef : UInt8).toNat = 0xef := rfl
    omega

/-- Text read behind a byte order mark, if there is one. -/
theorem decodeText_cases {text : Text} (hdecode : decodeText bytes = some text) :
    bytes = textBytes text ∨ bytes = markBytes ++ textBytes text := by
  obtain ⟨whole, hwhole, hdrop⟩ := Option.map_eq_some_iff.mp hdecode
  have hbytes := textBytes_of_textFromUtf8 hwhole
  by_cases hmark : whole.head? = some byteOrderMark
  · rcases whole with _ | ⟨c, cs⟩
    · cases hmark
    · have hc : c = byteOrderMark := Option.some.inj hmark
      have hcs : dropMark (byteOrderMark :: cs) = cs := rfl
      right
      rw [← hbytes, ← hdrop, hc, hcs, textBytes_mark]
  · left
    rw [← hdrop, dropMark_eq_self.mpr hmark, hbytes]

theorem decodeText_mark (text : Text) :
    decodeText (markBytes ++ textBytes text) = some text := by
  rw [← textBytes_mark, decodeText_textBytes]
  rfl

/-- The bytes of a canonical note of the origin that the log and enough witnesses signed. -/
def Witnessed (sha256 : Bytes → Hash) (origin : Text) (log : Sign.VerifyingIdentity S)
    (witnesses : List (Text × Sign.VerifyingIdentity S)) (threshold : ℕ) (bytes : Bytes) : Prop :=
  ∃ note checkpoint cosigned, Canonical note checkpoint ∧ bytes = textBytes note.encode ∧
    checkpoint.origin = origin ∧ note.signedBy sha256 origin log = .ok true ∧
    Transparency.Checkpoint.countWitnesses sha256 note
      [(origin, Transparency.keyId sha256 origin log)] 0 witnesses = .ok cosigned ∧
    threshold ≤ cosigned

/-- The Rust reader accepts these, up to its limit. -/
theorem verifyWitnessed_iff :
    (∃ checkpoint, Transparency.Checkpoint.verifyWitnessed sha256 bytes origin log witnesses
        threshold = .ok checkpoint) ↔
      bytes.length ≤ maxNoteBytes ∧ Witnessed sha256 origin log witnesses threshold bytes := by
  constructor
  · rintro ⟨checkpoint, hverify⟩
    obtain ⟨note, cosigned, hdecode, hparse, horigin, hsigned, hcount, hle⟩ :=
      Transparency.verifyWitnessed_eq_ok.mp hverify
    obtain ⟨hlen, hbytes, hcanonical⟩ := decode_parseText_iff.mp ⟨hdecode, hparse⟩
    exact ⟨hlen, note, checkpoint, cosigned, hcanonical, hbytes, horigin, hsigned, hcount, hle⟩
  · rintro ⟨hlen, note, checkpoint, cosigned, hcanonical, hbytes, horigin, hsigned, hcount, hle⟩
    obtain ⟨hdecode, hparse⟩ := decode_parseText_iff.mpr ⟨hlen, hbytes, hcanonical⟩
    exact ⟨checkpoint, Transparency.verifyWitnessed_eq_ok.mpr
      ⟨note, cosigned, hdecode, hparse, horigin, hsigned, hcount, hle⟩⟩

/-- The independent reader of a note the Rust reader accepts, behind a mark or not. -/
theorem verifyCheckpointNote_of_witnessed
    (hids : witnesses.Pairwise fun p q =>
      Transparency.keyId sha256 p.1 p.2 ≠ Transparency.keyId sha256 q.1 q.2)
    (hlog : ∀ p ∈ witnesses,
      Transparency.keyId sha256 origin log ≠ Transparency.keyId sha256 p.1 p.2)
    {checkpoint : Transparency.Checkpoint}
    (hverify : Transparency.Checkpoint.verifyWitnessed sha256 unmarked origin log witnesses
      threshold = .ok checkpoint)
    (hbytes : bytes = unmarked ∨ bytes = markBytes ++ unmarked)
    (hlen : bytes.length ≤ maxNoteBytes) :
    verifyCheckpointNote sha256 S base64 bytes origin log.toBytes.toList
      (viewWitnesses witnesses) threshold = .ok (viewCheckpoint checkpoint) := by
  obtain ⟨note, -, hdecode, hparse, -⟩ := Transparency.verifyWitnessed_eq_ok.mp hverify
  obtain ⟨-, hunmarked, hcanonical⟩ := decode_parseText_iff.mp ⟨hdecode, hparse⟩
  have hread : decodeText bytes = some note.encode := by
    rcases hbytes with h | h
    · rw [h, hunmarked, decodeText_textBytes, dropMark_eq_self.mpr hcanonical.not_marked.1]
    · rw [h, hunmarked, decodeText_mark]
  obtain ⟨seen, hseen, rfl⟩ := (readers_match_parsed hcanonical ⟨hdecode, hparse⟩
    (parseNote_eq_ok.mpr ⟨hlen, note, checkpoint, hcanonical, hread, rfl⟩) hids hlog).ok_right
    hverify
  exact hseen

/-- What the independent reader accepts is a note the Rust reader accepts, behind a mark or not. -/
theorem witnessed_of_verifyCheckpointNote
    (hids : witnesses.Pairwise fun p q =>
      Transparency.keyId sha256 p.1 p.2 ≠ Transparency.keyId sha256 q.1 q.2)
    (hlog : ∀ p ∈ witnesses,
      Transparency.keyId sha256 origin log ≠ Transparency.keyId sha256 p.1 p.2)
    {seen : Checkpoint}
    (hseen : verifyCheckpointNote sha256 S base64 bytes origin log.toBytes.toList
      (viewWitnesses witnesses) threshold = .ok seen) :
    bytes.length ≤ maxNoteBytes ∧ ∃ unmarked checkpoint,
      (bytes = unmarked ∨ bytes = markBytes ++ unmarked) ∧
      Transparency.Checkpoint.verifyWitnessed sha256 unmarked origin log witnesses threshold =
        .ok checkpoint ∧ seen = viewCheckpoint checkpoint := by
  obtain ⟨parsed, hparse, -⟩ := bind_eq_ok.mp hseen
  obtain ⟨hlen, note, checkpoint, hcanonical, hread, rfl⟩ := parseNote_eq_ok.mp hparse
  have hcases := decodeText_cases hread
  have hshort : (textBytes note.encode).length ≤ maxNoteBytes := by
    rcases hcases with h | h
    · rwa [h] at hlen
    · rw [h, List.length_append] at hlen
      omega
  have hdecode := decode_parseText_iff.mpr ⟨hshort, rfl, hcanonical⟩
  obtain ⟨found, hfound, hview⟩ :=
    (readers_match_parsed hcanonical hdecode hparse hids hlog).ok_left hseen
  exact ⟨hlen, _, found, hcases, hfound, hview⟩

/-- **When the two readers of checkpoint notes agree.** For witnesses with different key ids they
return the same checkpoint for the same notes, except for a properly signed note behind a byte order
mark, which the independent reader accepts and the Rust reader does not. -/
theorem checkpoint_readers_agree_iff (sha256 : Bytes → Hash) (S : Sign.Primitives)
    (base64 : Base64Reader) (bytes : Bytes) (origin : Text) (log : Sign.VerifyingIdentity S)
    (witnesses : List (Text × Sign.VerifyingIdentity S)) (threshold : ℕ)
    (hids : witnesses.Pairwise fun p q =>
      Transparency.keyId sha256 p.1 p.2 ≠ Transparency.keyId sha256 q.1 q.2)
    (hlog : ∀ p ∈ witnesses,
      Transparency.keyId sha256 origin log ≠ Transparency.keyId sha256 p.1 p.2) :
    Matches (fun checkpoint seen => seen = viewCheckpoint checkpoint)
        (Transparency.Checkpoint.verifyWitnessed sha256 bytes origin log witnesses threshold)
        (verifyCheckpointNote sha256 S base64 bytes origin log.toBytes.toList
          (viewWitnesses witnesses) threshold) ↔
      ∀ rest, bytes = markBytes ++ rest → bytes.length ≤ maxNoteBytes →
        ¬Witnessed sha256 origin log witnesses threshold rest := by
  constructor
  · rintro hmatch rest hbytes hlen hwitnessed
    have hshort : rest.length ≤ maxNoteBytes := by
      rw [hbytes, List.length_append] at hlen
      omega
    obtain ⟨checkpoint, hverify⟩ := verifyWitnessed_iff.mpr ⟨hshort, hwitnessed⟩
    -- so the Rust reader has to accept the mark, too
    obtain ⟨found, hfound, -⟩ := hmatch.ok_left
      (verifyCheckpointNote_of_witnessed hids hlog hverify (Or.inr hbytes) hlen)
    obtain ⟨-, note, _, _, hcanonical, hnote, -⟩ := verifyWitnessed_iff.mp ⟨found, hfound⟩
    exact hcanonical.not_marked.2 ⟨rest, hbytes.symm.trans hnote⟩
  · intro hunmarked
    apply Matches.of_ok
    · intro checkpoint hverify
      have hlen := (verifyWitnessed_iff.mp ⟨checkpoint, hverify⟩).1
      exact ⟨_, verifyCheckpointNote_of_witnessed hids hlog hverify (Or.inl rfl) hlen, rfl⟩
    · intro seen hseen
      obtain ⟨hlen, rest, checkpoint, hcases, hverify, hview⟩ :=
        witnessed_of_verifyCheckpointNote hids hlog hseen
      rcases hcases with rfl | hmarked
      · exact ⟨checkpoint, hverify⟩
      · exact absurd (verifyWitnessed_iff.mp ⟨checkpoint, hverify⟩).2 (hunmarked rest hmarked hlen)

end

/-! ### A note behind a byte order mark -/

/-- A decoder that is strict about everything. -/
def strictBase64 : Base64Reader where
  read text := (Base64.decode text).getD []
  read_encode bytes := by rw [Base64.decode_encode, Option.getD_some]

section Sample

open Transparency (emptyCheckpoint sampleOrigin sampleLog partyNote leadingBytes twoNames)

theorem twoNames_apart {S : Sign.Primitives} :
    (twoNames S).Pairwise (fun p q =>
      Transparency.keyId leadingBytes p.1 p.2 ≠ Transparency.keyId leadingBytes q.1 q.2) ∧
    ∀ p ∈ twoNames S, Transparency.keyId leadingBytes sampleOrigin (sampleLog.verifyingKey S) ≠
      Transparency.keyId leadingBytes p.1 p.2 := by
  have hids := (Transparency.twoNames_signable (S := S)).ids
  constructor
  · apply List.Pairwise.imp_of_mem (R := fun p q => p.1 ≠ q.1)
    · intro p q hp hq hne heq
      exact hne (congrArg Prod.fst
        (hids p (List.mem_cons_of_mem _ hp) q (List.mem_cons_of_mem _ hq) heq))
    · simp [twoNames]
  · intro p hp heq
    have hname := congrArg Prod.fst (hids _ List.mem_cons_self p (List.mem_cons_of_mem _ hp) heq)
    simp only [twoNames, List.mem_cons, List.not_mem_nil, or_false] at hp
    rcases hp with rfl | rfl
    · exact absurd hname (show sampleOrigin ≠ ['a'] by decide)
    · exact absurd hname (show sampleOrigin ≠ ['b'] by decide)

/-- A note that the log alone signs. -/
def logNote (text : Text) : Transparency.SignedNote :=
  partyNote leadingBytes Sign.Primitives.keyed text [(sampleOrigin, sampleLog)]

/-- It is accepted where no witness is asked for. -/
theorem verifyWitnessed_logNote :
    ∃ text, (emptyCheckpoint sampleOrigin).text = .ok text ∧
      (textBytes (logNote text).encode).length ≤ 5090 ∧
      Transparency.Checkpoint.verifyWitnessed leadingBytes (textBytes (logNote text).encode)
        sampleOrigin (sampleLog.verifyingKey Sign.Primitives.keyed) (twoNames _) 0 =
        .ok (emptyCheckpoint sampleOrigin) := by
  obtain ⟨text, chosen, htext, -, -, -, hverify⟩ :=
    Transparency.verifyWitnessed_partyNote Sign.Primitives.keyed_correct
      Transparency.twoNames_signable rfl (show ([] : List _).length < Transparency.maxSignatures by
        decide) (by simp) (by simp)
  obtain ⟨note, cosigned, hnote, hparse, horigin, hsigned, hcount, -⟩ :=
    Transparency.verifyWitnessed_eq_ok.mp hverify
  refine ⟨text, htext, ?_, Transparency.verifyWitnessed_eq_ok.mpr
    ⟨note, cosigned, hnote, hparse, horigin, hsigned, hcount, Nat.zero_le _⟩⟩
  have hnames : ∀ p ∈ [(sampleOrigin, sampleLog)], Transparency.validName p.1 = true := by
    intro p hp
    rw [List.mem_singleton.mp hp]
    exact (Transparency.twoNames_signable (S := Sign.Primitives.keyed)).valid
  exact Transparency.length_encode_partyNote htext hnames

/-- The two readers on a note without a mark. -/
theorem checkpoint_readers_agree_log_note :
    ∃ text, (emptyCheckpoint sampleOrigin).text = .ok text ∧
      Matches (fun checkpoint seen => seen = viewCheckpoint checkpoint)
        (Transparency.Checkpoint.verifyWitnessed leadingBytes (textBytes (logNote text).encode)
          sampleOrigin (sampleLog.verifyingKey Sign.Primitives.keyed) (twoNames _) 0)
        (verifyCheckpointNote leadingBytes Sign.Primitives.keyed strictBase64
          (textBytes (logNote text).encode) sampleOrigin
          (sampleLog.verifyingKey Sign.Primitives.keyed).toBytes.toList
          (viewWitnesses (twoNames Sign.Primitives.keyed)) 0) := by
  obtain ⟨text, htext, -, hverify⟩ := verifyWitnessed_logNote
  refine ⟨text, htext, ?_⟩
  apply (checkpoint_readers_agree_iff leadingBytes Sign.Primitives.keyed strictBase64
    (textBytes (logNote text).encode) sampleOrigin (sampleLog.verifyingKey _) (twoNames _) 0
    twoNames_apart.1 twoNames_apart.2).mpr
  intro rest hbytes _ _
  obtain ⟨-, note, _, _, hcanonical, hnote, -⟩ := verifyWitnessed_iff.mp ⟨_, hverify⟩
  exact hcanonical.not_marked.2 ⟨rest, hbytes.symm.trans hnote⟩

/-- The same note behind a mark. -/
theorem marked_note_splits_readers :
    ∃ text, (emptyCheckpoint sampleOrigin).text = .ok text ∧
      ¬Matches (fun checkpoint seen => seen = viewCheckpoint checkpoint)
        (Transparency.Checkpoint.verifyWitnessed leadingBytes
          (markBytes ++ textBytes (logNote text).encode) sampleOrigin
          (sampleLog.verifyingKey Sign.Primitives.keyed) (twoNames _) 0)
        (verifyCheckpointNote leadingBytes Sign.Primitives.keyed strictBase64
          (markBytes ++ textBytes (logNote text).encode) sampleOrigin
          (sampleLog.verifyingKey Sign.Primitives.keyed).toBytes.toList
          (viewWitnesses (twoNames Sign.Primitives.keyed)) 0) := by
  obtain ⟨text, htext, hlen, hverify⟩ := verifyWitnessed_logNote
  refine ⟨text, htext, ?_⟩
  intro hmatch
  have hshort : (markBytes ++ textBytes (logNote text).encode).length ≤ maxNoteBytes := by
    have hmark : markBytes.length = 3 := rfl
    rw [List.length_append, maxNoteBytes]
    omega
  obtain ⟨found, hfound, -⟩ := hmatch.ok_left
    (verifyCheckpointNote_of_witnessed twoNames_apart.1 twoNames_apart.2 hverify (Or.inr rfl) hshort)
  obtain ⟨-, note, _, _, hcanonical, hnote, -⟩ := verifyWitnessed_iff.mp ⟨found, hfound⟩
  exact hcanonical.not_marked.2 ⟨_, hnote⟩

end Sample

end HideProtocol.Conformance.Subsystems
