import Mathlib.Tactic.IntervalCases
import HideProtocol.Lib.Bytes

/-!
# Text

Strings as lists of characters, with the operations of the standard library that line-based
formats are parsed with. A text that was put together from pieces free of the separator is
taken apart into the same pieces.
-/

namespace HideProtocol.Lib

abbrev Text := List Char

/-- The UTF-8 bytes of a text. -/
def textBytes (text : Text) : Bytes := utf8 (String.ofList text)

/-- Checked conversion from UTF-8. -/
def textFromUtf8 (bytes : Bytes) : Option Text := (fromUtf8 bytes).map String.toList

/-- U+FEFF, the byte order mark at the start of a text. -/
def byteOrderMark : Char := '\ufeff'

/-- A text without the byte order mark it may start with. -/
def dropMark : Text → Text
  | [] => []
  | c :: cs => if c = byteOrderMark then cs else c :: cs

/-- `new TextDecoder("utf-8", { fatal: true }).decode`: checked conversion that leaves out a byte
order mark at the start. -/
def decodeText (bytes : Bytes) : Option Text := (textFromUtf8 bytes).map dropMark

/-- The UTF-16 code units of a character. -/
def utf16 (c : Char) : List ℕ :=
  if c.toNat < 0x10000 then [c.toNat]
  else [0xd800 + (c.toNat - 0x10000) / 0x400, 0xdc00 + (c.toNat - 0x10000) % 0x400]

/-- `char::is_control`: the category Cc. -/
def isControl (c : Char) : Bool := c.toNat ≤ 0x1f || (0x7f ≤ c.toNat && c.toNat ≤ 0x9f)

/-- `str::split_terminator`: an empty piece after the last separator is not a piece. -/
def splitTerminator (sep : Char) : Text → List Text
  | [] => []
  | c :: cs =>
    if c = sep then [] :: splitTerminator sep cs
    else
      match splitTerminator sep cs with
      | [] => [[c]]
      | piece :: pieces => (c :: piece) :: pieces

/-- `str::split_once`, at the first separator. -/
def splitOnce (sep : Char) : Text → Option (Text × Text)
  | [] => none
  | c :: cs =>
    if c = sep then some ([], cs)
    else (splitOnce sep cs).map fun (left, right) => (c :: left, right)

/-- Cuts a text between the two characters of the last double separator (`str::rfind`): the
first stays on the left, the second is dropped. -/
def splitLastDouble (sep : Char) : Text → Option (Text × Text)
  | [] => none
  | c :: cs =>
    match splitLastDouble sep cs with
    | some (left, right) => some (c :: left, right)
    | none => if c = sep ∧ cs.head? = some sep then some ([c], cs.tail) else none

/-- `str::parse::<u64>`: a plus sign is tolerated, and so are leading zeros. -/
def parseU64 (text : Text) : Option UInt64 :=
  let digits := if text.head? = some '+' then text.tail else text
  if digits = [] ∨ digits.any fun c => !c.isDigit then none
  else
    let value := Nat.ofDigitChars 10 digits 0
    if value < 2 ^ 64 then some (UInt64.ofNat value) else none

/-- The decimal form of a `u64`. -/
def formatU64 (n : UInt64) : Text := Nat.toDigits 10 n.toNat

/-! ## UTF-8 -/

theorem textBytes_eq_flatMap (text : Text) : textBytes text = text.flatMap String.utf8EncodeChar := by
  unfold textBytes utf8
  rw [String.toByteArray_ofList, List.utf8Encode]
  simp

@[simp] theorem textBytes_append (left right : Text) :
    textBytes (left ++ right) = textBytes left ++ textBytes right := by
  simp only [textBytes_eq_flatMap, List.flatMap_append]

@[simp] theorem textFromUtf8_textBytes (text : Text) : textFromUtf8 (textBytes text) = some text := by
  unfold textFromUtf8 textBytes
  rw [fromUtf8_utf8, Option.map_some, String.toList_ofList]

theorem textBytes_of_textFromUtf8 {bytes : Bytes} {text : Text}
    (h : textFromUtf8 bytes = some text) : textBytes text = bytes := by
  obtain ⟨s, hs, rfl⟩ := Option.map_eq_some_iff.mp h
  rw [textBytes, String.ofList_toList]
  exact utf8_of_fromUtf8 hs

theorem textBytes_toList (s : String) : textBytes s.toList = utf8 s := by
  rw [textBytes, String.ofList_toList]

theorem decodeText_textBytes (text : Text) : decodeText (textBytes text) = some (dropMark text) := by
  rw [decodeText, textFromUtf8_textBytes, Option.map_some]

theorem length_dropMark_le (text : Text) :
    (textBytes (dropMark text)).length ≤ (textBytes text).length := by
  cases text with
  | nil => exact le_rfl
  | cons c cs =>
    rw [dropMark]
    by_cases hmark : c = byteOrderMark
    · rw [if_pos hmark, ← List.singleton_append, textBytes_append, List.length_append]
      exact Nat.le_add_left _ _
    · rw [if_neg hmark]

theorem utf8EncodeChar_ascii {c : Char} (h : c.toNat < 0x80) :
    String.utf8EncodeChar c = [UInt8.ofNat c.toNat] :=
  if_pos (show c.val.toNat ≤ 0x7f from Nat.le_of_lt_succ h)

/-- A character outside ASCII is written with a byte outside ASCII. -/
theorem ascii_of_utf8EncodeChar {c : Char} (h : ∀ b ∈ String.utf8EncodeChar c, b.toNat < 0x80) :
    c.toNat < 0x80 := by
  by_contra hc
  -- the last byte of a longer encoding is a continuation byte
  have hlast : UInt8.ofNat (c.val.toNat % 0x40 + 0x80) ∈ String.utf8EncodeChar c := by
    have hbig : ¬c.val.toNat ≤ 0x7f := by
      intro hle
      exact hc (Nat.lt_succ_of_le hle)
    unfold String.utf8EncodeChar
    simp only [hbig, if_false]
    split_ifs <;> simp
  have hlt := h _ hlast
  rw [UInt8.toNat_ofNat'] at hlt
  omega

/-- What holds of the bytes of an ASCII text holds of its characters. -/
theorem chars_of_bytes {P : ℕ → Prop} (hascii : ∀ n, P n → n < 0x80) {text : Text}
    (h : ∀ b ∈ textBytes text, P b.toNat) : ∀ c ∈ text, P c.toNat := by
  intro c hc
  rw [textBytes_eq_flatMap] at h
  have hbytes : ∀ b ∈ String.utf8EncodeChar c, P b.toNat := by
    intro b hb
    exact h b (List.mem_flatMap.mpr ⟨c, hc, hb⟩)
  have hlt := ascii_of_utf8EncodeChar fun b hb => hascii _ (hbytes b hb)
  have := hbytes (UInt8.ofNat c.toNat) (by rw [utf8EncodeChar_ascii hlt]; simp)
  rw [UInt8.toNat_ofNat', Nat.mod_eq_of_lt (by omega)] at this
  exact this

/-- Every byte of a character outside ASCII is outside ASCII. -/
theorem le_of_mem_utf8EncodeChar {c : Char} (hc : ¬c.toNat < 0x80) :
    ∀ b ∈ String.utf8EncodeChar c, 0x80 ≤ b.toNat := by
  have hbig : ¬c.val.toNat ≤ 0x7f := by
    intro hle
    exact hc (Nat.lt_succ_of_le hle)
  unfold String.utf8EncodeChar
  simp only [hbig, if_false]
  split_ifs
  all_goals
    simp only [List.forall_mem_cons, UInt8.toNat_ofNat', List.not_mem_nil, false_imp_iff,
      implies_true, and_true]
    omega

/-- Only the NUL character is written with a zero byte. -/
theorem zero_mem_utf8 {s : String} (h : 0 ∈ utf8 s) : '\x00' ∈ s.toList := by
  rw [← textBytes_toList, textBytes_eq_flatMap] at h
  obtain ⟨c, hc, hzero⟩ := List.mem_flatMap.mp h
  by_cases hascii : c.toNat < 0x80
  · rw [utf8EncodeChar_ascii hascii, List.mem_singleton] at hzero
    have hnat : c.toNat = 0 := by
      have hmod := congrArg UInt8.toNat hzero
      rw [UInt8.toNat_ofNat', UInt8.toNat_zero] at hmod
      omega
    rwa [← Char.toNat_inj.mp (show c.toNat = '\x00'.toNat from hnat)]
  · have hle := le_of_mem_utf8EncodeChar hascii 0 hzero
    exact absurd hle (by decide)

theorem length_textBytes_ascii {text : Text} (h : ∀ c ∈ text, c.toNat < 0x80) :
    (textBytes text).length = text.length := by
  rw [textBytes_eq_flatMap]
  induction text with
  | nil => rfl
  | cons c cs ih =>
    rw [List.flatMap_cons, List.length_append, utf8EncodeChar_ascii (h c List.mem_cons_self),
      ih fun d hd => h d (List.mem_cons_of_mem _ hd), List.length_cons]
    exact Nat.add_comm ..

theorem utf8_length_pos (s : String) : 1 ≤ (utf8 s).length ↔ s ≠ "" := by
  constructor
  · rintro h rfl
    exact absurd h (by decide)
  · intro h
    rw [Nat.one_le_iff_ne_zero]
    intro hzero
    have hnil : utf8 s = utf8 "" := List.length_eq_zero_iff.mp hzero
    exact h (utf8_inj hnil)

/-- One byte after three that is a digit is a digit character. -/
theorem digit_of_byte {letters rest : Text} (hletters : (textBytes letters).length = 3)
    (hlen : (textBytes (letters ++ rest)).length = 4)
    (hlow : 0x31 ≤ (textBytes (letters ++ rest)).getD 3 0)
    (hhigh : (textBytes (letters ++ rest)).getD 3 0 ≤ 0x39) :
    ∃ d, rest = [d] ∧ 0x31 ≤ d.toNat ∧ d.toNat ≤ 0x39 := by
  rw [textBytes_append, List.length_append, hletters] at hlen
  have ⟨b, hb⟩ := List.length_eq_one_iff.mp (by omega : (textBytes rest).length = 1)
  have hget : (textBytes (letters ++ rest)).getD 3 0 = b := by
    rw [textBytes_append, hb, List.getD_eq_getElem?_getD,
      List.getElem?_append_right (le_of_eq hletters), hletters]
    rfl
  rw [hget] at hlow hhigh
  -- so every character of the rest is a digit, and there is one for each byte
  have hdigits := @chars_of_bytes (fun n => 0x31 ≤ n ∧ n ≤ 0x39) (by omega) rest (by
    intro byte hbyte
    rw [hb, List.mem_singleton] at hbyte
    rw [hbyte]
    exact ⟨hlow, hhigh⟩)
  have hone := length_textBytes_ascii fun c hc => (hdigits c hc).2.trans_lt (by omega)
  rw [hb] at hone
  have ⟨d, hd⟩ := List.length_eq_one_iff.mp hone.symm
  exact ⟨d, hd, hdigits d (by simp [hd])⟩

theorem byte_of_digit {letters : Text} {d : Char} (hletters : (textBytes letters).length = 3)
    (hlow : 0x31 ≤ d.toNat) (hhigh : d.toNat ≤ 0x39) :
    0x31 ≤ (textBytes (letters ++ [d])).getD 3 0 ∧
      (textBytes (letters ++ [d])).getD 3 0 ≤ 0x39 := by
  have hd : textBytes [d] = [UInt8.ofNat d.toNat] := by
    rw [textBytes_eq_flatMap, List.flatMap_singleton, utf8EncodeChar_ascii (by omega)]
  have hget : (textBytes (letters ++ [d])).getD 3 0 = UInt8.ofNat d.toNat := by
    rw [textBytes_append, hd, List.getD_eq_getElem?_getD,
      List.getElem?_append_right (le_of_eq hletters), hletters]
    rfl
  have hnat : (UInt8.ofNat d.toNat).toNat = d.toNat := by
    rw [UInt8.toNat_ofNat']
    omega
  rw [hget, UInt8.le_iff_toNat_le, UInt8.le_iff_toNat_le, hnat]
  exact ⟨hlow, hhigh⟩

/-! ## Taking texts apart -/

theorem splitTerminator_append {sep : Char} {line : Text} (h : sep ∉ line) (rest : Text) :
    splitTerminator sep (line ++ sep :: rest) = line :: splitTerminator sep rest := by
  induction line with
  | nil => simp [splitTerminator]
  | cons c cs ih =>
    have hc : c ≠ sep := by
      rintro rfl
      exact h List.mem_cons_self
    rw [List.cons_append, splitTerminator, if_neg hc, ih fun hmem => h (List.mem_cons_of_mem _ hmem)]

/-- Terminated lines are the lines that were terminated. -/
theorem splitTerminator_lines {sep : Char} {lines : List Text} (h : ∀ line ∈ lines, sep ∉ line) :
    splitTerminator sep (lines.flatMap fun line => line ++ [sep]) = lines := by
  induction lines with
  | nil => rfl
  | cons line lines ih =>
    rw [List.flatMap_cons, List.append_assoc, List.singleton_append,
      splitTerminator_append (h line List.mem_cons_self),
      ih fun l hl => h l (List.mem_cons_of_mem _ hl)]

/-- Terminated lines, split at every terminator: the lines and an empty rest. -/
theorem splitOn_lines {sep : Char} {lines : List Text} (h : ∀ line ∈ lines, sep ∉ line) :
    (lines.flatMap fun line => line ++ [sep]).splitOn sep = lines ++ [[]] := by
  induction lines with
  | nil => simp
  | cons line lines ih =>
    rw [List.flatMap_cons, List.append_assoc, List.singleton_append,
      List.splitOn_append_cons_self_of_not_mem (h line List.mem_cons_self),
      ih fun l hl => h l (List.mem_cons_of_mem _ hl)]
    rfl

theorem flatMap_terminated {sep : Char} {lines : List Text} (h : lines ≠ []) :
    (lines.flatMap fun line => line ++ [sep]) = [sep].intercalate lines ++ [sep] := by
  induction lines with
  | nil => exact absurd rfl h
  | cons line lines ih =>
    rcases lines with _ | ⟨next, lines⟩
    · simp
    · rw [List.flatMap_cons, ih (List.cons_ne_nil _ _), List.intercalate_cons_cons]
      simp

/-- A terminated text is its pieces, each terminated. -/
theorem lines_splitOn {sep : Char} {text : Text} (h : text.getLast? = some sep) :
    ((text.splitOn sep).dropLast.flatMap fun line => line ++ [sep]) = text := by
  obtain ⟨body, rfl⟩ : ∃ body, text = body ++ [sep] := List.getLast?_eq_some_iff.mp h
  rw [List.splitOn_append_cons_self, List.splitOn_nil, List.dropLast_concat,
    flatMap_terminated (List.splitOn_ne_nil _ _), List.intercalate_splitOn]

theorem splitOnce_append {sep : Char} {left : Text} (h : sep ∉ left) (right : Text) :
    splitOnce sep (left ++ sep :: right) = some (left, right) := by
  induction left with
  | nil => simp [splitOnce]
  | cons c cs ih =>
    have hc : c ≠ sep := by
      rintro rfl
      exact h List.mem_cons_self
    rw [List.cons_append, splitOnce, if_neg hc, ih fun hmem => h (List.mem_cons_of_mem _ hmem)]
    rfl

/-- What the cut leaves on both sides. -/
theorem splitLastDouble_eq_some {sep : Char} {text left right : Text}
    (h : splitLastDouble sep text = some (left, right)) :
    text = left ++ sep :: right ∧ left.getLast? = some sep := by
  induction text generalizing left right with
  | nil => cases h
  | cons c cs ih =>
    rw [splitLastDouble] at h
    cases hcs : splitLastDouble sep cs with
    | some parts =>
      rw [hcs] at h
      obtain ⟨rfl, rfl⟩ := Prod.mk.inj (Option.some.inj h)
      obtain ⟨hsplit, hlast⟩ := ih hcs
      refine ⟨congrArg (c :: ·) hsplit, ?_⟩
      rw [List.getLast?_cons, hlast]
      rfl
    | none =>
      rw [hcs] at h
      obtain ⟨⟨rfl, hhead⟩, hparts⟩ := Option.ite_none_right_eq_some.mp h
      obtain ⟨rfl, rfl⟩ := Prod.mk.inj (Option.some.inj hparts)
      rcases cs with _ | ⟨d, cs⟩
      · cases hhead
      · rw [Option.some.inj hhead]
        exact ⟨rfl, rfl⟩

/-- No two separators stand next to each other. -/
def NoDouble (sep : Char) : Text → Prop
  | [] => True
  | c :: cs => ¬(c = sep ∧ cs.head? = some sep) ∧ NoDouble sep cs

theorem splitLastDouble_of_noDouble {sep : Char} {text : Text} (h : NoDouble sep text) :
    splitLastDouble sep text = none := by
  induction text with
  | nil => rfl
  | cons c cs ih =>
    rw [splitLastDouble, ih h.2]
    exact if_neg h.1

/-- The last double separator is found in front of a text that has none. -/
theorem splitLastDouble_append {sep : Char} (left : Text) {right : Text}
    (h : NoDouble sep (sep :: right)) :
    splitLastDouble sep (left ++ sep :: sep :: right) = some (left ++ [sep], right) := by
  induction left with
  | nil =>
    rw [List.nil_append, splitLastDouble, splitLastDouble_of_noDouble h]
    simp
  | cons c cs ih =>
    rw [List.cons_append, splitLastDouble, ih]
    rfl

/-- Non-empty lines, each terminated, hold no double separator, not even behind one. -/
theorem noDouble_lines {sep : Char} {lines : List Text} (h : ∀ line ∈ lines, sep ∉ line)
    (hne : ∀ line ∈ lines, line ≠ []) :
    NoDouble sep (sep :: lines.flatMap fun line => line ++ [sep]) := by
  have hline : ∀ (line rest : Text), sep ∉ line → NoDouble sep (sep :: rest) →
      NoDouble sep (line ++ sep :: rest) := by
    intro line rest hmem hrest
    induction line with
    | nil => exact hrest
    | cons c cs ih =>
      have hc : c ≠ sep := by
        rintro rfl
        exact hmem List.mem_cons_self
      exact ⟨fun hbad => hc hbad.1, ih fun hcs => hmem (List.mem_cons_of_mem _ hcs)⟩
  induction lines with
  | nil => exact ⟨by simp, trivial⟩
  | cons line lines ih =>
    have htail := ih (fun l hl => h l (List.mem_cons_of_mem _ hl))
      fun l hl => hne l (List.mem_cons_of_mem _ hl)
    have hmem := h line List.mem_cons_self
    rw [List.flatMap_cons, List.append_assoc, List.singleton_append]
    refine ⟨?_, hline line _ hmem htail⟩
    -- the line starts with something else
    rcases line with _ | ⟨c, cs⟩
    · exact absurd rfl (hne [] List.mem_cons_self)
    · intro hbad
      apply hmem
      rw [Option.some.inj (show some c = some sep from hbad.2)]
      exact List.mem_cons_self

/-! ## Decimal numbers -/

theorem toNat_isDigit {c : Char} (h : c.isDigit = true) : 48 ≤ c.toNat ∧ c.toNat ≤ 57 := by
  simp only [Char.isDigit, Bool.and_eq_true, decide_eq_true_eq] at h
  exact ⟨UInt32.le_iff_toNat_le.mp h.1, UInt32.le_iff_toNat_le.mp h.2⟩

/-- A digit is the form of its value. -/
theorem digitChar_isDigit {c : Char} (h : c.isDigit = true) :
    (c.toNat - '0'.toNat).digitChar = c := by
  obtain ⟨h₁, h₂⟩ := toNat_isDigit h
  have hchar : c = Char.ofNat c.toNat := (Char.ofNat_toNat c).symm
  rw [hchar]
  generalize c.toNat = n at *
  interval_cases n <;> decide

/-- Digits without a leading zero are the form of their value, which is not zero. -/
theorem toDigits_ofDigitChars {text : Text} (hdigits : ∀ c ∈ text, c.isDigit = true)
    (hne : text ≠ []) (hhead : text.head? ≠ some '0') :
    0 < Nat.ofDigitChars 10 text 0 ∧ Nat.toDigits 10 (Nat.ofDigitChars 10 text 0) = text := by
  induction text using List.reverseRecOn with
  | nil => exact absurd rfl hne
  | append_singleton init c ih =>
    have hc := hdigits c (by simp)
    obtain ⟨hlow, hhigh⟩ := toNat_isDigit hc
    have hzero : '0'.toNat = 48 := rfl
    have hlast : Nat.toDigits 10 (c.toNat - '0'.toNat) = [c] := by
      rw [Nat.toDigits_of_lt_base (by omega), digitChar_isDigit hc]
    have hvalue : Nat.ofDigitChars 10 (init ++ [c]) 0 =
        10 * Nat.ofDigitChars 10 init 0 + (c.toNat - '0'.toNat) := by
      rw [Nat.ofDigitChars_append, Nat.ofDigitChars_cons, Nat.ofDigitChars_nil]
    rw [hvalue]
    by_cases hinit : init = []
    · subst hinit
      have hnot : c ≠ '0' := by
        rintro rfl
        exact hhead rfl
      have hpos : c.toNat ≠ 48 := by
        intro h48
        exact hnot (Char.toNat_inj.mp h48)
      rw [Nat.ofDigitChars_nil, Nat.mul_zero, Nat.zero_add]
      exact ⟨by omega, hlast⟩
    · have hfirst : init.head? ≠ some '0' := by
        rcases init with _ | ⟨d, init⟩
        · exact absurd rfl hinit
        · exact hhead
      obtain ⟨hpos, hdig⟩ := ih (fun d hd => hdigits d (List.mem_append_left _ hd)) hinit hfirst
      refine ⟨by omega, ?_⟩
      rw [← Nat.toDigits_append_toDigits (by omega) hpos (by omega), hdig, hlast]

/-- Only zero is written with a leading zero. -/
theorem head?_toDigits {n : ℕ} (hn : n ≠ 0) : (Nat.toDigits 10 n).head? ≠ some '0' := by
  induction n using Nat.strongRecOn with
  | ind n ih =>
    rw [Nat.toDigits_eq_if (by omega)]
    by_cases hlt : n < 10
    · rw [if_pos hlt]
      interval_cases n
      · exact absurd rfl hn
      all_goals decide
    · rw [if_neg hlt]
      have hinit := ih (n / 10) (by omega) (by omega)
      rcases hdigits : Nat.toDigits 10 (n / 10) with _ | ⟨d, ds⟩
      · exact absurd hdigits Nat.toDigits_ne_nil
      · rwa [hdigits] at hinit

theorem isDigit_formatU64 (n : UInt64) : ∀ c ∈ formatU64 n, c.isDigit = true := by
  intro c hc
  exact Nat.isDigit_of_mem_toDigits (by decide) le_rfl hc

theorem parseU64_formatU64 (n : UInt64) : parseU64 (formatU64 n) = some n := by
  have hdigits := isDigit_formatU64 n
  have hne : formatU64 n ≠ [] := Nat.toDigits_ne_nil
  have hplus : (formatU64 n).head? ≠ some '+' := by
    intro h
    have := hdigits '+' (List.mem_of_mem_head? h)
    cases this
  have hbad : ¬(formatU64 n = [] ∨ (formatU64 n).any (fun c => !c.isDigit) = true) := by
    intro h
    rcases h with h | h
    · exact hne h
    · have ⟨c, hc, hnot⟩ := List.any_eq_true.mp h
      rw [hdigits c hc] at hnot
      cases hnot
  unfold parseU64
  rw [if_neg hplus]
  simp only [if_neg hbad]
  have hvalue : Nat.ofDigitChars 10 (formatU64 n) 0 = n.toNat := Nat.ofDigitChars_ten_toDigits
  rw [hvalue, if_pos n.toNat_lt, UInt64.ofNat_toNat]

end HideProtocol.Lib
