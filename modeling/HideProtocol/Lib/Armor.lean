import Mathlib.Data.List.Infix
import HideProtocol.Lib.Chunks
import HideProtocol.Lib.Text

/-!
# Armored text

A body cut into lines of a fixed width, between a header line and a footer line. The reader is
lenient: it looks for the header anywhere in the text, trims every line and stops at the footer.
It finds the body again whenever the two marker lines have a character that the body has not.
-/

namespace HideProtocol.Lib

/-! ## Lines -/

/-- A terminated line without the carriage return it may end in. -/
def dropReturn (line : Text) : Text := if line.getLast? = some '\r' then line.dropLast else line

/-- `str::lines`: what follows the last line feed is a line as it stands, unless it is empty. -/
def lines (text : Text) : List Text :=
  let pieces := splitTerminator '\n' text
  if text.getLast? = some '\n' then pieces.map dropReturn
  else pieces.dropLast.map dropReturn ++ pieces.getLast?.toList

/-- `char::is_whitespace`. -/
def isWhitespace (c : Char) : Bool :=
  (9 ≤ c.toNat && c.toNat ≤ 13) || (0x2000 ≤ c.toNat && c.toNat ≤ 0x200a) ||
    c.toNat ∈ [0x20, 0x85, 0xa0, 0x1680, 0x2028, 0x2029, 0x202f, 0x205f, 0x3000]

/-- `str::trim`. -/
def trim (text : Text) : Text :=
  ((text.dropWhile isWhitespace).reverse.dropWhile isWhitespace).reverse

/-- `str::contains`. -/
def contains (text pattern : Text) : Bool := pattern <:+: text

/-- Lines that end in no carriage return, each terminated, are the lines of their text. -/
theorem lines_terminated {pieces : List Text} (hne : pieces ≠ [])
    (hfeed : ∀ piece ∈ pieces, '\n' ∉ piece) (hreturn : ∀ piece ∈ pieces, '\r' ∉ piece) :
    lines (pieces.flatMap fun piece => piece ++ ['\n']) = pieces := by
  have hlast : (pieces.flatMap fun piece => piece ++ ['\n']).getLast? = some '\n' := by
    rw [flatMap_terminated hne]
    exact List.getLast?_concat
  unfold lines
  simp only []
  rw [if_pos hlast, splitTerminator_lines hfeed]
  -- no line has a carriage return to lose
  have hkeep : pieces.map dropReturn = pieces.map id := by
    apply List.map_congr_left
    intro piece hpiece
    apply if_neg
    intro hlast
    exact hreturn piece hpiece (List.mem_of_getLast? hlast)
  rw [hkeep, List.map_id]

/-- Nothing is trimmed off a text without white space. -/
theorem trim_of_plain {text : Text} (h : ∀ c ∈ text, isWhitespace c = false) : trim text = text := by
  have hdrop : ∀ {t : Text}, (∀ c ∈ t, isWhitespace c = false) → t.dropWhile isWhitespace = t := by
    intro t ht
    cases t with
    | nil => rfl
    | cons c cs => exact List.dropWhile_cons_of_neg (by simp [ht c List.mem_cons_self])
  unfold trim
  rw [hdrop h, hdrop fun c hc => h c (List.mem_reverse.mp hc), List.reverse_reverse]

theorem contains_self (text : Text) : contains text text = true :=
  decide_eq_true List.infix_rfl

/-- A pattern with a character that the text has not is not in the text. -/
theorem not_contains {text pattern : Text} {c : Char} (hc : c ∈ pattern) (h : c ∉ text) :
    contains text pattern = false := by
  apply decide_eq_false
  intro hoccurs
  exact h (hoccurs.subset hc)

/-! ## Armor -/

section
variable (header footer : Text) (width : ℕ)

/-- The lines of an armored body. -/
def armorLines (body : Text) : List Text := header :: (chunks width body ++ [footer])

def armor (body : Text) : Text := (armorLines header footer width body).flatMap (· ++ ['\n'])

/-- What stands between the line with the header and the line with the footer. -/
def dearmor (text : Text) : Text :=
  (((((lines text).dropWhile fun line => !contains line header).drop 1).takeWhile
    fun line => !contains line footer).map trim).flatten

end

section
variable {header footer body : Text} {width : ℕ}

/-- A text on one line. -/
def OneLine (text : Text) : Prop := '\n' ∉ text ∧ '\r' ∉ text

theorem oneLine_of_plain (h : ∀ c ∈ body, isWhitespace c = false) : OneLine body := by
  constructor
  · intro hmem
    exact absurd (h _ hmem) (by decide)
  · intro hmem
    exact absurd (h _ hmem) (by decide)

theorem lines_armor (hheader : OneLine header) (hfooter : OneLine footer)
    (hplain : ∀ c ∈ body, isWhitespace c = false) :
    lines (armor header footer width body) = armorLines header footer width body := by
  have hbody := oneLine_of_plain hplain
  have hone : ∀ line ∈ armorLines header footer width body, OneLine line := by
    intro line hline
    rcases List.mem_cons.mp hline with rfl | hline
    · exact hheader
    · rcases List.mem_append.mp hline with hchunk | hlast
      · exact ⟨fun hmem => hbody.1 (mem_of_mem_takeChunks hchunk hmem),
          fun hmem => hbody.2 (mem_of_mem_takeChunks hchunk hmem)⟩
      · rw [List.mem_singleton.mp hlast]
        exact hfooter
  exact lines_terminated (List.cons_ne_nil _ _) (fun line hline => (hone line hline).1)
    fun line hline => (hone line hline).2

/-- **The armor comes off.** -/
theorem dearmor_armor (hwidth : 0 < width) (hheader : OneLine header) (hfooter : OneLine footer)
    (hplain : ∀ c ∈ body, isWhitespace c = false) {mark : Char} (hmark : mark ∈ footer)
    (hbody : mark ∉ body) :
    dearmor header footer (armor header footer width body) = body := by
  have hchunk : ∀ line ∈ chunks width body, ∀ c ∈ line, c ∈ body :=
    fun line hline c hc => mem_of_mem_takeChunks hline hc
  have hskip : ((armorLines header footer width body).dropWhile
      fun line => !contains line header) = armorLines header footer width body := by
    unfold armorLines
    rw [List.dropWhile_cons_of_neg]
    rw [contains_self]
    decide
  -- the body lines lack the mark, and the footer ends them
  have htake : ((chunks width body ++ [footer]).takeWhile fun line => !contains line footer) =
      chunks width body := by
    rw [List.takeWhile_append_of_pos, List.takeWhile_cons_of_neg, List.append_nil]
    · rw [contains_self]
      decide
    · intro line hline
      rw [not_contains hmark fun hmem => hbody (hchunk line hline mark hmem)]
      rfl
  have htrim : (chunks width body).map trim = (chunks width body).map id := by
    apply List.map_congr_left
    intro line hline
    exact trim_of_plain fun c hc => hplain c (hchunk line hline c hc)
  unfold dearmor
  rw [lines_armor hheader hfooter hplain, hskip]
  show (((chunks width body ++ [footer]).takeWhile fun line => !contains line footer).map
    trim).flatten = body
  rw [htake, htrim, List.map_id, flatten_chunks hwidth]

/-- The length of armored text: every line has its terminator. -/
theorem length_armor (hwidth : 0 < width) :
    (armor header footer width body).length =
      header.length + body.length + (body.length + width - 1) / width + footer.length + 2 := by
  have hlines : ∀ pieces : List Text, (pieces.flatMap (· ++ ['\n'])).length =
      pieces.flatten.length + pieces.length := by
    intro pieces
    induction pieces with
    | nil => rfl
    | cons piece pieces ih =>
      rw [List.flatMap_cons, List.length_append, List.length_append, ih, List.flatten_cons,
        List.length_append, List.length_singleton, List.length_cons]
      omega
  unfold armor armorLines
  rw [hlines, List.flatten_cons, List.flatten_append, flatten_chunks hwidth]
  simp only [List.length_append, List.length_cons, List.flatten_cons, List.flatten_nil,
    List.length_nil, chunks, length_takeChunks]
  omega

/-- Armor adds no character outside ASCII. -/
theorem ascii_armor (hheader : ∀ c ∈ header, c.toNat < 0x80) (hfooter : ∀ c ∈ footer, c.toNat < 0x80)
    (hbody : ∀ c ∈ body, c.toNat < 0x80) :
    ∀ c ∈ armor header footer width body, c.toNat < 0x80 := by
  intro c hmem
  obtain ⟨line, hline, hmem⟩ := List.mem_flatMap.mp hmem
  rcases List.mem_append.mp hmem with hc | hc
  · rcases List.mem_cons.mp hline with rfl | hline
    · exact hheader c hc
    · rcases List.mem_append.mp hline with hchunk | hlast
      · exact hbody c (mem_of_mem_takeChunks hchunk hc)
      · rw [List.mem_singleton.mp hlast] at hc
        exact hfooter c hc
  · rw [List.mem_singleton.mp hc]
    decide

end

end HideProtocol.Lib
