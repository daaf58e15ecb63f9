import Mathlib.Data.List.TakeWhile
import HideProtocol.Lib.Armor

/-!
# Lines after transport

A text that was mailed or pasted comes back with other white space: blanks around its lines, blank
lines between them, and line ends of another system. `Rewritten` is the relation between the lines
that were written and the text that arrives, and `dearmor_rewritten` reads armor through it.
-/

namespace HideProtocol.Lib

/-! ## Cutting at line ends -/

theorem splitTerminator_ne_nil {sep : Char} {text : Text} (h : text ≠ []) :
    splitTerminator sep text ≠ [] := by
  obtain ⟨c, cs, rfl⟩ := List.exists_cons_of_ne_nil h
  rw [splitTerminator]
  split
  · exact List.cons_ne_nil _ _
  · split
    · exact List.cons_ne_nil _ _
    · exact List.cons_ne_nil _ _

/-- The first line, and the lines of the rest. -/
theorem lines_cons {line : Text} (h : '\n' ∉ line) (rest : Text) :
    lines (line ++ '\n' :: rest) = dropReturn line :: lines rest := by
  unfold lines
  simp only [splitTerminator_append h]
  rcases List.eq_nil_or_concat rest with rfl | ⟨init, last, rfl⟩
  · rw [List.getLast?_concat, if_pos rfl]
    rfl
  · have hrest : splitTerminator '\n' (init.concat last) ≠ [] :=
      splitTerminator_ne_nil (by rw [List.concat_eq_append]; simp)
    have hlast : (line ++ '\n' :: init.concat last).getLast? = (init.concat last).getLast? := by
      rw [List.concat_eq_append, ← List.cons_append, ← List.append_assoc, List.getLast?_concat,
        List.getLast?_concat]
    rw [hlast]
    split
    · rfl
    · rw [List.dropLast_cons_of_ne_nil hrest, List.map_cons, List.getLast?_cons_of_ne_nil hrest,
        List.cons_append]

/-- Nothing, or lines that are all terminated. -/
def WholeLines (text : Text) : Prop := text = [] ∨ text.getLast? = some '\n'

/-- Behind whole lines the rest has its own lines. -/
theorem lines_append {text : Text} (h : WholeLines text) (rest : Text) :
    lines (text ++ rest) = lines text ++ lines rest := by
  induction hn : text.length using Nat.strong_induction_on generalizing text with
  | _ n ih =>
    rcases h with rfl | hlast
    · rfl
    · -- cut off the first line
      obtain ⟨line, tail, rfl, hline⟩ := List.eq_append_cons_of_mem (List.mem_of_getLast? hlast)
      have htail : WholeLines tail := by
        rcases List.eq_nil_or_concat tail with rfl | ⟨init, last, rfl⟩
        · exact Or.inl rfl
        · right
          rw [List.concat_eq_append, ← List.cons_append, ← List.append_assoc,
            List.getLast?_concat] at hlast
          rw [List.concat_eq_append, List.getLast?_concat, hlast]
      have hshort : tail.length < n := by
        rw [← hn, List.length_append, List.length_cons]
        omega
      rw [List.append_assoc, List.cons_append, lines_cons hline, lines_cons hline,
        ih _ hshort htail rfl, List.cons_append]

/-! ## Terminated lines -/

/-- The line ends of the systems there are. -/
def LineEnd (eol : Text) : Prop := eol = ['\n'] ∨ eol = ['\r', '\n']

/-- Each line with a line end of its own. -/
inductive Terminated : List Text → Text → Prop
  | nil : Terminated [] []
  | cons {line eol text : Text} {rest : List Text} :
      LineEnd eol → Terminated rest text → Terminated (line :: rest) (line ++ eol ++ text)

theorem dropReturn_of_oneLine {line : Text} (h : '\r' ∉ line) : dropReturn line = line :=
  if_neg fun hlast => h (List.mem_of_getLast? hlast)

theorem dropReturn_concat (line : Text) : dropReturn (line ++ ['\r']) = line := by
  rw [dropReturn, List.getLast?_concat, if_pos rfl, List.dropLast_concat]

/-- Either line end ends its line and is not part of it. -/
theorem lines_terminatedBy {pieces : List Text} {text : Text} (h : Terminated pieces text)
    (hone : ∀ piece ∈ pieces, OneLine piece) (rest : Text) :
    lines (text ++ rest) = pieces ++ lines rest := by
  induction h with
  | nil => rfl
  | @cons line eol text pieces heol _ ih =>
    have hline := hone line List.mem_cons_self
    have hrest := ih fun piece hpiece => hone piece (List.mem_cons_of_mem _ hpiece)
    rcases heol with rfl | rfl
    · have hcut : line ++ ['\n'] ++ text ++ rest = line ++ '\n' :: (text ++ rest) := by simp
      rw [hcut, lines_cons hline.1, dropReturn_of_oneLine hline.2, hrest, List.cons_append]
    · have hcut : line ++ ['\r', '\n'] ++ text ++ rest =
          (line ++ ['\r']) ++ '\n' :: (text ++ rest) := by simp
      have hfeed : '\n' ∉ line ++ ['\r'] := by simpa using hline.1
      rw [hcut, lines_cons hfeed, dropReturn_concat, hrest, List.cons_append]

/-! ## Edited lines -/

/-- Spaces and tabs. -/
def Blank (text : Text) : Prop := ∀ c ∈ text, c = ' ' ∨ c = '\t'

/-- Lines with `pad` on both sides of each, and blank lines in between. -/
inductive Edited (pad : Text → Prop) : List Text → List Text → Prop
  | nil : Edited pad [] []
  | blank {line : Text} {lines edited : List Text} :
      Blank line → Edited pad lines edited → Edited pad lines (line :: edited)
  | line {left line right : Text} {lines edited : List Text} :
      pad left → pad right → Edited pad lines edited →
        Edited pad (line :: lines) ((left ++ line ++ right) :: edited)

/-- The text that the lines arrive as. -/
def Rewritten (pad : Text → Prop) (lines : List Text) (text : Text) : Prop :=
  ∃ edited, Edited pad lines edited ∧ Terminated edited text

variable {pad : Text → Prop} {text left right : Text} {edited : List Text}

/-- Lines that arrive as they were written. -/
theorem rewritten_self (h : pad []) (pieces : List Text) :
    Rewritten pad pieces (pieces.flatMap fun piece => piece ++ ['\n']) := by
  induction pieces with
  | nil => exact ⟨[], .nil, .nil⟩
  | cons piece pieces ih =>
    obtain ⟨edited, hedited, hterminated⟩ := ih
    refine ⟨([] ++ piece ++ []) :: edited, .line h h hedited, ?_⟩
    rw [List.nil_append, List.append_nil, List.flatMap_cons]
    exact .cons (Or.inl rfl) hterminated

theorem Blank.oneLine (h : Blank text) : OneLine text := by
  constructor
  · intro hmem
    rcases h _ hmem with hc | hc <;> cases hc
  · intro hmem
    rcases h _ hmem with hc | hc <;> cases hc

theorem Blank.whitespace (h : Blank text) : ∀ c ∈ text, isWhitespace c = true := by
  intro c hc
  rcases h c hc with rfl | rfl <;> decide

theorem Edited.oneLine {pieces : List Text} (h : Edited pad pieces edited)
    (hpad : ∀ t, pad t → Blank t) (hone : ∀ piece ∈ pieces, OneLine piece) :
    ∀ line ∈ edited, OneLine line := by
  induction h with
  | nil => simp
  | @blank line pieces edited hblank _ ih =>
    intro l hl
    rcases List.mem_cons.mp hl with rfl | hl
    · exact hblank.oneLine
    · exact ih hone l hl
  | @line left line right pieces edited hleft hright _ ih =>
    intro l hl
    rcases List.mem_cons.mp hl with rfl | hl
    · have hl := (hpad left hleft).oneLine
      have hr := (hpad right hright).oneLine
      have hline := hone line List.mem_cons_self
      constructor
      · simpa using ⟨hl.1, hline.1, hr.1⟩
      · simpa using ⟨hl.2, hline.2, hr.2⟩
    · exact ih (fun piece hpiece => hone piece (List.mem_cons_of_mem _ hpiece)) l hl

/-- The first line stands behind blank lines. -/
theorem Edited.of_cons {line : Text} {pieces : List Text} (h : Edited pad (line :: pieces) edited) :
    ∃ blanks left right rest, (∀ b ∈ blanks, Blank b) ∧ pad left ∧ pad right ∧
      Edited pad pieces rest ∧ edited = blanks ++ (left ++ line ++ right) :: rest := by
  generalize hwhole : line :: pieces = whole at h
  induction h with
  | nil => cases hwhole
  | @blank b pieces' edited hblank _ ih =>
    obtain ⟨blanks, left, right, rest, hblanks, hleft, hright, hrest, rfl⟩ := ih hwhole
    exact ⟨b :: blanks, left, right, rest, List.forall_mem_cons.mpr ⟨hblank, hblanks⟩, hleft, hright,
      hrest, rfl⟩
  | @line left line' right pieces' edited hleft hright hrest _ =>
    cases hwhole
    exact ⟨[], left, right, edited, by simp, hleft, hright, hrest, rfl⟩

theorem Edited.of_append {first second : List Text} (h : Edited pad (first ++ second) edited) :
    ∃ front back, Edited pad first front ∧ Edited pad second back ∧ edited = front ++ back := by
  induction first generalizing edited with
  | nil => exact ⟨[], edited, .nil, h, rfl⟩
  | cons line first ih =>
    obtain ⟨blanks, left, right, rest, hblanks, hleft, hright, hrest, rfl⟩ := Edited.of_cons h
    obtain ⟨front, back, hfront, hback, rfl⟩ := ih hrest
    refine ⟨blanks ++ (left ++ line ++ right) :: front, back, ?_, hback, by simp⟩
    clear h
    induction blanks with
    | nil => exact .line hleft hright hfront
    | cons b blanks ih =>
      exact .blank (hblanks b List.mem_cons_self)
        (ih fun b' hb' => hblanks b' (List.mem_cons_of_mem _ hb'))

/-! ## What is left of an edited line -/

/-- Trimming takes off white space, and nothing of a text that has none. -/
theorem trim_padded (hleft : ∀ c ∈ left, isWhitespace c = true)
    (hright : ∀ c ∈ right, isWhitespace c = true) (htext : ∀ c ∈ text, isWhitespace c = false) :
    trim (left ++ text ++ right) = text := by
  have hkeep : ∀ {t s : Text}, t ≠ [] → (∀ c ∈ t, isWhitespace c = false) →
      (t ++ s).dropWhile isWhitespace = t ++ s := by
    intro t s hne ht
    obtain ⟨c, cs, rfl⟩ := List.exists_cons_of_ne_nil hne
    exact List.dropWhile_cons_of_neg (by simp [ht c List.mem_cons_self])
  unfold trim
  rw [List.append_assoc, List.dropWhile_append_of_pos hleft]
  by_cases hempty : text = []
  · have hall : right.dropWhile isWhitespace = [] := List.dropWhile_eq_nil_iff.mpr hright
    rw [hempty, List.nil_append, hall]
    rfl
  · have hback : ∀ c ∈ right.reverse, isWhitespace c = true :=
      fun c hc => hright c (List.mem_reverse.mp hc)
    have hne : text.reverse ≠ [] := by simpa using hempty
    have hmiddle := @hkeep text.reverse [] hne fun c hc => htext c (List.mem_reverse.mp hc)
    rw [List.append_nil] at hmiddle
    rw [hkeep hempty htext, List.reverse_append, List.dropWhile_append_of_pos hback, hmiddle,
      List.reverse_reverse]

theorem Blank.trim_eq (h : Blank text) : trim text = [] := by
  have htrim := @trim_padded [] text [] h.whitespace (by simp) (by simp)
  rwa [List.append_nil, List.append_nil] at htrim

theorem Blank.not_mem {c : Char} (h : Blank text) (hc : isWhitespace c = false) : c ∉ text := by
  intro hmem
  rw [h.whitespace c hmem] at hc
  cases hc

/-- What the lines had that is not white space is left of them, in order. -/
theorem Edited.flatten_trim {pieces : List Text} (h : Edited pad pieces edited)
    (hpad : ∀ t, pad t → Blank t) (hplain : ∀ piece ∈ pieces, ∀ c ∈ piece, isWhitespace c = false) :
    (edited.map trim).flatten = pieces.flatten := by
  induction h with
  | nil => rfl
  | @blank line pieces edited hblank _ ih =>
    rw [List.map_cons, List.flatten_cons, hblank.trim_eq, List.nil_append]
    exact ih hplain
  | @line left line right pieces edited hleft hright _ ih =>
    rw [List.map_cons, List.flatten_cons, List.flatten_cons,
      trim_padded (hpad left hleft).whitespace (hpad right hright).whitespace
        (hplain line List.mem_cons_self),
      ih fun piece hpiece => hplain piece (List.mem_cons_of_mem _ hpiece)]

/-- Editing adds nothing but white space. -/
theorem Edited.not_mem {pieces : List Text} (h : Edited pad pieces edited)
    (hpad : ∀ t, pad t → Blank t) {c : Char} (hc : isWhitespace c = false)
    (hpieces : ∀ piece ∈ pieces, c ∉ piece) : ∀ line ∈ edited, c ∉ line := by
  induction h with
  | nil => simp
  | @blank line pieces edited hblank _ ih =>
    exact List.forall_mem_cons.mpr ⟨hblank.not_mem hc, ih hpieces⟩
  | @line left line right pieces edited hleft hright _ ih =>
    refine List.forall_mem_cons.mpr
      ⟨?_, ih fun piece hpiece => hpieces piece (List.mem_cons_of_mem _ hpiece)⟩
    simpa using ⟨(hpad left hleft).not_mem hc, hpieces line List.mem_cons_self,
      (hpad right hright).not_mem hc⟩

/-! ## Armor after transport -/

theorem contains_padded (left pattern right : Text) :
    contains (left ++ pattern ++ right) pattern = true :=
  decide_eq_true ⟨left, right, rfl⟩

/-- **The armor comes off after transport**, from among other text, when the markers have a
character that the body has not. -/
theorem dearmor_rewritten {header footer body before after : Text} {width : ℕ} (hwidth : 0 < width)
    (hheader : OneLine header) (hfooter : OneLine footer)
    (hplain : ∀ c ∈ body, isWhitespace c = false) {mark : Char} (hmark : isWhitespace mark = false)
    (hinHeader : mark ∈ header) (hinFooter : mark ∈ footer) (hbody : mark ∉ body)
    (hbefore : WholeLines before) (hlines : ∀ line ∈ lines before, contains line header = false)
    (h : Rewritten Blank (armorLines header footer width body) text) :
    dearmor header footer (before ++ text ++ after) = body := by
  have hchunk : ∀ line ∈ chunks width body, ∀ c ∈ line, c ∈ body :=
    fun line hline c hc => mem_of_mem_takeChunks hline hc
  have hone : ∀ line ∈ armorLines header footer width body, OneLine line := by
    have hbodyLine := oneLine_of_plain hplain
    intro line hline
    rcases List.mem_cons.mp hline with rfl | hline
    · exact hheader
    · rcases List.mem_append.mp hline with hmem | hlast
      · exact ⟨fun hc => hbodyLine.1 (hchunk line hmem _ hc),
          fun hc => hbodyLine.2 (hchunk line hmem _ hc)⟩
      · rw [List.mem_singleton.mp hlast]
        exact hfooter
  obtain ⟨edited, hedited, hterminated⟩ := h
  have htext : lines (before ++ text ++ after) = lines before ++ (edited ++ lines after) := by
    rw [List.append_assoc, lines_append hbefore,
      lines_terminatedBy hterminated (hedited.oneLine (fun _ ht => ht) hone)]
  -- blanks, the header, the body with blanks, more blanks, the footer
  obtain ⟨blanks, left, right, rest, hblanks, -, -, hrest, rfl⟩ := hedited.of_cons
  obtain ⟨front, back, hfront, hback, rfl⟩ := hrest.of_append
  obtain ⟨blanks', left', right', rest', hblanks', -, -, -, rfl⟩ := hback.of_cons
  have hskip : ∀ line ∈ lines before ++ blanks, (!contains line header) = true := by
    intro line hline
    rcases List.mem_append.mp hline with hline | hline
    · rw [hlines line hline]
      rfl
    · rw [not_contains hinHeader ((hblanks line hline).not_mem hmark)]
      rfl
  have hkeep : ∀ line ∈ front ++ blanks', (!contains line footer) = true := by
    intro line hline
    have hnot : mark ∉ line := by
      rcases List.mem_append.mp hline with hline | hline
      · exact hfront.not_mem (fun _ ht => ht) hmark
          (fun piece hpiece hc => hbody (hchunk piece hpiece _ hc)) line hline
      · exact (hblanks' line hline).not_mem hmark
    rw [not_contains hinFooter hnot]
    rfl
  have hfrom : (lines (before ++ text ++ after)).dropWhile (fun line => !contains line header) =
      (left ++ header ++ right) ::
        ((front ++ blanks') ++ (left' ++ footer ++ right') :: (rest' ++ lines after)) := by
    rw [htext]
    have hsplit : lines before ++ (blanks ++ (left ++ header ++ right) ::
        (front ++ (blanks' ++ (left' ++ footer ++ right') :: rest')) ++ lines after) =
        (lines before ++ blanks) ++ ((left ++ header ++ right) ::
          ((front ++ blanks') ++ (left' ++ footer ++ right') :: (rest' ++ lines after))) := by
      simp only [List.append_assoc, List.cons_append]
    rw [hsplit, List.dropWhile_append_of_pos hskip, List.dropWhile_cons_of_neg]
    rw [contains_padded]
    decide
  have hblank : (blanks'.map trim).flatten = [] := by
    rw [List.flatten_eq_nil_iff]
    intro line hline
    obtain ⟨b, hb, rfl⟩ := List.mem_map.mp hline
    exact (hblanks' b hb).trim_eq
  unfold dearmor
  rw [hfrom, List.drop_one, List.tail_cons, List.takeWhile_append_of_pos hkeep,
    List.takeWhile_cons_of_neg (by rw [contains_padded]; decide), List.append_nil, List.map_append,
    List.flatten_append, hblank, List.append_nil, hfront.flatten_trim (fun _ ht => ht)
      (fun piece hpiece c hc => hplain c (hchunk piece hpiece c hc)), flatten_chunks hwidth]

end HideProtocol.Lib
