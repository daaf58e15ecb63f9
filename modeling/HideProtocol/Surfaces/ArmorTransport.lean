import HideProtocol.Lib.EditedLines
import HideProtocol.Surfaces.Messages

/-!
# Armor that was edited on the way

Mail programs and chats change the white space of a text and put other text around it. Both readers
of armored messages find the container all the same, and a pasted public key survives what happens
to its line ends.
-/

namespace HideProtocol.Surfaces

open Lib Crypto Keyring

/-! ## Messages -/

theorem lines_armorMessage (container : Bytes) :
    lines (Cli.armorMessage container) =
      armorLines Cli.messageHeader Cli.messageFooter 76 (Base64.encode container) :=
  lines_armor oneLine_messageHeader oneLine_messageFooter
    fun c hc => plain_of_printable (Base64.printable_encode container c hc)

/-- The command line reads the container out of the text around it. -/
theorem dearmorMessage_rewritten {container : Bytes} (hne : container ≠ []) {before text : Text}
    (after : Text) (hbefore : WholeLines before)
    (hlines : ∀ line ∈ lines before, contains line Cli.messageHeader = false)
    (h : Rewritten Blank (lines (Cli.armorMessage container)) text) :
    Cli.dearmorMessage (before ++ text ++ after) = .ok container := by
  rw [lines_armorMessage] at h
  have hbody : dearmor Cli.messageHeader Cli.messageFooter (before ++ text ++ after) =
      Base64.encode container :=
    dearmor_rewritten (by decide) oneLine_messageHeader oneLine_messageFooter
      (fun c hc => plain_of_printable (Base64.printable_encode container c hc))
      (show isWhitespace '-' = false by decide) (by decide) (by decide)
      (Base64.hyphen_not_mem_encode container) hbefore hlines h
  unfold Cli.dearmorMessage
  rw [hbody]
  simp only []
  rw [failIf_neg _ (encode_ne_nil hne), ok_bind, Base64.decode_encode, okOr_some]

section
variable (P : Crypto.Primitives) (S : Sign.Primitives) (K : Keyring.Primitives)

/-- What `Desktop.unsealMessage` does with the container it extracted. -/
def openContainer (container secret : Bytes) (passphrase : Option String) :
    Except Desktop.CommandError String := do
  let secret ← Desktop.loadSecret K secret passphrase
  let read := Object.decryptToStaging P S container secret
  let _ ← mapErr (fun error => Desktop.fail "decryption failed" (.object error)) read.result
  okOr (fromUtf8 read.staging)
    (.message "this is not a text message; open it as a file instead")

/-- The two copies of the reader agree: what the command line extracts from a text, the application
extracts too. -/
theorem unsealMessage_eq_openContainer {armored : Text} {container : Bytes}
    (h : Cli.dearmorMessage armored = .ok container) (secret : Bytes) (passphrase : Option String) :
    Desktop.unsealMessage P S K armored secret passphrase =
      openContainer P S K container secret passphrase := by
  unfold Cli.dearmorMessage at h
  obtain ⟨_, hne, h⟩ := bind_eq_ok.mp h
  have hbody : dearmor Desktop.messageHeader Desktop.messageFooter armored =
      dearmor Cli.messageHeader Cli.messageFooter armored := rfl
  unfold Desktop.unsealMessage
  rw [hbody]
  simp only []
  rw [failIf_neg _ (failIf_eq_ok.mp hne), ok_bind, okOr_eq_ok.mp h, okOr_some, ok_bind]
  rfl

end

/-! ## Public keys -/

theorem encodePublic_eq (bytes : Bytes) :
    encodePublic bytes =
      (publicMarker :: chunks 64 (Base64.encode bytes)).flatMap fun line => line ++ ['\n'] := by
  have hshift : ∀ (first : Text) (rest : List Text),
      first ++ rest.flatMap (fun chunk => '\n' :: chunk) ++ ['\n'] =
        (first :: rest).flatMap fun line => line ++ ['\n'] := by
    intro first rest
    induction rest generalizing first with
    | nil => simp
    | cons chunk rest ih =>
      rw [List.flatMap_cons, List.flatMap_cons, ← ih chunk]
      simp
  exact hshift _ _

theorem oneLine_publicLines (bytes : Bytes) :
    ∀ line ∈ publicMarker :: chunks 64 (Base64.encode bytes), OneLine line := by
  have hbody := oneLine_of_plain fun c hc =>
    plain_of_printable (Base64.printable_encode bytes c hc)
  intro line hline
  rcases List.mem_cons.mp hline with rfl | hline
  · constructor <;> decide
  · exact ⟨fun hc => hbody.1 (mem_of_mem_takeChunks hline hc),
      fun hc => hbody.2 (mem_of_mem_takeChunks hline hc)⟩

theorem lines_encodePublic (bytes : Bytes) :
    lines (encodePublic bytes) = publicMarker :: chunks 64 (Base64.encode bytes) := by
  have hone := oneLine_publicLines bytes
  rw [encodePublic_eq]
  exact lines_terminated (List.cons_ne_nil _ _) (fun line hline => (hone line hline).1)
    fun line hline => (hone line hline).2

/-- The lines that `decodePublic` keeps. -/
def keptLines (edited : List Text) : List Text :=
  edited.filter fun line => trim line ≠ [] ∧ ¬publicMarker.isPrefixOf line

/-- Blank lines go, and lines of the body stay as they are. -/
theorem flatten_keptLines {pieces edited : List Text} (h : Edited (· = []) pieces edited)
    (hplain : ∀ piece ∈ pieces, ∀ c ∈ piece, isWhitespace c = false)
    (hhyphen : ∀ piece ∈ pieces, '-' ∉ piece) :
    (keptLines edited).flatten = pieces.flatten := by
  induction h with
  | nil => rfl
  | @blank line pieces edited hblank _ ih =>
    unfold keptLines
    rw [List.filter_cons_of_neg (by simp [hblank.trim_eq])]
    exact ih hplain hhyphen
  | @line left line right pieces edited hleft hright _ ih =>
    have hrest := ih (fun piece hpiece => hplain piece (List.mem_cons_of_mem _ hpiece))
      fun piece hpiece => hhyphen piece (List.mem_cons_of_mem _ hpiece)
    have htrim := trim_of_plain (hplain line List.mem_cons_self)
    have hunmarked : ¬publicMarker.isPrefixOf line = true := by
      intro hprefix
      have hsub := (List.isPrefixOf_iff_prefix.mp hprefix).subset
      exact hhyphen line List.mem_cons_self (hsub (by decide))
    rw [hleft, hright, List.nil_append, List.append_nil, List.flatten_cons]
    unfold keptLines
    by_cases hempty : line = []
    · have hnil : trim line = [] := htrim.trans hempty
      rw [List.filter_cons_of_neg (by simp [hnil]), hempty, List.nil_append]
      exact hrest
    · rw [List.filter_cons_of_pos (by simp [htrim, hempty, hunmarked]), List.flatten_cons]
      exact congrArg (line ++ ·) hrest

theorem decodePublic_rewritten {bytes : Bytes} {text : Text}
    (h : Rewritten (· = []) (lines (encodePublic bytes)) text) : decodePublic text = .ok bytes := by
  rw [lines_encodePublic] at h
  obtain ⟨edited, hedited, hterminated⟩ := h
  have hpad : ∀ t : Text, t = [] → Blank t := by
    rintro t rfl
    exact List.forall_mem_nil _
  have hlines : lines text = edited := by
    have hall := lines_terminatedBy hterminated
      (hedited.oneLine hpad (oneLine_publicLines bytes)) []
    rw [List.append_nil] at hall
    exact hall.trans (List.append_nil _)
  -- the marker is the first line that is not blank
  obtain ⟨blanks, left, right, rest, hblanks, hleft, hright, hrest, rfl⟩ := hedited.of_cons
  have hchunk : ∀ piece ∈ chunks 64 (Base64.encode bytes), ∀ c ∈ piece,
      c ∈ Base64.encode bytes := fun piece hpiece c hc => mem_of_mem_takeChunks hpiece hc
  have hplain : ∀ c ∈ Base64.encode bytes, isWhitespace c = false :=
    fun c hc => plain_of_printable (Base64.printable_encode bytes c hc)
  have hbody := flatten_keptLines hrest (fun piece hpiece c hc => hplain c (hchunk piece hpiece c hc))
    fun piece hpiece hc => Base64.hyphen_not_mem_encode bytes (hchunk piece hpiece _ hc)
  have hfront : keptLines blanks = [] := by
    apply List.filter_eq_nil_iff.mpr
    intro line hline
    simp [(hblanks line hline).trim_eq]
  have hmarker : publicMarker.isPrefixOf publicMarker = true := by decide
  have hkept : (keptLines (blanks ++ (left ++ publicMarker ++ right) :: rest)).flatten =
      Base64.encode bytes := by
    rw [hleft, hright, List.nil_append, List.append_nil]
    unfold keptLines
    rw [List.filter_append, List.filter_cons_of_neg (by simp [hmarker]), List.flatten_append]
    show (keptLines blanks).flatten ++ (keptLines rest).flatten = _
    rw [hfront, hbody, List.flatten_nil, List.nil_append, flatten_chunks (by decide)]
  unfold decodePublic
  rw [hlines]
  show okOr (Base64.decode (trim (keptLines _).flatten)) _ = _
  rw [hkept, trim_of_plain hplain, Base64.decode_encode, okOr_some]

/-- **Armor survives transport.** The lines of an armored message may be padded with spaces and
tabs, interspersed with blank lines and ended either way, behind any lines that do not have the
header and before any text: the command line and the application extract the container. A public
key survives the same, apart from the padding. -/
theorem armor_survives_transport :
    (∀ container : Bytes, container ≠ [] → ∀ before text after : Text, WholeLines before →
      (∀ line ∈ lines before, contains line Cli.messageHeader = false) →
      Rewritten Blank (lines (Cli.armorMessage container)) text →
        Cli.dearmorMessage (before ++ text ++ after) = .ok container ∧
        ∀ P S K secret passphrase,
          Desktop.unsealMessage P S K (before ++ text ++ after) secret passphrase =
            openContainer P S K container secret passphrase) ∧
    ∀ bytes : Bytes, decodePublic (encodePublic bytes) = .ok bytes ∧
      ∀ text, Rewritten (· = []) (lines (encodePublic bytes)) text →
        decodePublic text = .ok bytes := by
  refine ⟨?_, ?_⟩
  · intro container hne before text after hbefore hlines h
    have hdearmor := dearmorMessage_rewritten hne after hbefore hlines h
    exact ⟨hdearmor, fun P S K secret passphrase =>
      unsealMessage_eq_openContainer P S K hdearmor secret passphrase⟩
  · intro bytes
    refine ⟨decodePublic_rewritten ?_, fun _ h => decodePublic_rewritten h⟩
    rw [lines_encodePublic, encodePublic_eq]
    exact @rewritten_self (· = []) rfl _

/-- A container of one byte, with its line indented, a blank line and line ends of both kinds. -/
def editedMessage : Text :=
  Cli.messageHeader ++ ['\r', '\n'] ++ ([] ++ ['\n'] ++
    ("  AQ==\t".toList ++ ['\r', '\n'] ++ (Cli.messageFooter ++ ['\n'] ++ [])))

theorem rewritten_editedMessage : Rewritten Blank (lines (Cli.armorMessage [1])) editedMessage := by
  have hpadded : "  AQ==\t".toList = "  ".toList ++ Base64.encode [1] ++ "\t".toList := by decide
  have hlines : lines (Cli.armorMessage [1]) =
      [Cli.messageHeader, Base64.encode [1], Cli.messageFooter] := by
    rw [lines_armorMessage]
    rfl
  have hnone : Blank [] := List.forall_mem_nil _
  have hspaces : Blank "  ".toList := by simp [Blank]
  have htab : Blank "\t".toList := by simp [Blank]
  rw [hlines]
  refine ⟨[[] ++ Cli.messageHeader ++ [], [], "  ".toList ++ Base64.encode [1] ++ "\t".toList,
    [] ++ Cli.messageFooter ++ []], ?_, ?_⟩
  · exact .line hnone hnone (.blank hnone (.line hspaces htab (.line hnone hnone .nil)))
  · rw [← hpadded, List.nil_append, List.append_nil, List.nil_append, List.append_nil]
    exact .cons (Or.inr rfl) (.cons (Or.inl rfl) (.cons (Or.inr rfl) (.cons (Or.inl rfl) .nil)))

theorem armor_survives_transport_samples :
    Cli.dearmorMessage ("Hi,\n".toList ++ editedMessage ++ "Bye".toList) = .ok [1] ∧
      decodePublic "hide-public-key:\r\n\r\nAQ==\r\n".toList = .ok [1] := by
  refine ⟨?_, ?_⟩
  · refine (armor_survives_transport.1 [1] (by decide) _ _ _ (Or.inr (by decide)) ?_
      rewritten_editedMessage).1
    intro line hline
    have hfirst : lines "Hi,\n".toList = ["Hi,".toList] := by decide
    rw [hfirst, List.mem_singleton] at hline
    rw [hline]
    decide
  · apply (armor_survives_transport.2 [1]).2
    have hlines : lines (encodePublic [1]) = [publicMarker, Base64.encode [1]] := by
      rw [lines_encodePublic]
      rfl
    rw [hlines]
    refine ⟨[[] ++ publicMarker ++ [], [], [] ++ Base64.encode [1] ++ []], ?_, ?_⟩
    · exact .line rfl rfl (.blank (List.forall_mem_nil _) (.line rfl rfl .nil))
    · exact .cons (Or.inr rfl) (.cons (Or.inr rfl) (.cons (Or.inr rfl) .nil))

end HideProtocol.Surfaces
