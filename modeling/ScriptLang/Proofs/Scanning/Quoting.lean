import ScriptLang.Proofs.Scanning.Seam
import ScriptLang.Proofs.Scanning.Tiling
import ScriptLang.Text.Escape

/-!
# Texts as string literals

* `Text.escape` — a text with a backslash before every backslash and every double quote;
* `Text.unescape_escape` — decoding gives the text back;
* `Piece.ofSource_literal` — between quotes it is one piece, whatever follows;
* `Reader.items_literal` — a source of nothing else is a string and the end.

The scanner skips what stands behind a backslash, and the decoder replaces both.  They agree on where escapes are,
since an escaped text has a backslash only in front of a backslash or a quote.
-/

namespace ScriptLang

namespace Text

/-- A character, with a backslash before it if it is a backslash or a double quote. -/
def escapeChar (c : Char) : List Char := if c = '\\' ∨ c = '"' then ['\\', c] else [c]

/-- Characters with a backslash before every backslash and every double quote. -/
def escapeChars (s : List Char) : List Char := s.flatMap escapeChar

/-- A text with a backslash before every backslash and every double quote. -/
def escape (text : String) : String := String.ofList (escapeChars text.toList)

/-- A text as a string literal. -/
def literal (text : String) : String := "\"" ++ escape text ++ "\""

/-- An escape, or a character that needs none. -/
theorem escapeChars_cons (c : Char) (s : List Char) :
    ((c = '\\' ∨ c = '"') ∧ escapeChars (c :: s) = '\\' :: c :: escapeChars s) ∨
      (c ≠ '\\' ∧ c ≠ '"') ∧ escapeChars (c :: s) = c :: escapeChars s := by
  show _ ∧ escapeChar c ++ escapeChars s = _ ∨ _ ∧ escapeChar c ++ escapeChars s = _
  unfold escapeChar
  split
  · next h => exact .inl ⟨h, rfl⟩
  · next h => exact .inr ⟨not_or.1 h, rfl⟩

/-- An escaped text does not end the string that it stands in. -/
theorem stringBody_escapeChars (s : List Char) : StringBody (escapeChars s) := by
  induction s with
  | nil => exact .nil
  | cons c s ih =>
    obtain ⟨-, h⟩ | ⟨⟨hescape, hquote⟩, h⟩ := escapeChars_cons c s
    · rw [h]
      exact .escape c ih
    · rw [h]
      exact .plain hquote hescape ih

theorem unescapeChars_escapeChars (s : List Char) : unescapeChars (escapeChars s) = .ok s := by
  induction s with
  | nil => rfl
  | cons c s ih =>
    obtain ⟨rfl | rfl, h⟩ | ⟨⟨hescape, -⟩, h⟩ := escapeChars_cons c s
    · rw [h, unescapeChars, ih]
      rfl
    · rw [h, unescapeChars, ih]
      rfl
    · rw [h, unescapeChars, ih]
      · rfl
      · exact fun d rest hc => absurd hc hescape

/-- Decoding an escaped text gives the text back. -/
theorem unescape_escape (text : String) : unescape (escape text) = .ok text := by
  rw [unescape, escape, String.toList_ofList, unescapeChars_escapeChars]
  exact congrArg Except.ok (String.ofList_toList)

/-- Escapes add no line ends. -/
theorem newlines_escapeChars (s : List Char) : Item.newlines (escapeChars s) = Item.newlines s := by
  induction s with
  | nil => rfl
  | cons c s ih =>
    obtain ⟨-, h⟩ | ⟨-, h⟩ := escapeChars_cons c s <;> simp_all [Item.newlines, List.count_cons]

theorem toList_literal (text : String) : (literal text).toList = '"' :: (escapeChars text.toList ++ ['"']) := by
  simp [literal, escape]

end Text

open Text

/-- A literal is one piece, whatever follows. -/
theorem Piece.ofSource_literal (text : String) (rest : List Char) :
    ofSource ((literal text).toList ++ rest) =
      .token (.string (escape text)) (literal text).toList :: ofSource rest := by
  have hsplit : splitString (escapeChars text.toList ++ '"' :: rest) = some (escapeChars text.toList, rest) :=
    splitString_eq_some_iff.2 ⟨stringBody_escapeChars _, rfl⟩
  have hnext : next '"' (escapeChars text.toList ++ '"' :: rest) =
      (.token (.string (escape text)) (literal text).toList, rest) := by
    show quoted _ = _
    rw [quoted, hsplit, toList_literal]
    rfl
  rw [toList_literal, List.cons_append, List.append_assoc, List.singleton_append, ofSource_cons, hnext,
    toList_literal]

namespace Text

/-- The line on which a text ends that starts on the first one. -/
def lastLine (text : String) : Nat := 1 + Item.newlines text.toList

/-- The token of a literal that starts on the first line. -/
def literalToken (text : String) : Token := ⟨.string (escape text), literal text, lastLine text⟩

theorem newlines_literal (text : String) : Item.newlines (literal text).toList = Item.newlines text.toList := by
  have hescape := newlines_escapeChars text.toList
  rw [toList_literal]
  simp_all [Item.newlines]

end Text

/-- A source that is a literal has its token and the end. -/
theorem Item.ofSource_literal (text : String) :
    Item.ofSource (literal text) = [.token (Text.literalToken text), .token (.endOfFile (lastLine text))] := by
  have hpieces := Piece.ofSource_literal text []
  rw [List.append_nil] at hpieces
  rw [Item.ofSource, hpieces]
  show [Item.token ⟨_, _, 1 + Item.newlines (literal text).toList⟩,
    .token (.endOfFile (1 + Item.newlines (literal text).toList))] = _
  rw [newlines_literal, String.ofList_toList]
  rfl

/-- A reader reads a literal as one string, with no fault, and comes to the end behind it. -/
theorem Reader.items_literal (text : String) : (Reader.ofSource (literal text)).items =
    ([.token (Text.literalToken text), .token (.endOfFile (lastLine text))], true) := by
  rw [Reader.items_ofSource, Item.ofSource_literal]

end ScriptLang
