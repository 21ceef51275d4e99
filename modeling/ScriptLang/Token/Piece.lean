import ScriptLang.Token

/-!
# Pieces of source text

The source is cut into pieces from left to right: blanks and comments, tokens, and stretches that belong to no
token.  `Piece.next` cuts off one piece; it looks at one or two characters to choose the class and takes the
longest piece of that class.  An opening quote or `/*` commits to its class: without an end, the rest of the source
is one faulty piece.
-/

namespace ScriptLang

/-- Why a stretch of source text is no token. -/
inductive LexicalFault
  | unexpected (c : Char)
  | unterminatedString
  | unterminatedComment
deriving DecidableEq, Repr

/-- The wording of a lexical fault. -/
def LexicalFault.message : LexicalFault → String
  | unexpected c => "Unexpected character: " ++ String.singleton c
  | unterminatedString => "Unterminated string."
  | unterminatedComment => "Unterminated block comment."

/-- A stretch of the source, with what it is. -/
inductive Piece
  /-- White space or a comment. -/
  | blank (text : List Char)
  | token (kind : Kind) (text : List Char)
  | fault (cause : LexicalFault) (text : List Char)

namespace Piece

/-- The characters of a piece. -/
def text : Piece → List Char
  | blank s => s
  | token _ s => s
  | fault _ s => s

/-! ## character classes, all of them within ASCII -/

/-- White space. -/
def isSpace (c : Char) : Bool := c = ' ' || c = '\r' || c = '\t' || c = '\n'

/-- The first character of a name. -/
def isNameStart (c : Char) : Bool := c.isAlpha || c = '_'

/-- The other characters of a name. -/
def isNameChar (c : Char) : Bool := c.isAlphanum || c = '_'

/-! ## the classes that extend over several characters -/

/-- Splits off the first characters that pass a test. -/
def spanOf (p : Char → Bool) (s : List Char) : List Char × List Char := (s.takeWhile p, s.dropWhile p)

/-- Splits after the end of a block comment with `depth` further comments open around it.  Comments nest, and their
delimiters are read from left to right without overlap. -/
def splitComment (depth : Nat) : List Char → Option (List Char × List Char)
  | [] => none
  | '/' :: '*' :: s => (splitComment (depth + 1) s).map fun r => ('/' :: '*' :: r.1, r.2)
  | '*' :: '/' :: s =>
    match depth with
    | 0 => some (['*', '/'], s)
    | d + 1 => (splitComment d s).map fun r => ('*' :: '/' :: r.1, r.2)
  | c :: s => (splitComment depth s).map fun r => (c :: r.1, r.2)

/-- Splits at the quote that ends a string, which is left out; a backslash takes the next character with it. -/
def splitString : List Char → Option (List Char × List Char)
  | [] => none
  | '"' :: s => some ([], s)
  | '\\' :: c :: s => (splitString s).map fun r => ('\\' :: c :: r.1, r.2)
  | c :: s => (splitString s).map fun r => (c :: r.1, r.2)

/-- Splits off the fraction of a number, its point included: a point counts only with a digit after it. -/
def splitFraction : List Char → List Char × List Char
  | '.' :: d :: s => if d.isDigit then ('.' :: (spanOf Char.isDigit (d :: s)).1, (spanOf Char.isDigit (d :: s)).2)
    else ([], '.' :: d :: s)
  | s => ([], s)

/-- The number that starts with a digit. -/
def number (c : Char) (s : List Char) : Piece × List Char :=
  let whole := c :: (spanOf Char.isDigit s).1
  let (fraction, rest) := splitFraction (spanOf Char.isDigit s).2
  (token (.number (Number.ofDigits whole fraction.tail)) (whole ++ fraction), rest)

/-- The identifier or keyword that starts with a letter. -/
def word (c : Char) (s : List Char) : Piece × List Char :=
  let name := c :: (spanOf isNameChar s).1
  let kind := match Keyword.ofText? name with
    | some k => Kind.keyword k
    | none => .identifier
  (token kind name, (spanOf isNameChar s).2)

/-- The string whose opening quote was read. -/
def quoted (s : List Char) : Piece × List Char :=
  match splitString s with
  | some (raw, rest) => (token (.string (String.ofList raw)) ('"' :: raw ++ ['"']), rest)
  | none => (fault .unterminatedString ('"' :: s), [])

/-- The block comment whose opening delimiter was read. -/
def comment (s : List Char) : Piece × List Char :=
  match splitComment 0 s with
  | some (body, rest) => (blank ('/' :: '*' :: body), rest)
  | none => (fault .unterminatedComment ('/' :: '*' :: s), [])

/-- The mark or fault at a character that starts nothing else: two characters before one. -/
def operator (c : Char) (s : List Char) : Piece × List Char :=
  let single : Piece := match Mark.ofChar? c with
    | some m => token (.mark m) [c]
    | none => fault (.unexpected c) [c]
  match s with
  | [] => (single, [])
  | d :: rest =>
    match Mark.ofPair? c d with
    | some m => (token (.mark m) [c, d], rest)
    | none => (single, d :: rest)

/-- The piece that starts with a character, and what follows it. -/
def next (c : Char) (s : List Char) : Piece × List Char :=
  if isSpace c then (blank [c], s)
  else if c = '"' then quoted s
  else if c.isDigit then number c s
  else if isNameStart c then word c s
  else
    match c, s with
    | '/', '/' :: rest =>
      (blank ('/' :: '/' :: (spanOf (· != '\n') rest).1), (spanOf (· != '\n') rest).2)
    | '/', '*' :: rest => comment rest
    | _, _ => operator c s

/-- The pieces of a text, in order; a text has no more pieces than characters, which is the bound. -/
def cut : Nat → List Char → List Piece
  | _, [] => []
  | 0, _ => []
  | n + 1, c :: s =>
    let (piece, rest) := next c s
    piece :: cut n rest

/-- The pieces of a source. -/
def ofSource (source : List Char) : List Piece := cut source.length source

/-! ## nothing is lost -/

theorem spanOf_append (p : Char → Bool) (s : List Char) : (spanOf p s).1 ++ (spanOf p s).2 = s :=
  List.takeWhile_append_dropWhile

theorem splitComment_eq {depth : Nat} {s body rest : List Char}
    (h : splitComment depth s = some (body, rest)) : s = body ++ rest := by
  fun_induction splitComment depth s generalizing body rest with
  | case1 => simp at h
  | case2 depth s ih =>
    obtain ⟨⟨b, r⟩, hb, he⟩ := Option.map_eq_some_iff.1 h
    obtain ⟨rfl, rfl⟩ := Prod.mk.inj he
    simp [ih hb]
  | case3 s =>
    obtain ⟨rfl, rfl⟩ := Prod.mk.inj (Option.some.inj h)
    simp
  | case4 d s ih =>
    obtain ⟨⟨b, r⟩, hb, he⟩ := Option.map_eq_some_iff.1 h
    obtain ⟨rfl, rfl⟩ := Prod.mk.inj he
    simp [ih hb]
  | case5 depth c s _ _ ih =>
    obtain ⟨⟨b, r⟩, hb, he⟩ := Option.map_eq_some_iff.1 h
    obtain ⟨rfl, rfl⟩ := Prod.mk.inj he
    simp [ih hb]

theorem splitString_eq {s raw rest : List Char} (h : splitString s = some (raw, rest)) :
    s = raw ++ '"' :: rest := by
  fun_induction splitString s generalizing raw rest with
  | case1 => simp at h
  | case2 s =>
    obtain ⟨rfl, rfl⟩ := Prod.mk.inj (Option.some.inj h)
    simp
  | case3 c s ih =>
    obtain ⟨⟨b, r⟩, hb, he⟩ := Option.map_eq_some_iff.1 h
    obtain ⟨rfl, rfl⟩ := Prod.mk.inj he
    simp [ih hb]
  | case4 c s _ _ ih =>
    obtain ⟨⟨b, r⟩, hb, he⟩ := Option.map_eq_some_iff.1 h
    obtain ⟨rfl, rfl⟩ := Prod.mk.inj he
    simp [ih hb]

theorem splitFraction_append (s : List Char) : (splitFraction s).1 ++ (splitFraction s).2 = s := by
  fun_cases splitFraction s with
  | case1 d s h => simp [spanOf_append]
  | case2 d s h => simp
  | case3 s h => simp

theorem text_number (c : Char) (s : List Char) : (number c s).1.text ++ (number c s).2 = c :: s := by
  show (c :: (spanOf Char.isDigit s).1 ++ (splitFraction (spanOf Char.isDigit s).2).1) ++
    (splitFraction (spanOf Char.isDigit s).2).2 = c :: s
  rw [List.append_assoc, splitFraction_append, List.cons_append, spanOf_append]

theorem text_word (c : Char) (s : List Char) : (word c s).1.text ++ (word c s).2 = c :: s := by
  show (c :: (spanOf isNameChar s).1) ++ (spanOf isNameChar s).2 = c :: s
  rw [List.cons_append, spanOf_append]

theorem text_quoted (s : List Char) : (quoted s).1.text ++ (quoted s).2 = '"' :: s := by
  unfold quoted
  split
  · next raw rest h => simp [text, splitString_eq h]
  · simp [text]

theorem text_comment (s : List Char) : (comment s).1.text ++ (comment s).2 = '/' :: '*' :: s := by
  unfold comment
  split
  · next body rest h => simp [text, splitComment_eq h]
  · simp [text]

theorem text_operator (c : Char) (s : List Char) : (operator c s).1.text ++ (operator c s).2 = c :: s := by
  unfold operator
  cases s with
  | nil => cases Mark.ofChar? c <;> simp [text]
  | cons d rest =>
    cases h : Mark.ofPair? c d
    · cases Mark.ofChar? c <;> simp [text, h]
    · simp [text, h]

/-- A piece and what follows it are the text they were cut from. -/
theorem text_next (c : Char) (s : List Char) : (next c s).1.text ++ (next c s).2 = c :: s := by
  unfold next
  split
  · simp [text]
  split
  · next h => rw [text_quoted, h]
  split
  · exact text_number c s
  split
  · exact text_word c s
  split
  · simp [text, spanOf_append]
  · exact text_comment _
  · exact text_operator c s

theorem text_next_ne_nil (c : Char) (s : List Char) : (next c s).1.text ≠ [] := by
  unfold next
  split
  · simp [text]
  split
  · unfold quoted; split <;> simp [text]
  split
  · simp [number, text]
  split
  · simp [word, text]
  split
  · simp [text]
  · unfold comment; split <;> simp [text]
  · unfold operator
    cases s with
    | nil => cases Mark.ofChar? c <;> simp [text]
    | cons d rest =>
      cases h : Mark.ofPair? c d
      · cases Mark.ofChar? c <;> simp [text, h]
      · simp [text, h]

theorem length_next_le (c : Char) (s : List Char) : (next c s).2.length ≤ s.length := by
  have h := congrArg List.length (text_next c s)
  have hpos : 0 < (next c s).1.text.length := List.length_pos_iff.2 (text_next_ne_nil c s)
  simp only [List.length_append, List.length_cons] at h
  omega

/-- The pieces of a text make up the text. -/
theorem flatMap_text_cut {n : Nat} {s : List Char} (h : s.length ≤ n) : (cut n s).flatMap text = s := by
  induction n generalizing s with
  | zero =>
    have : s = [] := List.eq_nil_of_length_eq_zero (by omega)
    subst this
    rfl
  | succ n ih =>
    cases s with
    | nil => rfl
    | cons c s =>
      have hle := length_next_le c s
      have hn : (next c s).2.length ≤ n := by
        simp only [List.length_cons] at h
        omega
      show (next c s).1.text ++ (cut n (next c s).2).flatMap text = c :: s
      rw [ih hn, text_next]

theorem flatMap_text_ofSource (source : List Char) : (ofSource source).flatMap text = source :=
  flatMap_text_cut (Nat.le_refl _)

end Piece

end ScriptLang
