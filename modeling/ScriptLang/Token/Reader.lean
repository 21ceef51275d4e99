import ScriptLang.Token.Scan

/-!
# Reading a source byte by byte

A reader gives the items of a source one after the other.  It stands before a byte of the source, looks at one or two
bytes to choose what to read, and sees a zero behind the last one; it counts lines as it passes over their ends.
Texts are cut out of the source between two offsets, and that fails at an offset inside a character.
-/

namespace ScriptLang

/-- The text of a source between two offsets, if both are boundaries of characters. -/
def slice? (source : String) (start stop : Nat) : Option String :=
  match source.pos? ⟨start⟩, source.pos? ⟨stop⟩ with
  | some b, some e => if start ≤ stop then some (source.extract b e) else none
  | _, _ => none

/-- The value of a number as it is written. -/
def Number.ofText (s : List Char) : Float :=
  ofDigits (s.takeWhile Char.isDigit) (s.dropWhile Char.isDigit).tail

/-- The keyword that is spelled with some bytes. -/
def Keyword.ofBytes? (bytes : List UInt8) : Option Keyword := all.find? (·.text.toUTF8.data.toList = bytes)

/-! ## bytes -/

namespace Byte

@[match_pattern] abbrev newline : UInt8 := 10
@[match_pattern] abbrev quote : UInt8 := 34
@[match_pattern] abbrev star : UInt8 := 42
@[match_pattern] abbrev point : UInt8 := 46
@[match_pattern] abbrev slash : UInt8 := 47
@[match_pattern] abbrev backslash : UInt8 := 92

/-- Whether a byte, taken as the character with its number, passes a test. -/
def passes (p : Char → Bool) (b : UInt8) : Bool := p (Char.ofUInt8 b)

/-- The line behind a byte. -/
def lineAfter (b : UInt8) (line : Nat) : Nat := if b = newline then line + 1 else line

/-- The mark that is a byte, and the marks that extend it, each with its second byte. -/
def marks? (b : UInt8) : Option (Mark × List (UInt8 × Mark)) :=
  match Char.ofUInt8 b with
  | '(' => some (.leftParen, [])
  | ')' => some (.rightParen, [])
  | '\x7b' => some (.leftBrace, [])
  | '\x7d' => some (.rightBrace, [])
  | ',' => some (.comma, [])
  | '.' => some (.dot, [])
  | ';' => some (.semicolon, [])
  | '-' => some (.minus, [('='.toUInt8, .minusEqual), ('-'.toUInt8, .minusMinus)])
  | '+' => some (.plus, [('='.toUInt8, .plusEqual), ('+'.toUInt8, .plusPlus)])
  | '*' => some (.star, [('='.toUInt8, .starEqual)])
  | '!' => some (.bang, [('='.toUInt8, .bangEqual)])
  | '=' => some (.equal, [('='.toUInt8, .equalEqual)])
  | '<' => some (.less, [('='.toUInt8, .lessEqual)])
  | '>' => some (.greater, [('='.toUInt8, .greaterEqual)])
  | '/' => some (.slash, [('='.toUInt8, .slashEqual)])
  | _ => none

end Byte

/-! ## moving over bytes -/

/-- A spot in a source: its offset, its line, and the bytes from there on. -/
structure Spot where
  offset : Nat
  line : Nat
  left : List UInt8

namespace Spot

/-- The next byte, or zero at the end. -/
def peek (c : Spot) : UInt8 := c.left.headD 0

/-- The byte behind the next one, or zero. -/
def peekNext (c : Spot) : UInt8 := c.left.tail.headD 0

/-- The spot some bytes further on, on the same line. -/
def skip (n : Nat) (c : Spot) : Spot := ⟨c.offset + n, c.line, c.left.drop n⟩

/-- The spot behind all bytes that pass a test which zero does not pass. -/
def skipWhile (p : UInt8 → Bool) (c : Spot) : Spot := c.skip (c.left.takeWhile p).length

/-- The spot behind a byte, if it comes next. -/
def accept? (b : UInt8) (c : Spot) : Option Spot := if c.left.head? = some b then some (c.skip 1) else none

/-- The spot of the quote that ends a string, or the end.  A backslash takes the next byte with it. -/
def stringEnd (offset line : Nat) : List UInt8 → Spot
  | [] => ⟨offset, line, []⟩
  | Byte.quote :: left => ⟨offset, line, Byte.quote :: left⟩
  | Byte.backslash :: b :: left => stringEnd (offset + 2) (Byte.lineAfter b line) left
  | b :: left => stringEnd (offset + 1) (Byte.lineAfter b line) left

/-- The spot behind a block comment with `depth` further comments open around it, or the end; and whether the comment
was closed. -/
def commentEnd (depth offset line : Nat) : List UInt8 → Bool × Spot
  | [] => (false, ⟨offset, line, []⟩)
  | Byte.slash :: Byte.star :: left => commentEnd (depth + 1) (offset + 2) line left
  | Byte.star :: Byte.slash :: left =>
    match depth with
    | 0 => (true, ⟨offset + 2, line, left⟩)
    | depth + 1 => commentEnd depth (offset + 2) line left
  | b :: left => commentEnd depth (offset + 1) (Byte.lineAfter b line) left

/-! ## one stretch of the source -/

/-- What a stretch of the source is. -/
inductive Finding
  | skipped
  | token (kind : Kind)
  | fault (cause : LexicalFault)

/-- The longest of a mark and its extensions. -/
def mark (m : Mark) (after : Spot) : List (UInt8 × Mark) → Finding × Spot
  | [] => (.token (.mark m), after)
  | (b, longer) :: rest =>
    match after.accept? b with
    | some next => (.token (.mark longer), next)
    | none => mark m after rest

/-- A block comment, behind its opening delimiter. -/
def comment (after : Spot) : Finding × Spot :=
  match commentEnd 0 after.offset after.line after.left with
  | (true, stop) => (.skipped, stop)
  | (false, stop) => (.fault .unterminatedComment, stop)

/-- A string, behind its opening quote. -/
def string (source : String) (after : Spot) : Option (Finding × Spot) :=
  let close := stringEnd after.offset after.line after.left
  match close.left with
  | [] => some (.fault .unterminatedString, close)
  | _ :: _ => (slice? source after.offset close.offset).map fun raw => (.token (.string raw), close.skip 1)

/-- A number, behind its first digit. -/
def number (source : String) (start : Nat) (after : Spot) : Option (Finding × Spot) :=
  let whole := after.skipWhile (Byte.passes Char.isDigit)
  let stop := if whole.peek = Byte.point && Byte.passes Char.isDigit whole.peekNext
    then (whole.skip 1).skipWhile (Byte.passes Char.isDigit) else whole
  (slice? source start stop.offset).map fun text => (.token (.number (Number.ofText text.toList)), stop)

/-- An identifier or a keyword, behind its first letter. -/
def word (first : UInt8) (after : Spot) : Finding × Spot :=
  let kind := match Keyword.ofBytes? (first :: after.left.takeWhile (Byte.passes Piece.isNameChar)) with
    | some k => Kind.keyword k
    | none => .identifier
  (.token kind, after.skipWhile (Byte.passes Piece.isNameChar))

/-- A character that starts nothing, with all its bytes. -/
def unexpected (source : String) (start : Spot) : Option (Finding × Spot) :=
  ((⟨start.offset⟩ : String.Pos.Raw).get? source).map fun c => (.fault (.unexpected c), start.skip c.utf8Size)

/-- The stretch of a source that starts with a byte at a spot, and the spot behind it. -/
def stretch (source : String) (b : UInt8) (start : Spot) : Option (Finding × Spot) :=
  let after := start.skip 1
  if b = Byte.newline then some (.skipped, { after with line := after.line + 1 })
  else if Byte.passes Piece.isSpace b then some (.skipped, after)
  else if b = Byte.quote then string source after
  else if Byte.passes Char.isDigit b then number source start.offset after
  else if Byte.passes Piece.isNameStart b then some (word b after)
  else if b = Byte.slash && after.peek = Byte.slash then
    some (.skipped, (after.skip 1).skipWhile (· != Byte.newline))
  else if b = Byte.slash && after.peek = Byte.star then some (comment (after.skip 1))
  else
    match Byte.marks? b with
    | some (m, longer) => some (mark m after longer)
    | none => unexpected source start

/-! ## nothing is read twice -/

section

variable {source : String} {b : UInt8} {c after : Spot} {r : Finding × Spot}

theorem length_skip_le (n : Nat) (c : Spot) : (c.skip n).left.length ≤ c.left.length := by
  simp [skip]

theorem length_stringEnd_le (offset line : Nat) (left : List UInt8) :
    (stringEnd offset line left).left.length ≤ left.length := by
  fun_induction stringEnd offset line left <;> simp <;> omega

theorem length_commentEnd_le (depth offset line : Nat) (left : List UInt8) :
    (commentEnd depth offset line left).2.left.length ≤ left.length := by
  fun_induction commentEnd depth offset line left <;> simp <;> omega

theorem length_mark_le (m : Mark) (after : Spot) (longer : List (UInt8 × Mark)) :
    (mark m after longer).2.left.length ≤ after.left.length := by
  induction longer with
  | nil => exact Nat.le_refl _
  | cons p rest ih =>
    unfold mark accept?
    split
    · next next h =>
      split at h
      · cases h
        exact length_skip_le 1 after
      · cases h
    · exact ih

theorem length_string_le (h : string source after = some r) : r.2.left.length ≤ after.left.length := by
  have hle := length_stringEnd_le after.offset after.line after.left
  dsimp only [string] at h
  split at h
  · cases h
    exact hle
  · obtain ⟨raw, -, rfl⟩ := Option.map_eq_some_iff.1 h
    exact Nat.le_trans (length_skip_le _ _) hle

theorem length_number_le {start : Nat} (h : number source start after = some r) :
    r.2.left.length ≤ after.left.length := by
  obtain ⟨text, -, rfl⟩ := Option.map_eq_some_iff.1 h
  have hwhole := length_skip_le (after.left.takeWhile (Byte.passes Char.isDigit)).length after
  show (ite _ _ _ : Spot).left.length ≤ _
  split
  · refine Nat.le_trans ?_ hwhole
    exact Nat.le_trans (length_skip_le _ _) (length_skip_le _ _)
  · exact hwhole

theorem length_unexpected_lt (hc : c.left ≠ []) (h : unexpected source c = some r) :
    r.2.left.length < c.left.length := by
  obtain ⟨d, -, rfl⟩ := Option.map_eq_some_iff.1 h
  have hpos := List.length_pos_iff.2 hc
  have hd := d.utf8Size_pos
  simp only [skip, List.length_drop]
  omega

/-- A stretch has at least one byte. -/
theorem length_stretch_lt (hc : c.left ≠ []) (h : stretch source b c = some r) :
    r.2.left.length < c.left.length := by
  have hpos := List.length_pos_iff.2 hc
  have hafter : (c.skip 1).left.length < c.left.length := by
    simp only [skip, List.length_drop]
    omega
  dsimp only [stretch] at h
  split at h
  · cases h
    exact hafter
  split at h
  · cases h
    exact hafter
  split at h
  · exact Nat.lt_of_le_of_lt (length_string_le h) hafter
  split at h
  · exact Nat.lt_of_le_of_lt (length_number_le h) hafter
  split at h
  · cases h
    exact Nat.lt_of_le_of_lt (length_skip_le _ _) hafter
  split at h
  · cases h
    exact Nat.lt_of_le_of_lt (Nat.le_trans (length_skip_le _ _) (length_skip_le _ _)) hafter
  split at h
  · cases h
    refine Nat.lt_of_le_of_lt ?_ hafter
    have hle := length_commentEnd_le 0 ((c.skip 1).skip 1).offset ((c.skip 1).skip 1).line ((c.skip 1).skip 1).left
    unfold comment
    split <;> next hend => simpa [hend] using Nat.le_trans hle (length_skip_le 1 (c.skip 1))
  split at h
  · cases h
    exact Nat.lt_of_le_of_lt (length_mark_le _ _ _) hafter
  · exact length_unexpected_lt hc h

end

end Spot

/-! ## the reader -/

/-- A reader of a source: where the last stretch started, and what is still to be read. -/
structure Reader where
  source : String
  start : Nat
  spot : Spot
  /-- Whether the end of the source was given as an item. -/
  ended : Bool

namespace Reader

/-- What comes of asking a reader for an item. -/
inductive Next
  | item (i : Item) (r : Reader)
  | ended
  /-- A text would have to be cut out inside a character. -/
  | broken

/-- A reader at the start of a source. -/
def ofSource (source : String) : Reader := ⟨source, 0, ⟨0, 1, source.toUTF8.data.toList⟩, false⟩

/-- The reader behind a stretch that starts where it stands. -/
def moveTo (r : Reader) (c : Spot) : Reader := { r with start := r.spot.offset, spot := c }

/-- The next item. -/
def next (r : Reader) : Next :=
  if r.ended then .ended
  else
    match _hleft : r.spot.left with
    | [] => .item (.token (Token.endOfFile r.spot.line)) { r with ended := true }
    | b :: _ =>
      match _hstretch : Spot.stretch r.source b r.spot with
      | none => .broken
      | some (.skipped, c) => next (r.moveTo c)
      | some (.fault cause, c) => .item (.fault c.line cause) (r.moveTo c)
      | some (.token kind, c) =>
        match slice? r.source r.spot.offset c.offset with
        | none => .broken
        | some lexeme => .item (.token ⟨kind, lexeme, c.line⟩) (r.moveTo c)
termination_by r.spot.left.length
decreasing_by exact Spot.length_stretch_lt (by simp [_hleft]) _hstretch

/-- How much a reader can still give. -/
def remaining (r : Reader) : Nat := if r.ended then 0 else r.spot.left.length + 1

theorem remaining_lt {r r' : Reader} {i : Item} (h : r.next = .item i r') : r'.remaining < r.remaining := by
  fun_induction next r with
  | case1 r hended => cases h
  | case2 r hended hleft =>
    cases h
    simp [remaining, hended]
  | case3 r hended b left hleft hstretch => cases h
  | case4 r hended b left hleft c hstretch ih =>
    have hlt := Spot.length_stretch_lt (by simp [hleft]) hstretch
    refine Nat.lt_trans (ih h) ?_
    simp_all [remaining, moveTo]
  | case5 r hended b left hleft cause c hstretch =>
    have hlt := Spot.length_stretch_lt (by simp [hleft]) hstretch
    cases h
    simp_all [remaining, moveTo]
  | case6 r hended b left hleft kind c hstretch hslice => cases h
  | case7 r hended b left hleft kind c hstretch lexeme hslice =>
    have hlt := Spot.length_stretch_lt (by simp [hleft]) hstretch
    cases h
    simp_all [remaining, moveTo]

/-- The items that a reader still gives, and whether it comes to the end of the source. -/
def items (r : Reader) : List Item × Bool :=
  match _h : r.next with
  | .ended => ([], true)
  | .broken => ([], false)
  | .item i r' =>
    let rest := r'.items
    (i :: rest.1, rest.2)
termination_by r.remaining
decreasing_by all_goals exact remaining_lt _h

end Reader

end ScriptLang
