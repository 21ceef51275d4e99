import ScriptLang.Proofs.Scanning.Words

/-!
# Lexemes

* `Lexeme k kind w` — the text `w` is a lexeme of the class `k`; `kind` is that of its token, and none for white space
  and comments;
* `Piece.splitString_eq_some_iff`, `Piece.splitComment_eq_some_iff` — where a string and a block comment end.

The grammar says nothing of what surrounds a lexeme and of how it is found.  A block comment is read as opening and
closing delimiters and other characters, from left to right and without overlap, and its delimiters are balanced.
-/

namespace ScriptLang

/-! ## the grammar -/

/-- The classes of lexemes. -/
inductive LexicalClass
  | space
  | lineComment
  | blockComment
  | string
  | number
  | word
  | operator
deriving DecidableEq, Repr

/-- What stands between the quotes of a string: characters that are neither quotes nor backslashes, and backslashes,
each with the character behind it. -/
inductive StringBody : List Char → Prop
  | nil : StringBody []
  | plain {c : Char} {s : List Char} : c ≠ '"' → c ≠ '\\' → StringBody s → StringBody (c :: s)
  | escape (c : Char) {s : List Char} : StringBody s → StringBody ('\\' :: c :: s)

/-- What a block comment is made of. -/
inductive CommentSymbol
  | opening
  | closing
  | other (c : Char)

/-- The delimiters and other characters of a text, read from left to right without overlap. -/
def commentSymbols : List Char → List CommentSymbol
  | [] => []
  | '/' :: '*' :: s => .opening :: commentSymbols s
  | '*' :: '/' :: s => .closing :: commentSymbols s
  | c :: s => .other c :: commentSymbols s

/-- Every delimiter has its match. -/
inductive Balanced : List CommentSymbol → Prop
  | nil : Balanced []
  | other (c : Char) {rest : List CommentSymbol} : Balanced rest → Balanced (.other c :: rest)
  | nested {inner rest : List CommentSymbol} : Balanced inner → Balanced rest →
      Balanced (.opening :: (inner ++ .closing :: rest))

/-- Digits, at least one. -/
def Digits (w : List Char) : Prop := w ≠ [] ∧ ∀ c ∈ w, c.isDigit = true

/-- The lexemes of each class, with the kind of token that they make. -/
inductive Lexeme : LexicalClass → Option Kind → List Char → Prop
  | space {c : Char} : Piece.isSpace c = true → Lexeme .space none [c]
  | lineComment {body : List Char} : '\n' ∉ body → Lexeme .lineComment none ('/' :: '/' :: body)
  | blockComment {body : List CommentSymbol} {w : List Char} : Balanced body →
      commentSymbols w = .opening :: (body ++ [.closing]) → Lexeme .blockComment none w
  | string {raw : List Char} : StringBody raw →
      Lexeme .string (some (.string (String.ofList raw))) ('"' :: (raw ++ ['"']))
  | integer {whole : List Char} : Digits whole → Lexeme .number (some (.number (Number.ofDigits whole []))) whole
  | decimal {whole fraction : List Char} : Digits whole → Digits fraction →
      Lexeme .number (some (.number (Number.ofDigits whole fraction))) (whole ++ '.' :: fraction)
  | keyword (k : Keyword) : Lexeme .word (some (.keyword k)) k.text.toList
  | identifier {c : Char} {s : List Char} : Piece.isNameStart c = true → (∀ d ∈ s, Piece.isNameChar d = true) →
      (∀ k : Keyword, k.text.toList ≠ c :: s) → Lexeme .word (some .identifier) (c :: s)
  | operator (m : Mark) : Lexeme .operator (some (.mark m)) m.text.toList

/-! ## strings -/

namespace Piece

/-- A string ends at the first quote that belongs to no escape. -/
theorem splitString_eq_some_iff {s raw rest : List Char} :
    splitString s = some (raw, rest) ↔ StringBody raw ∧ s = raw ++ '"' :: rest := by
  constructor
  · intro h
    refine ⟨?_, splitString_eq h⟩
    fun_induction splitString s generalizing raw rest with
    | case1 => cases h
    | case2 s =>
      cases h
      exact .nil
    | case3 c s ih =>
      obtain ⟨⟨b, r⟩, hb, he⟩ := Option.map_eq_some_iff.1 h
      cases he
      exact .escape c (ih hb)
    | case4 c s hquote hescape ih =>
      obtain ⟨⟨b, r⟩, hb, he⟩ := Option.map_eq_some_iff.1 h
      cases he
      refine .plain hquote ?_ (ih hb)
      rintro rfl
      cases s with
      | nil => cases hb
      | cons d s => exact hescape d s rfl rfl
  · rintro ⟨hraw, rfl⟩
    induction hraw with
    | nil => rfl
    | @plain c s hquote hescape _ ih =>
      rw [List.cons_append, splitString.eq_4 c _ hquote (fun d s' hc => absurd hc hescape), ih]
      rfl
    | escape c _ ih => simp [splitString, ih]

end Piece

/-! ## block comments -/

/-- The delimiters close as many comments as are open, and the last of them with the last symbol. -/
def Closes : Nat → List CommentSymbol → Prop
  | _, [] => False
  | depth, .opening :: rest => Closes (depth + 1) rest
  | 0, .closing :: rest => rest = []
  | depth + 1, .closing :: rest => Closes depth rest
  | depth, .other _ :: rest => Closes depth rest

theorem Balanced.closes_append {body rest : List CommentSymbol} (h : Balanced body) (depth : Nat) :
    Closes depth (body ++ rest) ↔ Closes depth rest := by
  induction h generalizing depth rest with
  | nil => rfl
  | other c _ ih => exact ih depth
  | nested _ _ ih₁ ih₂ =>
    rw [List.cons_append, List.append_assoc, List.cons_append]
    show Closes (depth + 1) _ ↔ _
    rw [ih₁ (depth + 1)]
    exact ih₂ depth

/-- Balanced stretches, each with the delimiter that ends it: one more than comments are open around the first. -/
inductive Stretches : Nat → List CommentSymbol → Prop
  | last {body : List CommentSymbol} : Balanced body → Stretches 0 (body ++ [.closing])
  | more {depth : Nat} {body rest : List CommentSymbol} : Balanced body → Stretches depth rest →
      Stretches (depth + 1) (body ++ .closing :: rest)

theorem Stretches.other {depth : Nat} {rest : List CommentSymbol} (h : Stretches depth rest) (c : Char) :
    Stretches depth (.other c :: rest) := by
  cases h with
  | last hb => exact .last (.other c hb)
  | more hb hr => exact .more (.other c hb) hr

/-- A comment that is opened and closed again belongs to the stretch around it. -/
theorem Stretches.opening {depth : Nat} {rest : List CommentSymbol} (h : Stretches (depth + 1) rest) :
    Stretches depth (.opening :: rest) := by
  cases h with
  | @more _ inner _ hi hr =>
    cases hr with
    | @last body hb =>
      have h := Stretches.last (.nested hi hb)
      simpa using h
    | @more depth body rest hb hr =>
      have h := Stretches.more (.nested hi hb) hr
      simpa using h

theorem Closes.stretches {depth : Nat} {symbols : List CommentSymbol} (h : Closes depth symbols) :
    Stretches depth symbols := by
  induction symbols generalizing depth with
  | nil => cases depth <;> cases h
  | cons symbol rest ih =>
    cases symbol with
    | other c =>
      have hrest : Closes depth rest := by cases depth <;> exact h
      exact (ih hrest).other c
    | opening =>
      have hrest : Closes (depth + 1) rest := by cases depth <;> exact h
      exact (ih hrest).opening
    | closing =>
      cases depth with
      | zero =>
        obtain rfl : rest = [] := h
        exact .last .nil
      | succ depth => exact .more .nil (ih h)

/-- The symbols of a comment behind its opening delimiter. -/
theorem closes_zero_iff {symbols : List CommentSymbol} :
    Closes 0 symbols ↔ ∃ body, Balanced body ∧ symbols = body ++ [.closing] := by
  constructor
  · intro h
    cases h.stretches with
    | last hb => exact ⟨_, hb, rfl⟩
  · rintro ⟨body, hb, rfl⟩
    exact (hb.closes_append 0).2 rfl

namespace Piece

theorem closes_of_splitComment {depth : Nat} {s body rest : List Char}
    (h : splitComment depth s = some (body, rest)) : Closes depth (commentSymbols body) := by
  fun_induction splitComment depth s generalizing body rest with
  | case1 => cases h
  | case2 depth s ih =>
    obtain ⟨⟨b, r⟩, hb, he⟩ := Option.map_eq_some_iff.1 h
    cases he
    cases depth <;> exact ih hb
  | case3 s =>
    cases h
    exact rfl
  | case4 depth s ih =>
    obtain ⟨⟨b, r⟩, hb, he⟩ := Option.map_eq_some_iff.1 h
    cases he
    exact ih hb
  | case5 depth c s hopen hclose ih =>
    obtain ⟨⟨b, r⟩, hb, he⟩ := Option.map_eq_some_iff.1 h
    cases he
    obtain rfl := splitComment_eq hb
    -- the character starts no delimiter in the text, so it starts none in the comment
    have hsymbols : commentSymbols (c :: b) = .other c :: commentSymbols b := by
      refine commentSymbols.eq_4 c b ?_ ?_
      · rintro s rfl rfl
        exact hopen _ rfl rfl
      · rintro s rfl rfl
        exact hclose _ rfl rfl
    rw [hsymbols]
    cases depth <;> exact ih hb

theorem splitComment_of_closes {depth : Nat} {w : List Char} (h : Closes depth (commentSymbols w))
    (rest : List Char) : splitComment depth (w ++ rest) = some (w, rest) := by
  fun_induction commentSymbols w generalizing depth with
  | case1 => cases depth <;> cases h
  | case2 s ih =>
    have hs : Closes (depth + 1) (commentSymbols s) := by cases depth <;> exact h
    simp [splitComment, ih hs]
  | case3 s ih =>
    cases depth with
    | zero =>
      have hs : s = [] := by
        have hnil : commentSymbols s = [] := h
        fun_cases commentSymbols s <;> simp_all [commentSymbols]
      simp [splitComment, hs]
    | succ depth => simp [splitComment, ih h]
  | case4 c s hopen hclose ih =>
    have hs : Closes depth (commentSymbols s) := by cases depth <;> exact h
    cases s with
    | nil => cases depth <;> cases hs
    | cons d s =>
      rw [List.cons_append, splitComment.eq_5, ih hs]
      · rfl
      · rintro s' rfl hd
        obtain ⟨rfl, -⟩ := List.cons.inj hd
        exact hopen _ rfl rfl
      · rintro s' rfl hd
        obtain ⟨rfl, -⟩ := List.cons.inj hd
        exact hclose _ rfl rfl

/-- A block comment ends with the delimiter that matches its first one. -/
theorem splitComment_eq_some_iff {s body rest : List Char} :
    splitComment 0 s = some (body, rest) ↔
      Lexeme .blockComment none ('/' :: '*' :: body) ∧ s = body ++ rest := by
  constructor
  · intro h
    obtain ⟨symbols, hb, hs⟩ := closes_zero_iff.1 (closes_of_splitComment h)
    exact ⟨.blockComment hb (by rw [commentSymbols, hs]), splitComment_eq h⟩
  · rintro ⟨hw, rfl⟩
    cases hw with
    | blockComment hb hs =>
      rw [commentSymbols, List.cons.injEq] at hs
      exact splitComment_of_closes (closes_zero_iff.2 ⟨_, hb, hs.2⟩) rest

end Piece

end ScriptLang
