import ScriptLang.Proofs.Scanning.Lexemes
import ScriptLang.Proofs.Scanning.Seam

/-!
# The longest lexeme

* `Candidate s k kind w` — at the start of `s` stands a lexeme `w`, of the class that `s` is committed to if it is
  committed to one;
* `Foremost s p` — the first piece of `s` by the lexical grammar alone: the longest candidate, or a fault if there is
  none;
* `Tokenizes line s items` — the items of a text that starts on a line, cut from it by `Foremost`;
* `tokenizes_ofSource_iff` — the items of a source are those that the grammar gives.
-/

namespace ScriptLang

/-! ## what the first character of a lexeme says -/

namespace LexicalClass

/-- Whether a lexeme of the class may begin with a character. -/
def opens : LexicalClass → Char → Bool
  | space, c => Piece.isSpace c
  | string, c => c = '"'
  | number, c => c.isDigit
  | word, c => Piece.isNameStart c
  | lineComment, c | blockComment, c => c = '/'
  | operator, c => !Piece.isSpace c && c ≠ '"' && !c.isDigit && !Piece.isNameStart c

end LexicalClass

theorem Mark.exists_text (m : Mark) : ∃ c s, m.text.toList = c :: s ∧ LexicalClass.operator.opens c = true := by
  cases m <;> exact ⟨_, _, rfl, by decide⟩

theorem Keyword.exists_text (k : Keyword) :
    ∃ c s, k.text.toList = c :: s ∧ Piece.isNameStart c = true ∧ ∀ d ∈ s, Piece.isNameChar d = true := by
  cases k <;> exact ⟨_, _, rfl, by decide, List.all_eq_true.1 (by decide)⟩

theorem exists_of_commentSymbols {w : List Char} {rest : List CommentSymbol}
    (h : commentSymbols w = .opening :: rest) : ∃ s, w = '/' :: '*' :: s := by
  fun_cases commentSymbols w with
  | case1 => simp [commentSymbols] at h
  | case2 s => exact ⟨s, rfl⟩
  | case3 s => simp [commentSymbols] at h
  | case4 c s hopen hclose => simp [commentSymbols.eq_4 c s hopen hclose] at h

/-- A lexeme begins with a character that opens its class. -/
theorem Lexeme.exists_opens {k : LexicalClass} {kind : Option Kind} {w : List Char} (h : Lexeme k kind w) :
    ∃ c s, w = c :: s ∧ k.opens c = true := by
  cases h with
  | space hc => exact ⟨_, _, rfl, hc⟩
  | lineComment _ => exact ⟨_, _, rfl, rfl⟩
  | blockComment _ hs =>
    obtain ⟨s, rfl⟩ := exists_of_commentSymbols hs
    exact ⟨_, _, rfl, rfl⟩
  | string _ => exact ⟨_, _, rfl, rfl⟩
  | integer hd =>
    obtain ⟨c, s, rfl⟩ := List.exists_cons_of_ne_nil hd.1
    exact ⟨c, s, rfl, hd.2 c (by simp)⟩
  | decimal hd _ =>
    obtain ⟨c, s, rfl⟩ := List.exists_cons_of_ne_nil hd.1
    exact ⟨c, _, rfl, hd.2 c (by simp)⟩
  | keyword k =>
    obtain ⟨c, s, hk, hc, -⟩ := k.exists_text
    exact ⟨c, s, hk, hc⟩
  | identifier hc _ _ => exact ⟨_, _, rfl, hc⟩
  | operator m => exact m.exists_text

section Opening

variable {k : LexicalClass} {c : Char}

theorem not_isNameStart_of_isDigit (h : c.isDigit = true) : Piece.isNameStart c = false := by
  simp only [Char.isDigit, Bool.and_eq_true, decide_eq_true_eq, ge_iff_le, UInt32.le_iff_toNat_le] at h
  have hne : c ≠ '_' := by
    rintro rfl
    revert h
    decide
  unfold Piece.isNameStart Char.isAlpha Char.isUpper Char.isLower
  simp only [Bool.or_eq_false_iff, decide_eq_false_iff_not, hne, not_false_eq_true, and_true, Bool.and_eq_false_iff,
    ge_iff_le, UInt32.le_iff_toNat_le]
  simp at h ⊢
  omega

theorem eq_space_of_opens (hc : Piece.isSpace c = true) (h : k.opens c = true) : k = .space := by
  have hcases : c = ' ' ∨ c = '\r' ∨ c = '\t' ∨ c = '\n' := by simpa [Piece.isSpace, or_assoc] using hc
  rcases hcases with rfl | rfl | rfl | rfl <;> revert h <;> cases k <;> decide

theorem eq_string_of_opens (h : k.opens '"' = true) : k = .string := by
  revert h
  cases k <;> decide

theorem eq_number_of_opens (hc : c.isDigit = true) (h : k.opens c = true) : k = .number := by
  have hname := not_isNameStart_of_isDigit hc
  cases k with
  | number => rfl
  | space => cases eq_space_of_opens h (k := .number) hc
  | string =>
    obtain rfl : c = '"' := by simpa [LexicalClass.opens] using h
    cases hc
  | word => simp [LexicalClass.opens, hname] at h
  | operator => simp [LexicalClass.opens, hc] at h
  | lineComment | blockComment =>
    obtain rfl : c = '/' := by simpa [LexicalClass.opens] using h
    cases hc

theorem eq_word_of_opens (hc : Piece.isNameStart c = true) (h : k.opens c = true) : k = .word := by
  cases k with
  | word => rfl
  | space => cases eq_space_of_opens h (k := .word) hc
  | number => rw [not_isNameStart_of_isDigit h] at hc; cases hc
  | string =>
    obtain rfl : c = '"' := by simpa [LexicalClass.opens] using h
    revert hc
    decide
  | operator => simp [LexicalClass.opens, hc] at h
  | lineComment | blockComment =>
    obtain rfl : c = '/' := by simpa [LexicalClass.opens] using h
    revert hc
    decide

/-- Only a slash opens more than one class. -/
theorem opens_unique {k' : LexicalClass} (h : k.opens c = true) (h' : k'.opens c = true) : k = k' ∨ c = '/' := by
  cases k with
  | space => exact .inl (eq_space_of_opens h h').symm
  | string =>
    obtain rfl : c = '"' := by simpa [LexicalClass.opens] using h
    exact .inl (eq_string_of_opens h').symm
  | number => exact .inl (eq_number_of_opens h h').symm
  | word => exact .inl (eq_word_of_opens h h').symm
  | lineComment | blockComment => exact .inr (by simpa [LexicalClass.opens] using h)
  | operator =>
    cases k' with
    | operator => exact .inl rfl
    | space => exact .inl (eq_space_of_opens h' h)
    | string =>
      obtain rfl : c = '"' := by simpa [LexicalClass.opens] using h'
      exact .inl (eq_string_of_opens h)
    | number => exact .inl (eq_number_of_opens h' h)
    | word => exact .inl (eq_word_of_opens h' h)
    | lineComment | blockComment => exact .inr (by simpa [LexicalClass.opens] using h')

end Opening

/-! ## the kind of a lexeme -/

section Kinds

variable {p : Char → Bool} {w s t : List Char} {c : Char}

theorem takeWhile_append_stop (hw : ∀ d ∈ w, p d = true) (hc : p c = false) (t : List Char) :
    (w ++ c :: t).takeWhile p = w ∧ (w ++ c :: t).dropWhile p = c :: t := by
  rw [List.takeWhile_append_of_pos hw, List.dropWhile_append_of_pos hw]
  simp [hc]

theorem length_le_takeWhile (h : w <+: s) (hw : ∀ d ∈ w, p d = true) : w.length ≤ (s.takeWhile p).length := by
  obtain ⟨t, rfl⟩ := h
  rw [List.takeWhile_append_of_pos hw, List.length_append]
  exact Nat.le_add_right _ _

theorem head?_of_begins (h : w <+: s) (hc : w.head? = some c) : s.head? = some c := by
  obtain ⟨t, rfl⟩ := h
  rw [List.head?_append, hc, Option.some_or]

theorem of_mem_takeWhile {α : Type} {p : α → Bool} {s : List α} {a : α} (h : a ∈ s.takeWhile p) : p a = true :=
  List.all_eq_true.1 List.all_takeWhile a h

end Kinds

theorem Keyword.ofText?_text (k : Keyword) : Keyword.ofText? k.text.toList = some k := by
  cases k <;> decide

theorem Mark.text_inj {m m' : Mark} (h : m.text.toList = m'.text.toList) : m = m' := by
  revert h
  cases m <;> cases m' <;> decide

theorem Mark.length_text_le (m : Mark) : m.text.toList.length ≤ 2 := by
  cases m <;> decide

theorem Mark.text_of_find? {w : List Char} {m : Mark} (h : all.find? (·.text.toList = w) = some m) :
    m.text.toList = w := by
  simpa using List.find?_some h

theorem Mark.find?_eq_none {w : List Char} (h : all.find? (·.text.toList = w) = none) (m : Mark) :
    m.text.toList ≠ w := by
  simpa using List.find?_eq_none.1 h m (mem_all m)

/-- The class of a lexeme that begins with a slash. -/
theorem Lexeme.class_of_slash {k : LexicalClass} {kind : Option Kind} {w : List Char} (h : Lexeme k kind ('/' :: w)) :
    (k = .lineComment ∧ w.head? = some '/') ∨ (k = .blockComment ∧ w.head? = some '*') ∨
      (k = .operator ∧ w.head? ≠ some '/' ∧ w.head? ≠ some '*') := by
  obtain ⟨c, s, hw, hc⟩ := h.exists_opens
  obtain ⟨rfl, rfl⟩ := List.cons.inj hw
  cases k with
  | lineComment =>
    cases h with
    | lineComment _ => exact .inl ⟨rfl, rfl⟩
  | blockComment =>
    cases h with
    | blockComment _ hs =>
      obtain ⟨s, hw⟩ := exists_of_commentSymbols hs
      cases hw
      exact .inr (.inl ⟨rfl, rfl⟩)
  | operator =>
    refine .inr (.inr ⟨rfl, ?_⟩)
    generalize hv : '/' :: w = v at h
    cases h with
    | operator m =>
      cases m <;> simp [Mark.text] at hv <;> simp [hv]
  | space | string | number | word => exact absurd hc (by decide)

theorem Lexeme.class_unique {k k' : LexicalClass} {kind kind' : Option Kind} {w : List Char} (h : Lexeme k kind w)
    (h' : Lexeme k' kind' w) : k = k' := by
  obtain ⟨c, s, rfl, hc⟩ := h.exists_opens
  obtain ⟨c', s', hw, hc'⟩ := h'.exists_opens
  obtain ⟨rfl, rfl⟩ := List.cons.inj hw
  rcases opens_unique hc hc' with hk | rfl
  · exact hk
  · have h₁ := h.class_of_slash
    have h₂ := h'.class_of_slash
    grind

/-- The kind of a lexeme depends on its text only. -/
theorem Lexeme.kind_unique {k k' : LexicalClass} {kind kind' : Option Kind} {w : List Char} (h : Lexeme k kind w)
    (h' : Lexeme k' kind' w) : kind = kind' := by
  obtain rfl := h.class_unique h'
  generalize hv : w = v at h'
  cases h with
  | space _ =>
    cases h'
    rfl
  | lineComment _ =>
    cases h'
    rfl
  | blockComment _ _ =>
    cases h'
    rfl
  | string _ =>
    cases h' with
    | string _ => simp at hv; rw [hv]
  | integer hd =>
    cases h' with
    | integer hd' => rw [hv]
    | decimal hd' hf' =>
      have hdot := hd.2 '.' (by rw [hv]; simp)
      cases hdot
  | decimal hd hf =>
    cases h' with
    | integer hd' =>
      have hdot := hd'.2 '.' (by rw [← hv]; simp)
      cases hdot
    | decimal hd' hf' =>
      obtain ⟨h₁, h₂⟩ := takeWhile_append_stop hd.2 (c := '.') rfl _
      obtain ⟨h₁', h₂'⟩ := takeWhile_append_stop hd'.2 (c := '.') rfl _
      rw [hv, h₁'] at h₁
      rw [hv, h₂', List.cons.injEq] at h₂
      rw [h₁, h₂.2]
  | keyword k =>
    have hk := k.ofText?_text
    rw [hv] at hk
    cases h' with
    | keyword k' => rw [Keyword.ofText?_text] at hk; rw [Option.some.inj hk]
    | identifier _ _ hne => exact absurd hv (hne k)
  | identifier _ _ hne =>
    cases h' with
    | keyword k' => exact absurd hv.symm (hne k')
    | identifier _ _ _ => rfl
  | operator m =>
    cases h' with
    | operator m' => rw [Mark.text_inj hv]

/-! ## the reference -/

/-- The class that a text is committed to by how it begins. -/
def committed? : List Char → Option LexicalClass
  | '"' :: _ => some .string
  | '/' :: '*' :: _ => some .blockComment
  | _ => none

/-- A lexeme at the start of a text, of the class that the text is committed to if there is one. -/
structure Candidate (s : List Char) (k : LexicalClass) (kind : Option Kind) (w : List Char) : Prop where
  lexeme : Lexeme k kind w
  begins : w <+: s
  committed : ∀ k', committed? s = some k' → k = k'

/-- What a lexeme is in a source. -/
def Piece.ofLexeme (kind : Option Kind) (w : List Char) : Piece :=
  match kind with
  | some kind => .token kind w
  | none => .blank w

/-- The fault at a text that no lexeme begins: behind an opening delimiter all that is left of the text, otherwise one
character. -/
def faultAt (c : Char) (s : List Char) : Piece :=
  match committed? (c :: s) with
  | some .string => .fault .unterminatedString (c :: s)
  | some _ => .fault .unterminatedComment (c :: s)
  | none => .fault (.unexpected c) [c]

/-- The first piece of a text by the grammar: the longest candidate, or a fault where there is none. -/
inductive Foremost : List Char → Piece → Prop
  | longest {s w : List Char} {k : LexicalClass} {kind : Option Kind} : Candidate s k kind w →
      (∀ k' kind' w', Candidate s k' kind' w' → w'.length ≤ w.length) → Foremost s (.ofLexeme kind w)
  | stuck {c : Char} {s : List Char} : (∀ k kind w, ¬ Candidate (c :: s) k kind w) → Foremost (c :: s) (faultAt c s)

/-- The grammar leaves no choice. -/
theorem Foremost.unique {s : List Char} {p p' : Piece} (h : Foremost s p) (h' : Foremost s p') : p = p' := by
  cases h with
  | longest hw hmax =>
    cases h' with
    | longest hw' hmax' =>
      have hlen := Nat.le_antisymm (hmax _ _ _ hw') (hmax' _ _ _ hw)
      have hle := List.prefix_of_prefix_length_le hw'.begins hw.begins (Nat.le_of_eq hlen)
      obtain rfl := hle.eq_of_length hlen
      rw [hw.lexeme.kind_unique hw'.lexeme]
    | stuck hnone => exact absurd hw (hnone _ _ _)
  | stuck hnone =>
    cases h' with
    | longest hw' _ => exact absurd hw' (hnone _ _ _)
    | stuck _ => rfl

/-- What makes a token is a lexeme of its kind. -/
theorem Foremost.lexeme {s w : List Char} {kind : Kind} (h : Foremost s (.token kind w)) :
    ∃ k, Lexeme k (some kind) w := by
  generalize hp : Piece.token kind w = p at h
  cases h with
  | @longest _ w' k kind' hw _ =>
    cases kind' with
    | none => cases hp
    | some kind' =>
      cases hp
      exact ⟨k, hw.lexeme⟩
  | stuck _ =>
    unfold faultAt at hp
    split at hp <;> cases hp

/-! ## each class -/

namespace Piece

variable {c : Char} {s rest : List Char}

/-- At a character that opens one class only, lexemes of other classes are no candidates. -/
theorem class_of_candidate {k : LexicalClass} {kind : Option Kind} {w : List Char} (h : Candidate (c :: s) k kind w) :
    k.opens c = true := by
  obtain ⟨d, v, rfl, hd⟩ := h.lexeme.exists_opens
  obtain ⟨rfl, -⟩ := List.cons_prefix_cons.1 h.begins
  exact hd

theorem exists_of_candidate {k : LexicalClass} {kind : Option Kind} {w : List Char} (h : Candidate (c :: s) k kind w) :
    ∃ v, w = c :: v ∧ v <+: s := by
  obtain ⟨d, v, rfl, -⟩ := h.lexeme.exists_opens
  obtain ⟨rfl, hv⟩ := List.cons_prefix_cons.1 h.begins
  exact ⟨v, rfl, hv⟩

theorem committed?_eq_none (hquote : c ≠ '"') (hcomment : c = '/' → s.head? ≠ some '*') :
    committed? (c :: s) = none := by
  unfold committed?
  split
  · next hs => exact absurd (List.cons.inj hs).1 hquote
  · next rest hs =>
    obtain ⟨hc, rfl⟩ := List.cons.inj hs
    exact absurd rfl (hcomment hc)
  · rfl

theorem foremost_space (hc : isSpace c = true) : Foremost (c :: s) (.blank [c]) := by
  have hnone : committed? (c :: s) = none := by
    refine committed?_eq_none ?_ ?_ <;> rintro rfl <;> cases hc
  refine .longest ⟨.space hc, by simp, by simp [hnone]⟩ fun k kind w hw => ?_
  obtain rfl := eq_space_of_opens hc (class_of_candidate hw)
  cases hw.lexeme with
  | space _ => exact Nat.le_refl _

theorem foremost_quoted (s : List Char) : Foremost ('"' :: s) (quoted s).1 := by
  -- a candidate is a string, and where it ends is known
  have hsplit : ∀ {k kind w}, Candidate ('"' :: s) k kind w →
      ∃ raw rest, splitString s = some (raw, rest) ∧ w = '"' :: (raw ++ ['"']) := by
    intro k kind w hw
    obtain rfl := eq_string_of_opens (class_of_candidate hw)
    obtain ⟨hlex, ⟨rest, hs⟩, -⟩ := hw
    cases hlex with
    | @string raw hraw =>
      refine ⟨raw, rest, splitString_eq_some_iff.2 ⟨hraw, ?_⟩, rfl⟩
      simpa using hs.symm
  unfold quoted
  cases h : splitString s with
  | some r =>
    obtain ⟨raw, rest⟩ := r
    obtain ⟨hraw, rfl⟩ := splitString_eq_some_iff.1 h
    have hcommitted : ∀ k', committed? ('"' :: (raw ++ '"' :: rest)) = some k' → .string = k' :=
      fun _ => Option.some.inj
    refine .longest ⟨.string hraw, by simp, hcommitted⟩ fun k kind w hw => ?_
    obtain ⟨raw', rest', hs, rfl⟩ := hsplit hw
    rw [h] at hs
    cases hs
    exact Nat.le_refl _
  | none =>
    refine .stuck fun k kind w hw => ?_
    obtain ⟨raw, rest, hs, -⟩ := hsplit hw
    rw [h] at hs
    cases hs

/-- A number at the start of a text is made of its first digits, or of all of them and a fraction behind them. -/
theorem length_of_candidate_number {k : LexicalClass} {kind : Option Kind} {w : List Char} (hc : c.isDigit = true)
    (h : Candidate (c :: s) k kind w) :
    w.length ≤ ((c :: s).takeWhile Char.isDigit).length ∨
      ∃ fraction rest, Digits fraction ∧ (c :: s).dropWhile Char.isDigit = '.' :: (fraction ++ rest) ∧
        w.length = ((c :: s).takeWhile Char.isDigit).length + fraction.length + 1 := by
  obtain rfl := eq_number_of_opens hc (class_of_candidate h)
  cases h.lexeme with
  | integer hd => exact .inl (length_le_takeWhile h.begins hd.2)
  | @decimal whole fraction hd hf =>
    obtain ⟨rest, hs⟩ := h.begins
    rw [List.append_assoc, List.cons_append] at hs
    obtain ⟨htake, hdrop⟩ := takeWhile_append_stop hd.2 (c := '.') rfl (fraction ++ rest)
    rw [hs] at htake hdrop
    refine .inr ⟨fraction, rest, hf, hdrop, ?_⟩
    rw [htake, List.length_append, List.length_cons, Nat.add_assoc]

theorem digits_takeWhile (hc : c.isDigit = true) : Digits ((c :: s).takeWhile Char.isDigit) :=
  ⟨by simp [hc], fun _ hd => of_mem_takeWhile hd⟩

theorem committed?_of_digit (hc : c.isDigit = true) : committed? (c :: s) = none := by
  refine committed?_eq_none ?_ ?_ <;> rintro rfl <;> cases hc

theorem foremost_integer (hc : c.isDigit = true)
    (hno : ∀ d t, (c :: s).dropWhile Char.isDigit = '.' :: d :: t → d.isDigit = false) :
    Foremost (c :: s) (.ofLexeme (some (.number (Number.ofDigits ((c :: s).takeWhile Char.isDigit) [])))
      ((c :: s).takeWhile Char.isDigit)) := by
  refine .longest ⟨.integer (digits_takeWhile hc), List.takeWhile_prefix _, by simp [committed?_of_digit hc]⟩
    fun k kind w hw => ?_
  rcases length_of_candidate_number hc hw with hle | ⟨fraction, rest, hf, hdrop, -⟩
  · exact hle
  · obtain ⟨d, t, rfl⟩ := List.exists_cons_of_ne_nil hf.1
    have hd := hf.2 d (by simp)
    rw [hno d (t ++ rest) hdrop] at hd
    cases hd

theorem foremost_decimal (hc : c.isDigit = true) {d : Char} {t : List Char}
    (hdrop : (c :: s).dropWhile Char.isDigit = '.' :: d :: t) (hd : d.isDigit = true) :
    Foremost (c :: s) (.ofLexeme
      (some (.number (Number.ofDigits ((c :: s).takeWhile Char.isDigit) ((d :: t).takeWhile Char.isDigit))))
      ((c :: s).takeWhile Char.isDigit ++ '.' :: (d :: t).takeWhile Char.isDigit)) := by
  have hbegins : (c :: s).takeWhile Char.isDigit ++ '.' :: (d :: t).takeWhile Char.isDigit <+: c :: s := by
    refine ⟨(d :: t).dropWhile Char.isDigit, ?_⟩
    rw [List.append_assoc, List.cons_append, List.takeWhile_append_dropWhile, ← hdrop, List.takeWhile_append_dropWhile]
  refine .longest ⟨.decimal (digits_takeWhile hc) (digits_takeWhile hd), hbegins, by simp [committed?_of_digit hc]⟩
    fun k kind w hw => ?_
  rw [List.length_append, List.length_cons]
  rcases length_of_candidate_number hc hw with hle | ⟨fraction, rest, hf, hdrop', hlen⟩
  · omega
  · rw [hdrop, List.cons.injEq] at hdrop'
    have hfraction := length_le_takeWhile ⟨rest, hdrop'.2.symm⟩ hf.2
    omega

theorem foremost_number (hc : c.isDigit = true) : Foremost (c :: s) (number c s).1 := by
  have hwhole : c :: (spanOf Char.isDigit s).1 = (c :: s).takeWhile Char.isDigit := by simp [spanOf, hc]
  have hafter : (spanOf Char.isDigit s).2 = (c :: s).dropWhile Char.isDigit := by simp [spanOf, hc]
  unfold number
  simp only [hwhole, hafter]
  generalize hdrop : (c :: s).dropWhile Char.isDigit = after
  fun_cases splitFraction after with
  | case1 d t hd => exact foremost_decimal hc hdrop hd
  | case2 d t hd =>
    have hinteger := foremost_integer (c := c) (s := s) hc fun d' t' h => by
      rw [hdrop] at h
      cases h
      exact Bool.eq_false_iff.2 hd
    rw [List.append_nil]
    exact hinteger
  | case3 after hno =>
    have hinteger := foremost_integer (c := c) (s := s) hc fun d' t' h => by
      rw [hdrop] at h
      exact (hno d' t' h).elim
    rw [List.append_nil]
    exact hinteger

theorem isNameChar_of_isNameStart (hc : isNameStart c = true) : isNameChar c = true := by
  simp only [isNameStart, isNameChar, Char.isAlphanum, Bool.or_eq_true] at hc ⊢
  rcases hc with hc | hc <;> simp [hc]

theorem isNameChar_of_mem_word {kind : Option Kind} {w : List Char} (h : Lexeme .word kind w) :
    ∀ d ∈ w, isNameChar d = true := by
  cases h with
  | keyword k =>
    obtain ⟨c, s, hk, hc, hs⟩ := k.exists_text
    rw [hk]
    exact List.forall_mem_cons.2 ⟨isNameChar_of_isNameStart hc, hs⟩
  | identifier hc hs _ => exact List.forall_mem_cons.2 ⟨isNameChar_of_isNameStart hc, hs⟩

theorem lexeme_word (hc : isNameStart c = true) (hs : ∀ d ∈ s, isNameChar d = true) :
    Lexeme .word (some (match Keyword.ofText? (c :: s) with
      | some k => .keyword k
      | none => .identifier)) (c :: s) := by
  cases h : Keyword.ofText? (c :: s) with
  | some k =>
    rw [← Keyword.text_of_ofText? h]
    exact .keyword k
  | none => exact .identifier hc hs fun k => Keyword.ofText?_eq_none h k

theorem foremost_word (hc : isNameStart c = true) : Foremost (c :: s) (word c s).1 := by
  have hnone : committed? (c :: s) = none := by
    refine committed?_eq_none ?_ ?_ <;> rintro rfl <;> exact absurd hc (by decide)
  have htext : c :: (spanOf isNameChar s).1 = (c :: s).takeWhile isNameChar := by
    simp [spanOf, isNameChar_of_isNameStart hc]
  have hlexeme := lexeme_word (s := (spanOf isNameChar s).1) hc fun d hd => of_mem_takeWhile hd
  refine .longest ⟨hlexeme, ?_, by simp [hnone]⟩ fun k kind w hw => ?_
  · rw [htext]
    exact List.takeWhile_prefix _
  · rw [htext]
    obtain rfl := eq_word_of_opens hc (class_of_candidate hw)
    exact length_le_takeWhile hw.begins (isNameChar_of_mem_word hw.lexeme)

theorem foremost_lineComment (s : List Char) :
    Foremost ('/' :: '/' :: s) (.blank ('/' :: '/' :: (spanOf (· != '\n') s).1)) := by
  have hbody : '\n' ∉ (spanOf (· != '\n') s).1 := fun h => by
    have := of_mem_takeWhile h
    simp at this
  refine .longest ⟨.lineComment hbody, ?_, by simp [committed?]⟩ fun k kind w hw => ?_
  · simpa [spanOf] using List.takeWhile_prefix _
  · obtain ⟨v, rfl, hv⟩ := exists_of_candidate hw
    rcases hw.lexeme.class_of_slash with ⟨rfl, -⟩ | ⟨rfl, hstar⟩ | ⟨rfl, hslash, -⟩
    · cases hw.lexeme with
      | lineComment hbody' =>
        have hle := length_le_takeWhile (p := (· != '\n')) (List.cons_prefix_cons.1 hv).2 fun d hd =>
          bne_iff_ne.2 fun hline => hbody' (hline ▸ hd)
        simpa [spanOf] using hle
    · cases head?_of_begins hv hstar
    · cases v with
      | nil => simp
      | cons d v =>
        obtain ⟨rfl, -⟩ := List.cons_prefix_cons.1 hv
        exact absurd rfl hslash

theorem foremost_comment (s : List Char) : Foremost ('/' :: '*' :: s) (comment s).1 := by
  -- a candidate is a block comment, and where it ends is known
  have hsplit : ∀ {k kind w}, Candidate ('/' :: '*' :: s) k kind w →
      ∃ body rest, splitComment 0 s = some (body, rest) ∧ w = '/' :: '*' :: body := by
    intro k kind w hw
    obtain rfl := hw.committed .blockComment rfl
    obtain ⟨hlex, ⟨rest, hs⟩, -⟩ := hw
    obtain ⟨body, rfl⟩ : ∃ body, w = '/' :: '*' :: body := by
      cases hlex with
      | blockComment _ hw => exact exists_of_commentSymbols hw
    refine ⟨body, rest, splitComment_eq_some_iff.2 ⟨?_, by simpa using hs.symm⟩, rfl⟩
    cases hlex with
    | blockComment hb hw => exact .blockComment hb hw
  unfold comment
  cases h : splitComment 0 s with
  | some r =>
    obtain ⟨body, rest⟩ := r
    obtain ⟨hbody, rfl⟩ := splitComment_eq_some_iff.1 h
    have hcommitted : ∀ k', committed? ('/' :: '*' :: (body ++ rest)) = some k' → .blockComment = k' :=
      fun _ => Option.some.inj
    refine .longest ⟨hbody, by simp, hcommitted⟩ fun k kind w hw => ?_
    obtain ⟨body', rest', hs, rfl⟩ := hsplit hw
    rw [h] at hs
    cases hs
    exact Nat.le_refl _
  | none =>
    refine .stuck fun k kind w hw => ?_
    obtain ⟨body, rest, hs, -⟩ := hsplit hw
    rw [h] at hs
    cases hs

theorem committed?_of_operator (hc : LexicalClass.operator.opens c = true)
    (hcomment : c = '/' → s.head? ≠ some '/' ∧ s.head? ≠ some '*') : committed? (c :: s) = none := by
  refine committed?_eq_none ?_ fun h => (hcomment h).2
  rintro rfl
  exact absurd hc (by decide)

/-- The candidates at a character that opens no other class are the marks that stand there. -/
theorem mark_of_candidate {k : LexicalClass} {kind : Option Kind} {w : List Char}
    (hc : LexicalClass.operator.opens c = true) (hcomment : c = '/' → s.head? ≠ some '/' ∧ s.head? ≠ some '*')
    (h : Candidate (c :: s) k kind w) : ∃ m : Mark, kind = some (.mark m) ∧ w = m.text.toList := by
  have hk : k = .operator := by
    rcases opens_unique (class_of_candidate h) hc with hk | rfl
    · exact hk
    · obtain ⟨v, rfl, hv⟩ := exists_of_candidate h
      rcases h.lexeme.class_of_slash with ⟨-, hv'⟩ | ⟨-, hv'⟩ | ⟨hk, -⟩
      · exact absurd (head?_of_begins hv hv') (hcomment rfl).1
      · exact absurd (head?_of_begins hv hv') (hcomment rfl).2
      · exact hk
  subst hk
  cases h.lexeme with
  | operator m => exact ⟨m, rfl, rfl⟩

/-- One character, where no mark of two characters stands. -/
theorem foremost_single (hc : LexicalClass.operator.opens c = true)
    (hcomment : c = '/' → s.head? ≠ some '/' ∧ s.head? ≠ some '*')
    (hone : ∀ m : Mark, m.text.toList <+: c :: s → m.text.toList = [c]) :
    Foremost (c :: s) (match Mark.ofChar? c with
      | some m => token (.mark m) [c]
      | none => fault (.unexpected c) [c]) := by
  have hnone := committed?_of_operator hc hcomment
  have hcandidate : ∀ {k kind w}, Candidate (c :: s) k kind w → ∃ m : Mark, m.text.toList = [c] ∧ w = [c] := by
    intro k kind w hw
    obtain ⟨m, -, rfl⟩ := mark_of_candidate hc hcomment hw
    exact ⟨m, hone m hw.begins, hone m hw.begins⟩
  cases h : Mark.ofChar? c with
  | some m =>
    have hlexeme : Lexeme .operator (some (.mark m)) [c] := by
      rw [← Mark.text_of_find? h]
      exact .operator m
    refine .longest ⟨hlexeme, by simp, by simp [hnone]⟩ fun k kind w hw => ?_
    obtain ⟨-, -, rfl⟩ := hcandidate hw
    exact Nat.le_refl _
  | none =>
    have hfault : faultAt c s = fault (.unexpected c) [c] := by rw [faultAt, hnone]
    rw [← hfault]
    refine .stuck fun k kind w hw => ?_
    obtain ⟨m, hm, -⟩ := hcandidate hw
    exact Mark.find?_eq_none h m hm

theorem foremost_operator (hc : LexicalClass.operator.opens c = true)
    (hcomment : c = '/' → s.head? ≠ some '/' ∧ s.head? ≠ some '*') : Foremost (c :: s) (operator c s).1 := by
  unfold operator
  cases s with
  | nil =>
    refine foremost_single hc hcomment fun m hm => ?_
    obtain ⟨d, v, hv, -⟩ := m.exists_text
    rw [hv] at hm ⊢
    simpa using hm
  | cons d rest =>
    cases h : Mark.ofPair? c d with
    | some m =>
      have hlexeme : Lexeme .operator (some (.mark m)) [c, d] := by
        rw [← Mark.text_of_find? h]
        exact .operator m
      simp only [h]
      refine .longest ⟨hlexeme, by simp, ?_⟩ fun k kind w hw => ?_
      · simp [committed?_of_operator hc hcomment]
      · obtain ⟨m', -, rfl⟩ := mark_of_candidate hc hcomment hw
        exact m'.length_text_le
    | none =>
      simp only [h]
      refine foremost_single hc hcomment fun m hm => ?_
      have hle := m.length_text_le
      have hpair := Mark.find?_eq_none h m
      obtain ⟨c', v, hv, -⟩ := m.exists_text
      rw [hv] at hm hle hpair ⊢
      match v with
      | [] => simpa using hm
      | [d'] => simp_all
      | _ :: _ :: _ => simp at hle

/-! ## the whole source -/

/-- The piece that is cut off first is the one that the grammar gives. -/
theorem foremost_next (c : Char) (s : List Char) : Foremost (c :: s) (next c s).1 := by
  unfold next
  split
  · next hc => exact foremost_space hc
  split
  · next hc =>
    subst hc
    exact foremost_quoted s
  split
  · next hc => exact foremost_number hc
  split
  · next hc => exact foremost_word hc
  next hspace hquote hdigit hname =>
    have hc : LexicalClass.operator.opens c = true := by
      simp [LexicalClass.opens, hspace, hquote, hdigit, hname]
    split
    · exact foremost_lineComment _
    · exact foremost_comment _
    · next hline hblock =>
      refine foremost_operator hc fun hslash => ⟨fun hs => ?_, fun hs => ?_⟩
      · obtain ⟨rest, rfl⟩ := List.head?_eq_some_iff.1 hs
        exact hline rest hslash rfl
      · obtain ⟨rest, rfl⟩ := List.head?_eq_some_iff.1 hs
        exact hblock rest hslash rfl

theorem foremost_iff {p : Piece} : Foremost (c :: s) p ↔ p = (next c s).1 := by
  constructor
  · intro h
    exact h.unique (foremost_next c s)
  · rintro rfl
    exact foremost_next c s

end Piece

/-- The items of a text by the grammar.  The text starts on a line; it is cut into first pieces from left to right, and
each token and each fault is on the line on which its piece ends. -/
inductive Tokenizes : Nat → List Char → List Item → Prop
  | done (line : Nat) : Tokenizes line [] [.token (Token.endOfFile line)]
  | blank {line : Nat} {w rest : List Char} {items : List Item} : Foremost (w ++ rest) (.blank w) →
      Tokenizes (line + Item.newlines w) rest items → Tokenizes line (w ++ rest) items
  | token {line : Nat} {kind : Kind} {w rest : List Char} {items : List Item} : Foremost (w ++ rest) (.token kind w) →
      Tokenizes (line + Item.newlines w) rest items →
      Tokenizes line (w ++ rest) (.token ⟨kind, String.ofList w, line + Item.newlines w⟩ :: items)
  | fault {line : Nat} {cause : LexicalFault} {w rest : List Char} {items : List Item} :
      Foremost (w ++ rest) (.fault cause w) → Tokenizes (line + Item.newlines w) rest items →
      Tokenizes line (w ++ rest) (.fault (line + Item.newlines w) cause :: items)

namespace Tokenizes

/-- A text begins with its first piece, and is cut further behind it. -/
theorem ofSource_append {p : Piece} {w rest : List Char} (h : Foremost (w ++ rest) p) (hp : p.text = w) :
    Piece.ofSource (w ++ rest) = p :: Piece.ofSource rest := by
  cases hs : w ++ rest with
  | nil =>
    rw [hs] at h
    cases h with
    | longest hw _ =>
      obtain ⟨c, v, rfl, -⟩ := hw.lexeme.exists_opens
      cases List.prefix_nil.1 hw.begins
  | cons c s =>
    rw [hs] at h
    obtain rfl := Piece.foremost_iff.1 h
    have hrest : (Piece.next c s).2 = rest := by
      have htext := (Piece.text_next c s).trans hs.symm
      rw [hp] at htext
      exact List.append_cancel_left htext
    rw [Piece.ofSource_cons, hrest]

theorem eq_ofPieces {line : Nat} {s : List Char} {items : List Item} (h : Tokenizes line s items) :
    items = Item.ofPieces line (Piece.ofSource s) := by
  induction h with
  | done line => rfl
  | blank hw _ ih =>
    rw [ofSource_append hw rfl, ih]
    rfl
  | token hw _ ih =>
    rw [ofSource_append hw rfl, ih]
    rfl
  | fault hw _ ih =>
    rw [ofSource_append hw rfl, ih]
    rfl

theorem ofPieces (line : Nat) (s : List Char) : Tokenizes line s (Item.ofPieces line (Piece.ofSource s)) := by
  -- on the length of the text: a piece is not empty
  induction h : s.length using Nat.strongRecOn generalizing line s with
  | ind n ih =>
    cases s with
    | nil => exact .done line
    | cons c s =>
      have hrest := ih _ (by have := Piece.length_next_le c s; simp at h; omega) (s := (Piece.next c s).2)
        (line + Item.newlines (Piece.next c s).1.text) rfl
      have hfirst := Piece.foremost_next c s
      rw [Piece.ofSource_cons]
      rw [← Piece.text_next c s] at hfirst ⊢
      cases hp : (Piece.next c s).1 with
      | blank w => rw [hp] at hfirst hrest; exact .blank hfirst hrest
      | token kind w => rw [hp] at hfirst hrest; exact .token hfirst hrest
      | fault cause w => rw [hp] at hfirst hrest; exact .fault hfirst hrest

/-- A token of a source is a lexeme of its kind, or the end. -/
theorem lexeme {line : Nat} {s : List Char} {items : List Item} (h : Tokenizes line s items) {t : Token}
    (ht : .token t ∈ items) : t.kind = .eof ∨ ∃ k w, Lexeme k (some t.kind) w ∧ t.lexeme = String.ofList w := by
  induction h with
  | done line =>
    cases List.mem_singleton.1 ht
    exact .inl rfl
  | blank _ _ ih => exact ih ht
  | @token _ kind w _ _ hw _ ih =>
    rcases List.mem_cons.1 ht with heq | ht
    · cases heq
      obtain ⟨k, hk⟩ := hw.lexeme
      exact .inr ⟨k, w, hk, rfl⟩
    · exact ih ht
  | fault _ _ ih =>
    rcases List.mem_cons.1 ht with heq | ht
    · cases heq
    · exact ih ht

end Tokenizes

/-- The items of a source are those that the grammar gives. -/
theorem tokenizes_ofSource_iff (source : String) (items : List Item) :
    Tokenizes 1 source.toList items ↔ items = Item.ofSource source := by
  constructor
  · exact Tokenizes.eq_ofPieces
  · rintro rfl
    exact Tokenizes.ofPieces 1 source.toList

/-- The text of a token of a source is a lexeme of its kind, or the token is the end. -/
theorem lexeme_of_mem_tokensOf {source : String} {t : Token} (h : t ∈ tokensOf source) :
    t.kind = .eof ∨ ∃ k, Lexeme k (some t.kind) t.lexeme.toList := by
  obtain ⟨item, hitem, ht⟩ := List.mem_filterMap.1 h
  cases item with
  | fault line cause => cases ht
  | token t' =>
    obtain rfl : t' = t := Option.some.inj ht
    rcases (Tokenizes.ofPieces 1 source.toList).lexeme hitem with heof | ⟨k, w, hw, htext⟩
    · exact .inl heof
    · rw [htext, String.toList_ofList]
      exact .inr ⟨k, hw⟩

end ScriptLang
