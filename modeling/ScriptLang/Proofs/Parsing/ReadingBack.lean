import ScriptLang.Proofs.Numbers.Texts
import ScriptLang.Proofs.Parsing.Forms
import ScriptLang.Proofs.Parsing.Moved
import ScriptLang.Proofs.Parsing.Rendering

/-!
# Reading the text of a tree back

* `Stmt.bare` — a statement with its labels and the lines of its tokens forgotten;
* `Expr.ofForm`, `Stmt.ofForm` — the tree that a form is the text of;
* `Phrase.Reads.readable` — what a program without string literals and infinite numbers is written as is read back;
* `programText_unambiguous` — so two such programs with one text differ in labels and lines only.

The words of a form are scanned again: a name, an operator and a number are each one token of its text.  String
literals stand in the text without quotes, which is why they are left out, and an infinite number is written with a
name.
-/

namespace ScriptLang

/-! ## the literals of a tree -/

/-- A literal that is neither a string nor an infinite number. -/
def Literal.Plain : Literal → Prop
  | .number x => x.isFinite = true
  | .string _ => False
  | .bool _ => True
  | .nil => True

mutual

/-- The literals in an expression. -/
def Expr.literals : Expr → List Literal
  | .literal l => [l]
  | .group e => e.literals
  | .unary _ r => r.literals
  | .binary l _ r => l.literals ++ r.literals
  | .logical l _ r => l.literals ++ r.literals
  | .variable _ _ => []
  | .assign _ _ v => v.literals
  | .call f _ args => f.literals ++ Expr.literalsAll args
  | .get o _ => o.literals
  | .set o _ v => o.literals ++ v.literals
  | .this _ _ => []
  | .super _ _ _ => []

/-- The literals in expressions. -/
def Expr.literalsAll : List Expr → List Literal
  | [] => []
  | e :: es => e.literals ++ Expr.literalsAll es

end

/-- The literals in an expression that may be absent. -/
def Expr.literalsIn (e : Option Expr) : List Literal := e.elim [] Expr.literals

mutual

/-- The literals in a statement. -/
def Stmt.literals : Stmt → List Literal
  | .expr e => e.literals
  | .print _ e => e.literals
  | .varDecl _ e => Expr.literalsIn e
  | .block b => Stmt.literalsAll b
  | .ifThen c t => c.literals ++ t.literals
  | .ifElse c t e => c.literals ++ t.literals ++ e.literals
  | .loop c b i => c.literals ++ b.literals ++ Expr.literalsIn i
  | .funDecl d => d.literals
  | .returnFrom _ e => Expr.literalsIn e
  | .classDecl _ s ms => Expr.literalsIn s ++ FunctionDecl.literalsAll ms
  | .breakLoop _ => []
  | .continueLoop _ => []

/-- The literals in statements. -/
def Stmt.literalsAll : List Stmt → List Literal
  | [] => []
  | s :: rest => s.literals ++ Stmt.literalsAll rest

/-- The literals in a body. -/
def FunctionDecl.literals : FunctionDecl → List Literal
  | .mk _ _ b => Stmt.literalsAll b

/-- The literals in bodies. -/
def FunctionDecl.literalsAll : List FunctionDecl → List Literal
  | [] => []
  | d :: ds => d.literals ++ FunctionDecl.literalsAll ds

end

/-- All literals among these are plain. -/
def PlainAll (ls : List Literal) : Prop := ∀ l ∈ ls, l.Plain

theorem plainAll_append {ls ms : List Literal} : PlainAll (ls ++ ms) ↔ PlainAll ls ∧ PlainAll ms :=
  List.forall_mem_append

theorem plainAll_nil : PlainAll [] := List.forall_mem_nil _

/-! ## labels and lines forgotten -/

/-- A token as if it stood on the first line. -/
def Token.bare (t : Token) : Token := t.moved fun _ => 1

/-- An expression with its labels and the lines of its tokens forgotten. -/
def Expr.bare (x : Expr) : Expr := (x.moved (fun _ => 1) 0).unlabelled

/-- Expressions with their labels and the lines of their tokens forgotten. -/
def Expr.bareAll (xs : List Expr) : List Expr := Expr.unlabelledAll (Expr.movedAll (fun _ => 1) 0 xs)

/-- A statement with its labels and the lines of its tokens forgotten. -/
def Stmt.bare (s : Stmt) : Stmt := (s.moved (fun _ => 1) 0).unlabelled

/-- Statements with their labels and the lines of their tokens forgotten. -/
def Stmt.bareAll (body : List Stmt) : List Stmt := Stmt.unlabelledAll (Stmt.movedAll (fun _ => 1) 0 body)

/-- A function with its labels and the lines of its tokens forgotten. -/
def FunctionDecl.bare (d : FunctionDecl) : FunctionDecl := (d.moved (fun _ => 1) 0).unlabelled

/-- Functions with their labels and the lines of their tokens forgotten. -/
def FunctionDecl.bareAll (ds : List FunctionDecl) : List FunctionDecl :=
  FunctionDecl.unlabelledAll (FunctionDecl.movedAll (fun _ => 1) 0 ds)

/-! ## reading forms -/

/-- The token whose text the word is. -/
def Token.ofWord (w : String) : Option Token :=
  match Piece.ofSource w.toList with
  | [.token kind _] => some ⟨kind, w, 1⟩
  | _ => none

/-- The expression that is one word. -/
def Expr.ofWord (w : String) : Option Expr := do
  let t ← Token.ofWord w
  match t.kind with
  | .identifier => return .variable 0 t
  | .keyword .kwThis => return .this 0 t
  | kind => return .literal (← constant? kind)

mutual

/-- The expression with a form. -/
def Expr.ofForm : Form → Option Expr
  | .word w => Expr.ofWord w
  | .group [.word "group", x] => do return .group (← Expr.ofForm x)
  | .group [.word "super", .word name] => do return .super 0 (Keyword.token .kwSuper) (← Token.ofWord name)
  | .group [.word "=", .word name, v] => do return .assign 0 (← Token.ofWord name) (← Expr.ofForm v)
  | .group [.word "=", .group [.word ".", o, .word name], v] => do
    return .set (← Expr.ofForm o) (← Token.ofWord name) (← Expr.ofForm v)
  | .group [.word ".", o, .word name] => do return .get (← Expr.ofForm o) (← Token.ofWord name)
  | .group (.word "call" :: f :: args) => do
    return .call (← Expr.ofForm f) (Mark.token .rightParen) (← Expr.ofFormAll args)
  | .group [.word "and", x, y] => do return .logical (← Expr.ofForm x) (Keyword.token .kwAnd) (← Expr.ofForm y)
  | .group [.word "or", x, y] => do return .logical (← Expr.ofForm x) (Keyword.token .kwOr) (← Expr.ofForm y)
  | .group [.word op, x] => do return .unary (← Token.ofWord op) (← Expr.ofForm x)
  | .group [.word op, x, y] => do return .binary (← Expr.ofForm x) (← Token.ofWord op) (← Expr.ofForm y)
  | .group _ => none

/-- The expressions with forms. -/
def Expr.ofFormAll : List Form → Option (List Expr)
  | [] => some []
  | f :: fs => do return (← Expr.ofForm f) :: (← Expr.ofFormAll fs)

end

/-- The tokens whose texts the words are. -/
def Token.ofWords : List Form → Option (List Token)
  | [] => some []
  | .word w :: fs => do return (← Token.ofWord w) :: (← Token.ofWords fs)
  | .group _ :: _ => none

mutual

/-- The statement with a form. -/
def Stmt.ofForm : Form → Option Stmt
  | .group [.word "expr", x] => do return .expr (← Expr.ofForm x)
  | .group [.word "print", x] => do return .print (Keyword.token .kwPrint) (← Expr.ofForm x)
  | .group [.word "var", .word name] => do return .varDecl (← Token.ofWord name) none
  | .group [.word "var", .word name, x] => do return .varDecl (← Token.ofWord name) (some (← Expr.ofForm x))
  | .group (.word "block" :: body) => do return .block (← Stmt.ofFormAll body)
  | .group [.word "if", c, t] => do return .ifThen (← Expr.ofForm c) (← Stmt.ofForm t)
  | .group [.word "if", c, t, e] => do return .ifElse (← Expr.ofForm c) (← Stmt.ofForm t) (← Stmt.ofForm e)
  | .group [.word "while", c, b] => do return .loop (← Expr.ofForm c) (← Stmt.ofForm b) none
  | .group [.word "while", c, b, i] => do
    return .loop (← Expr.ofForm c) (← Stmt.ofForm b) (some (← Expr.ofForm i))
  | .group (.word "fun" :: .word name :: .group params :: body) => do
    return .funDecl (.mk (← Token.ofWord name) (← Token.ofWords params) (← Stmt.ofFormAll body))
  | .group [.word "return"] => some (.returnFrom (Keyword.token .kwReturn) none)
  | .group [.word "return", x] => do return .returnFrom (Keyword.token .kwReturn) (some (← Expr.ofForm x))
  | .group (.word "class" :: .word name :: .word "<" :: s :: ms) => do
    return .classDecl (← Token.ofWord name) (some (← Expr.ofForm s)) (← FunctionDecl.ofFormAll ms)
  | .group (.word "class" :: .word name :: ms) => do
    return .classDecl (← Token.ofWord name) none (← FunctionDecl.ofFormAll ms)
  | .group [.word "break"] => some (.breakLoop (Keyword.token .kwBreak))
  | .group [.word "continue"] => some (.continueLoop (Keyword.token .kwContinue))
  | _ => none

/-- The statements with forms. -/
def Stmt.ofFormAll : List Form → Option (List Stmt)
  | [] => some []
  | f :: fs => do return (← Stmt.ofForm f) :: (← Stmt.ofFormAll fs)

/-- The functions with forms. -/
def FunctionDecl.ofFormAll : List Form → Option (List FunctionDecl)
  | [] => some []
  | f :: fs =>
    match Stmt.ofForm f with
    | some (.funDecl d) => do return d :: (← FunctionDecl.ofFormAll fs)
    | _ => none

end

/-! ## tokens that are read back -/

/-- The text of the token is a lexeme of its kind. -/
def Token.Written (t : Token) : Prop := ∃ k, Lexeme k (some t.kind) t.lexeme.toList

/-- The text of the token is one word, and scanned as the token. -/
structure Token.Legible (t : Token) : Prop where
  solid : Solid t.lexeme
  back : Token.ofWord t.lexeme = some t.bare

section Tokens

variable {k : LexicalClass} {kind : Kind} {w : String} {t : Token}

/-- A lexeme is scanned as its token again. -/
theorem Token.ofWord_of_lexeme (h : Lexeme k (some kind) w.toList) : Token.ofWord w = some ⟨kind, w, 1⟩ := by
  have hpieces := Piece.ofSource_lexeme h (.inl rfl : BeforeSpace [])
  rw [List.append_nil, show Piece.ofSource [] = [] from rfl] at hpieces
  rw [Token.ofWord, hpieces]

theorem stop_of_isNameChar {c : Char} (h : Piece.isNameChar c = true) : Form.stop c = false := by
  rw [Form.stop, Bool.eq_false_iff]
  intro hstop
  simp only [Bool.or_eq_true, decide_eq_true_eq] at hstop
  rcases hstop with ((rfl | rfl) | rfl) | rfl <;> cases h

theorem ne_empty_of_lexeme {kind? : Option Kind} (h : Lexeme k kind? w.toList) : w ≠ "" := by
  rintro rfl
  obtain ⟨c, v, hcons, -⟩ := h.exists_opens
  cases hcons

theorem solid_of_word {kind? : Option Kind} (h : Lexeme .word kind? w.toList) : Solid w :=
  ⟨ne_empty_of_lexeme h, fun c hc => stop_of_isNameChar (Piece.isNameChar_of_mem_word h c hc)⟩

theorem solid_of_number {kind? : Option Kind} (h : Lexeme .number kind? w.toList) : Solid w := by
  refine ⟨ne_empty_of_lexeme h, fun c hc => ?_⟩
  rw [Form.stop, Bool.eq_false_iff]
  intro hstop
  simp only [Bool.or_eq_true, decide_eq_true_eq] at hstop
  rcases hstop with ((rfl | rfl) | rfl) | rfl <;> exact h.not_mem_number rfl (by decide) hc

theorem Token.legible_of_lexeme (h : Lexeme k (some t.kind) t.lexeme.toList) (hsolid : Solid t.lexeme) : t.Legible :=
  ⟨hsolid, Token.ofWord_of_lexeme h⟩

theorem Token.Written.legible_of_identifier (h : t.Written) (hk : t.kind = .identifier) : t.Legible := by
  obtain ⟨k, h⟩ := h
  have hclass : k = .word := by
    rw [hk] at h
    generalize t.lexeme.toList = w at h
    cases h
    rfl
  subst hclass
  exact Token.legible_of_lexeme h (solid_of_word h)

theorem Token.Written.lexeme_of_keyword {word : Keyword} (h : t.Written) (hk : t.kind = .keyword word) :
    t.lexeme = word.text := by
  obtain ⟨k, h⟩ := h
  rw [hk] at h
  generalize hw : t.lexeme.toList = w at h
  cases h with
  | keyword => exact String.toList_injective hw

theorem Token.Written.lexeme_of_mark {m : Mark} (h : t.Written) (hk : t.kind = .mark m) : t.lexeme = m.text := by
  obtain ⟨k, h⟩ := h
  rw [hk] at h
  generalize hw : t.lexeme.toList = w at h
  cases h with
  | operator => exact String.toList_injective hw

theorem Token.Written.bare_of_keyword {word : Keyword} (h : t.Written) (hk : t.kind = .keyword word) :
    t.bare = Keyword.token word := by
  rw [Token.bare, Token.moved, hk, h.lexeme_of_keyword hk, Keyword.token]

theorem Token.Written.bare_of_mark {m : Mark} (h : t.Written) (hk : t.kind = .mark m) : t.bare = Mark.token m := by
  rw [Token.bare, Token.moved, hk, h.lexeme_of_mark hk]
  rfl

theorem Token.written_ofMark (m : Mark) (line : Nat) : (Token.ofMark m line).Written := ⟨_, .operator m⟩

/-- The marks that stand before an operand or between two. -/
def Mark.operators : List Mark :=
  [.bang, .minus, .plus, .star, .slash, .bangEqual, .equalEqual, .greater, .greaterEqual, .less, .lessEqual]

theorem Token.Written.legible_of_operator {m : Mark} (h : t.Written) (hk : t.kind = .mark m)
    (hm : m ∈ Mark.operators) : t.Legible := by
  have hlexeme := h.lexeme_of_mark hk
  obtain ⟨k, h⟩ := h
  have hall : ∀ m ∈ Mark.operators, Solid m.text := by decide
  have hsolid : Solid m.text := hall m hm
  rw [← hlexeme] at hsolid
  exact Token.legible_of_lexeme h hsolid

end Tokens

/-! ## expressions that are read back -/

/-- The form of the expression is made of words, and it is read back. -/
structure Expr.Readable (x : Expr) : Prop where
  sound : x.form.Sound
  back : Expr.ofForm x.form = some x.bare

/-- So are the forms of all of them. -/
structure Expr.ReadableAll (xs : List Expr) : Prop where
  sound : ∀ f ∈ Expr.formAll xs, f.Sound
  back : Expr.ofFormAll (Expr.formAll xs) = some (Expr.bareAll xs)

/-- So is the form of the expression if there is one. -/
def Expr.ReadableIn (x : Option Expr) : Prop := ∀ e ∈ x, e.Readable

section Expressions

variable {x y f o v : Expr} {xs : List Expr} {l : Label} {t op name paren : Token}

/-- A head and sound forms behind it. -/
theorem Form.sound_headed {head : String} {parts : List Form} (hhead : Solid head) (h : ∀ f ∈ parts, f.Sound) :
    (Form.group (.word head :: parts)).Sound :=
  .group (List.forall_mem_cons.2 ⟨.word hhead, h⟩)

theorem Form.forall_sound_cons {f : Form} {fs : List Form} (h : f.Sound) (hs : ∀ f ∈ fs, f.Sound) :
    ∀ g ∈ f :: fs, g.Sound :=
  List.forall_mem_cons.2 ⟨h, hs⟩

theorem Form.forall_sound_nil : ∀ g ∈ ([] : List Form), g.Sound := List.forall_mem_nil _

theorem Expr.readable_of_word {w : String} {kind : Kind} {k : LexicalClass} {v : Literal}
    (h : Lexeme k (some kind) w.toList) (hsolid : Solid w) (hv : constant? kind = some v) (hw : v.text = w) :
    (Expr.literal v).Readable := by
  subst hw
  refine ⟨.word hsolid, ?_⟩
  have hback := Token.ofWord_of_lexeme h
  show Expr.ofWord v.text = _
  rw [Expr.ofWord, hback]
  cases kind with
  | mark _ => cases hv
  | identifier => cases hv
  | keyword word => cases word <;> cases hv <;> rfl
  | number _ => cases hv; rfl
  | string _ => cases hv; rfl
  | eof => cases hv

/-- A number with a finite pattern is written as the lexeme of a number. -/
theorem Expr.readable_number {bits : Nat} (h : bits < Decimal.infinityBits) :
    (Expr.literal (.number (Decimal.ofPattern bits))).Readable := by
  have htext : (Literal.text (.number (Decimal.ofPattern bits))).toList =
      Number.literalFormat.text (Decimal.ofPattern bits) := String.toList_ofList
  have hlexeme := denotes_text h (f := Number.literalFormat) (.inr rfl)
  rw [Denotes, ← htext] at hlexeme
  exact Expr.readable_of_word hlexeme (solid_of_number hlexeme) rfl rfl

theorem Expr.readable_literal {value : Literal} (h : t.Written) (hv : constant? t.kind = some value)
    (hplain : value.Plain) : (Expr.literal value).Readable := by
  have hkeyword : ∀ word : Keyword, constant? (.keyword word) = some value → value.text = word.text →
      (Expr.literal value).Readable := fun word hk htext =>
    Expr.readable_of_word (.keyword word) (solid_of_word (.keyword word)) hk htext
  cases value with
  | number x =>
    obtain ⟨k, hlexeme⟩ := h
    have hkind : t.kind = .number x := by
      revert hv
      unfold constant?
      split <;> intro hv <;> cases hv
      assumption
    rw [hkind] at hlexeme
    obtain ⟨bits, hle, rfl⟩ := hlexeme.exists_pattern
    exact Expr.readable_number (Decimal.lt_of_isFinite hle hplain)
  | string raw => exact hplain.elim
  | bool b =>
    cases b with
    | false => exact hkeyword .kwFalse rfl rfl
    | true => exact hkeyword .kwTrue rfl rfl
  | nil => exact hkeyword .kwNil rfl rfl

theorem Expr.readable_one : Rule.one.Readable := by
  have hone : Rule.one = .literal (.number (Decimal.ofPattern 0x3FF0000000000000)) := by
    rw [Rule.one]
    congr 2
  rw [hone]
  exact Expr.readable_number (by decide)

theorem Expr.readable_group (h : x.Readable) : (Expr.group x).Readable := by
  refine ⟨Form.sound_headed (by decide) (Form.forall_sound_cons h.sound Form.forall_sound_nil), ?_⟩
  show (do return Expr.group (← Expr.ofForm x.form)) = _
  rw [h.back]
  rfl

theorem Expr.readable_variable (h : name.Legible) (hk : name.kind = .identifier) : (Expr.variable l name).Readable := by
  refine ⟨.word h.solid, ?_⟩
  have hkind : name.bare.kind = .identifier := hk
  show Expr.ofWord name.lexeme = _
  rw [Expr.ofWord, h.back, Option.bind_eq_bind, Option.bind_some, hkind]
  rfl

theorem Expr.readable_this (h : t.Written) (hk : t.kind = .keyword .kwThis) : (Expr.this l t).Readable := by
  refine ⟨.word (by decide), ?_⟩
  have hback : Token.ofWord "this" = some (Keyword.token .kwThis) :=
    Token.ofWord_of_lexeme (w := "this") (.keyword .kwThis)
  show Expr.ofWord "this" = _
  rw [Expr.ofWord, hback]
  show some (Expr.this 0 (Keyword.token .kwThis)) = some (Expr.this 0 t.bare)
  rw [h.bare_of_keyword hk]

/-- A name that is read back as an expression is read back as a token. -/
theorem Expr.Readable.legible_name (h : (Expr.variable l name).Readable) : name.Legible := by
  obtain ⟨hsound, hback⟩ := h
  cases hsound with
  | word hsolid =>
    refine ⟨hsolid, ?_⟩
    have hword : Expr.ofWord name.lexeme = some (.variable 0 name.bare) := hback
    obtain ⟨t, ht, hnode⟩ := Option.bind_eq_some_iff.1 hword
    rw [ht]
    split at hnode
    · cases hnode
      rfl
    · cases hnode
    · obtain ⟨v, -, hv⟩ := Option.bind_eq_some_iff.1 hnode
      cases hv

theorem Expr.readable_super (h : t.Written) (hk : t.kind = .keyword .kwSuper) (hname : name.Legible) :
    (Expr.super l t name).Readable := by
  refine ⟨Form.sound_headed (by decide)
    (Form.forall_sound_cons (.word hname.solid) Form.forall_sound_nil), ?_⟩
  have hbare : (Expr.super l t name).bare = .super 0 t.bare name.bare := rfl
  show (do return Expr.super 0 (Keyword.token .kwSuper) (← Token.ofWord name.lexeme)) = _
  rw [hname.back, hbare, h.bare_of_keyword hk]
  rfl

theorem Expr.readable_assign (hname : name.Legible) (hv : v.Readable) : (Expr.assign l name v).Readable := by
  refine ⟨Form.sound_headed (by decide)
    (Form.forall_sound_cons (.word hname.solid) (Form.forall_sound_cons hv.sound Form.forall_sound_nil)), ?_⟩
  show (do return Expr.assign 0 (← Token.ofWord name.lexeme) (← Expr.ofForm v.form)) = _
  rw [hname.back, hv.back]
  rfl

theorem Expr.readable_get (ho : o.Readable) (hname : name.Legible) : (Expr.get o name).Readable := by
  refine ⟨Form.sound_headed (by decide)
    (Form.forall_sound_cons ho.sound (Form.forall_sound_cons (.word hname.solid) Form.forall_sound_nil)), ?_⟩
  show (do return Expr.get (← Expr.ofForm o.form) (← Token.ofWord name.lexeme)) = _
  rw [ho.back, hname.back]
  rfl

/-- The parts of a property that is read back. -/
theorem Expr.Readable.get_parts (h : (Expr.get o name).Readable) : o.Readable ∧ name.Legible := by
  obtain ⟨hsound, hback⟩ := h
  have hparts := Form.sound_group.1 hsound
  have ho : o.form.Sound := hparts _ (by simp)
  have hname : Solid name.lexeme := by
    have hword : (Form.word name.lexeme).Sound := hparts _ (by simp)
    cases hword with
    | word hsolid => exact hsolid
  have hnode : (do return Expr.get (← Expr.ofForm o.form) (← Token.ofWord name.lexeme)) =
      some (Expr.get o.bare name.bare) := hback
  obtain ⟨x, hx, hrest⟩ := Option.bind_eq_some_iff.1 hnode
  obtain ⟨t, ht, hnode⟩ := Option.bind_eq_some_iff.1 hrest
  obtain ⟨rfl, rfl⟩ := Expr.get.inj (Option.some.inj hnode)
  exact ⟨⟨ho, hx⟩, ⟨hname, ht⟩⟩

theorem Expr.readable_set (ho : o.Readable) (hname : name.Legible) (hv : v.Readable) : (Expr.set o name v).Readable := by
  have hproperty := (Expr.readable_get ho hname).sound
  refine ⟨Form.sound_headed (by decide)
    (Form.forall_sound_cons hproperty (Form.forall_sound_cons hv.sound Form.forall_sound_nil)), ?_⟩
  show (do return Expr.set (← Expr.ofForm o.form) (← Token.ofWord name.lexeme) (← Expr.ofForm v.form)) = _
  rw [ho.back, hname.back, hv.back]
  rfl

theorem Expr.readable_call (hf : f.Readable) (hparen : paren.Written) (hk : paren.kind = .mark .rightParen)
    (hargs : Expr.ReadableAll xs) : (Expr.call f paren xs).Readable := by
  refine ⟨Form.sound_headed (by decide) (Form.forall_sound_cons hf.sound hargs.sound), ?_⟩
  have hbare : (Expr.call f paren xs).bare = .call f.bare paren.bare (Expr.bareAll xs) := rfl
  show (do return Expr.call (← Expr.ofForm f.form) (Mark.token .rightParen) (← Expr.ofFormAll (Expr.formAll xs))) = _
  rw [hf.back, hargs.back, hbare, hparen.bare_of_mark hk]
  rfl

theorem Expr.readableAll_nil : Expr.ReadableAll [] := ⟨Form.forall_sound_nil, rfl⟩

theorem Expr.readableAll_cons (h : x.Readable) (hs : Expr.ReadableAll xs) : Expr.ReadableAll (x :: xs) := by
  refine ⟨Form.forall_sound_cons h.sound hs.sound, ?_⟩
  show (do return (← Expr.ofForm x.form) :: (← Expr.ofFormAll (Expr.formAll xs))) = _
  rw [h.back, hs.back]
  rfl

/-- An operator is the head of no other form. -/
theorem Expr.ofForm_unary {m : Mark} (hm : m ∈ Mark.operators) (f : Form) :
    Expr.ofForm (.group [.word m.text, f]) = (do return .unary (← Token.ofWord m.text) (← Expr.ofForm f)) := by
  cases m with
  | equal => exact absurd hm (by decide)
  | _ => rfl

theorem Expr.ofForm_binary {m : Mark} (hm : m ∈ Mark.operators) (f g : Form) :
    Expr.ofForm (.group [.word m.text, f, g]) =
      (do return .binary (← Expr.ofForm f) (← Token.ofWord m.text) (← Expr.ofForm g)) := by
  cases m with
  | equal | dot => exact absurd hm (by decide)
  | _ => rfl

theorem Expr.readable_unary {m : Mark} (hop : op.Written) (hk : op.kind = .mark m) (hm : m ∈ Mark.operators)
    (hx : x.Readable) : (Expr.unary op x).Readable := by
  have hlegible := hop.legible_of_operator hk hm
  have hlexeme := hop.lexeme_of_mark hk
  refine ⟨Form.sound_headed hlegible.solid (Form.forall_sound_cons hx.sound Form.forall_sound_nil), ?_⟩
  show Expr.ofForm (.group [.word op.lexeme, x.form]) = _
  rw [hlexeme, Expr.ofForm_unary hm, ← hlexeme, hlegible.back, hx.back]
  rfl

theorem Expr.readable_binary {m : Mark} (hop : op.Written) (hk : op.kind = .mark m) (hm : m ∈ Mark.operators)
    (hx : x.Readable) (hy : y.Readable) : (Expr.binary x op y).Readable := by
  have hlegible := hop.legible_of_operator hk hm
  have hlexeme := hop.lexeme_of_mark hk
  refine ⟨Form.sound_headed hlegible.solid
    (Form.forall_sound_cons hx.sound (Form.forall_sound_cons hy.sound Form.forall_sound_nil)), ?_⟩
  show Expr.ofForm (.group [.word op.lexeme, x.form, y.form]) = _
  rw [hlexeme, Expr.ofForm_binary hm, ← hlexeme, hlegible.back, hx.back, hy.back]
  rfl

theorem Expr.readable_logical {word : Keyword} (hop : op.Written) (hk : op.kind = .keyword word)
    (hword : word = .kwAnd ∨ word = .kwOr) (hx : x.Readable) (hy : y.Readable) : (Expr.logical x op y).Readable := by
  have hlexeme := hop.lexeme_of_keyword hk
  have hbare : (Expr.logical x op y).bare = .logical x.bare op.bare y.bare := rfl
  have hform : Expr.ofForm (.group [.word word.text, x.form, y.form]) =
      (do return .logical (← Expr.ofForm x.form) (Keyword.token word) (← Expr.ofForm y.form)) := by
    rcases hword with rfl | rfl <;> rfl
  have hsolid : Solid op.lexeme := by
    rw [hlexeme]
    exact solid_of_word (.keyword word)
  refine ⟨Form.sound_headed hsolid
    (Form.forall_sound_cons hx.sound (Form.forall_sound_cons hy.sound Form.forall_sound_nil)), ?_⟩
  show Expr.ofForm (.group [.word op.lexeme, x.form, y.form]) = _
  rw [hlexeme, hform, hx.back, hy.back, hbare, hop.bare_of_keyword hk]
  rfl

theorem Expr.readable_sign (hop : op.Written) (hk : sign? op.kind = some ()) (hx : x.Readable) :
    (Expr.unary op x).Readable := by
  have hmark : ∃ m, op.kind = .mark m ∧ m ∈ Mark.operators := by
    revert hk
    unfold sign?
    split
    · exact fun _ => ⟨_, ‹_›, by decide⟩
    · exact fun _ => ⟨_, ‹_›, by decide⟩
    · exact fun h => by cases h
  obtain ⟨m, hm, hmem⟩ := hmark
  exact Expr.readable_unary hop hm hmem hx

/-- The operators of the levels between the words and the unary expressions. -/
theorem Level.exists_mark {level : Level} {kind : Kind} (h : kind ∈ level.operators) :
    (∃ word, kind = .keyword word ∧ (word = .kwAnd ∨ word = .kwOr) ∧ ∀ x t y, level.node x t y = .logical x t y) ∨
      ∃ m, kind = .mark m ∧ m ∈ Mark.operators ∧ ∀ x t y, level.node x t y = .binary x t y := by
  cases level with
  | disjunction => exact .inl ⟨.kwOr, List.mem_singleton.1 h, .inr rfl, fun _ _ _ => rfl⟩
  | conjunction => exact .inl ⟨.kwAnd, List.mem_singleton.1 h, .inl rfl, fun _ _ _ => rfl⟩
  | equality | comparison | sum | product =>
    right
    simp only [Level.operators, List.mem_cons, List.not_mem_nil, or_false] at h
    rcases h with rfl | rfl | rfl | rfl <;> exact ⟨_, rfl, by decide, fun _ _ _ => rfl⟩

/-- An operator between two operands that are read back. -/
theorem Expr.readable_node {level : Level} (hop : op.Written) (hk : op.kind ∈ level.operators) (hx : x.Readable)
    (hy : y.Readable) : (level.node x op y).Readable := by
  rcases Level.exists_mark hk with ⟨word, hword, hlogical, hnode⟩ | ⟨m, hm, hmem, hnode⟩
  · rw [hnode]
    exact Expr.readable_logical hop hword hlogical hx hy
  · rw [hnode]
    exact Expr.readable_binary hop hm hmem hx hy

/-- An assignment to a target that is read back. -/
theorem Expr.readable_assigned {target : Expr} {hi hi' : Label} (h : target.assigned? hi v = some (x, hi'))
    (ht : target.Readable) (hv : v.Readable) : x.Readable := by
  unfold Expr.assigned? at h
  split at h
  · cases h
    exact Expr.readable_assign ht.legible_name hv
  · cases h
    exact Expr.readable_set ht.get_parts.1 ht.get_parts.2 hv
  · cases h

/-- An operator that is written out, between a target that is read back and a value. -/
theorem Expr.readable_updated {target : Expr} {m : Mark} {line : Nat} {hi hi' : Label}
    (h : target.updated? hi (Token.ofMark m line) v = some (x, hi')) (hm : m ∈ Mark.operators) (ht : target.Readable)
    (hv : v.Readable) : x.Readable := by
  have hbinary : ∀ {y : Expr}, y.Readable → (Expr.binary y (Token.ofMark m line) v).Readable := fun hy =>
    Expr.readable_binary (Token.written_ofMark m line) rfl hm hy hv
  unfold Expr.updated? at h
  split at h
  · cases h
    refine Expr.readable_assign ht.legible_name (hbinary ?_)
    exact ⟨ht.sound, ht.back⟩
  · cases h
    exact Expr.readable_set ht.get_parts.1 ht.get_parts.2 (hbinary ht)
  · cases h

theorem mem_operators_of_compound? {kind : Kind} {m : Mark} (h : compound? kind = some m) : m ∈ Mark.operators := by
  unfold compound? at h
  split at h <;> cases h <;> decide

theorem mem_operators_of_step? {kind : Kind} {m : Mark} (h : step? kind = some m) : m ∈ Mark.operators := by
  unfold step? at h
  split at h <;> cases h <;> decide

end Expressions

/-! ## statements that are read back -/

/-- The form of the statement is made of words, and it is read back. -/
structure Stmt.Readable (s : Stmt) : Prop where
  sound : s.form.Sound
  back : Stmt.ofForm s.form = some s.bare

/-- So are the forms of all of them. -/
structure Stmt.ReadableAll (body : List Stmt) : Prop where
  sound : ∀ f ∈ Stmt.formAll body, f.Sound
  back : Stmt.ofFormAll (Stmt.formAll body) = some (Stmt.bareAll body)

/-- So is the form of the function, as a declaration. -/
structure FunctionDecl.Readable (d : FunctionDecl) : Prop where
  sound : d.form.Sound
  back : Stmt.ofForm d.form = some (.funDecl d.bare)

/-- So are the forms of all of them. -/
structure FunctionDecl.ReadableAll (ds : List FunctionDecl) : Prop where
  sound : ∀ f ∈ FunctionDecl.formAll ds, f.Sound
  back : FunctionDecl.ofFormAll (FunctionDecl.formAll ds) = some (FunctionDecl.bareAll ds)

section Statements

variable {x c : Expr} {i : Option Expr} {s t e : Stmt} {body : List Stmt} {d : FunctionDecl} {ds : List FunctionDecl}
  {k name : Token} {params : List Token}

theorem Form.forall_sound_in (h : Expr.ReadableIn i) : ∀ f ∈ Expr.formIn i, f.Sound := by
  cases i with
  | none => exact Form.forall_sound_nil
  | some x => exact Form.forall_sound_cons (h x rfl).sound Form.forall_sound_nil

theorem Stmt.readable_expr (h : x.Readable) : (Stmt.expr x).Readable := by
  refine ⟨Form.sound_headed (by decide) (Form.forall_sound_cons h.sound Form.forall_sound_nil), ?_⟩
  show (do return Stmt.expr (← Expr.ofForm x.form)) = _
  rw [h.back]
  rfl

theorem Stmt.readable_print (hk : k.Written) (hkind : k.kind = .keyword .kwPrint) (h : x.Readable) :
    (Stmt.print k x).Readable := by
  refine ⟨Form.sound_headed (by decide) (Form.forall_sound_cons h.sound Form.forall_sound_nil), ?_⟩
  have hbare : (Stmt.print k x).bare = .print k.bare x.bare := rfl
  show (do return Stmt.print (Keyword.token .kwPrint) (← Expr.ofForm x.form)) = _
  rw [h.back, hbare, hk.bare_of_keyword hkind]
  rfl

theorem Stmt.readable_varDecl (hname : name.Legible) (h : Expr.ReadableIn i) : (Stmt.varDecl name i).Readable := by
  refine ⟨Form.sound_headed (by decide)
    (Form.forall_sound_cons (.word hname.solid) (Form.forall_sound_in h)), ?_⟩
  cases i with
  | none =>
    show (do return Stmt.varDecl (← Token.ofWord name.lexeme) none) = _
    rw [hname.back]
    rfl
  | some x =>
    show (do return Stmt.varDecl (← Token.ofWord name.lexeme) (some (← Expr.ofForm x.form))) = _
    rw [hname.back, (h x rfl).back]
    rfl

theorem Stmt.readable_block (h : Stmt.ReadableAll body) : (Stmt.block body).Readable := by
  refine ⟨Form.sound_headed (by decide) h.sound, ?_⟩
  show (do return Stmt.block (← Stmt.ofFormAll (Stmt.formAll body))) = _
  rw [h.back]
  rfl

theorem Stmt.readable_ifThen (hc : c.Readable) (ht : t.Readable) : (Stmt.ifThen c t).Readable := by
  refine ⟨Form.sound_headed (by decide)
    (Form.forall_sound_cons hc.sound (Form.forall_sound_cons ht.sound Form.forall_sound_nil)), ?_⟩
  show (do return Stmt.ifThen (← Expr.ofForm c.form) (← Stmt.ofForm t.form)) = _
  rw [hc.back, ht.back]
  rfl

theorem Stmt.readable_ifElse (hc : c.Readable) (ht : t.Readable) (he : e.Readable) : (Stmt.ifElse c t e).Readable := by
  refine ⟨Form.sound_headed (by decide) (Form.forall_sound_cons hc.sound
    (Form.forall_sound_cons ht.sound (Form.forall_sound_cons he.sound Form.forall_sound_nil))), ?_⟩
  show (do return Stmt.ifElse (← Expr.ofForm c.form) (← Stmt.ofForm t.form) (← Stmt.ofForm e.form)) = _
  rw [hc.back, ht.back, he.back]
  rfl

theorem Stmt.readable_loop (hc : c.Readable) (hs : s.Readable) (hi : Expr.ReadableIn i) : (Stmt.loop c s i).Readable := by
  refine ⟨Form.sound_headed (by decide) (Form.forall_sound_cons hc.sound
    (Form.forall_sound_cons hs.sound (Form.forall_sound_in hi))), ?_⟩
  cases i with
  | none =>
    show (do return Stmt.loop (← Expr.ofForm c.form) (← Stmt.ofForm s.form) none) = _
    rw [hc.back, hs.back]
    rfl
  | some x =>
    show (do return Stmt.loop (← Expr.ofForm c.form) (← Stmt.ofForm s.form) (some (← Expr.ofForm x.form))) = _
    rw [hc.back, hs.back, (hi x rfl).back]
    rfl

theorem Stmt.readable_returnFrom (hk : k.Written) (hkind : k.kind = .keyword .kwReturn) (h : Expr.ReadableIn i) :
    (Stmt.returnFrom k i).Readable := by
  refine ⟨Form.sound_headed (by decide) (Form.forall_sound_in h), ?_⟩
  have hbare := hk.bare_of_keyword hkind
  cases i with
  | none =>
    show some (Stmt.returnFrom (Keyword.token .kwReturn) none) = some (Stmt.returnFrom k.bare none)
    rw [hbare]
  | some x =>
    show (do return Stmt.returnFrom (Keyword.token .kwReturn) (some (← Expr.ofForm x.form))) =
      some (Stmt.returnFrom k.bare (some x.bare))
    rw [(h x rfl).back, hbare]
    rfl

theorem Stmt.readable_breakLoop (hk : k.Written) (hkind : k.kind = .keyword .kwBreak) : (Stmt.breakLoop k).Readable := by
  refine ⟨Form.sound_headed (by decide) Form.forall_sound_nil, ?_⟩
  show some (Stmt.breakLoop (Keyword.token .kwBreak)) = some (Stmt.breakLoop k.bare)
  rw [hk.bare_of_keyword hkind]

theorem Stmt.readable_continueLoop (hk : k.Written) (hkind : k.kind = .keyword .kwContinue) :
    (Stmt.continueLoop k).Readable := by
  refine ⟨Form.sound_headed (by decide) Form.forall_sound_nil, ?_⟩
  show some (Stmt.continueLoop (Keyword.token .kwContinue)) = some (Stmt.continueLoop k.bare)
  rw [hk.bare_of_keyword hkind]

theorem Stmt.readableAll_nil : Stmt.ReadableAll [] := ⟨Form.forall_sound_nil, rfl⟩

theorem Stmt.readableAll_cons (h : s.Readable) (hs : Stmt.ReadableAll body) : Stmt.ReadableAll (s :: body) := by
  refine ⟨Form.forall_sound_cons h.sound hs.sound, ?_⟩
  show (do return (← Stmt.ofForm s.form) :: (← Stmt.ofFormAll (Stmt.formAll body))) = _
  rw [h.back, hs.back]
  rfl

theorem Token.ofWords_names (h : ∀ p ∈ params, p.Legible) :
    Token.ofWords (params.map fun p => .word p.lexeme) = some (params.map Token.bare) := by
  induction params with
  | nil => rfl
  | cons p params ih =>
    rw [List.map_cons, Token.ofWords, (h p List.mem_cons_self).back,
      ih fun p' h' => h p' (List.mem_cons_of_mem _ h')]
    rfl

theorem FunctionDecl.readable_mk (hname : name.Legible) (hparams : ∀ p ∈ params, p.Legible)
    (hbody : Stmt.ReadableAll body) : (FunctionDecl.mk name params body).Readable := by
  have hwords : ∀ f ∈ params.map fun p => Form.word p.lexeme, f.Sound := by
    intro f hf
    obtain ⟨p, hp, rfl⟩ := List.mem_map.1 hf
    exact .word (hparams p hp).solid
  refine ⟨Form.sound_headed (by decide) (Form.forall_sound_cons (.word hname.solid)
    (Form.forall_sound_cons (.group hwords) hbody.sound)), ?_⟩
  show (do
    return Stmt.funDecl (.mk (← Token.ofWord name.lexeme)
      (← Token.ofWords (params.map fun p : Token => .word p.lexeme)) (← Stmt.ofFormAll (Stmt.formAll body)))) = _
  rw [hname.back, Token.ofWords_names hparams, hbody.back]
  rfl

theorem Stmt.readable_funDecl (h : d.Readable) : (Stmt.funDecl d).Readable := by
  exact ⟨h.sound, h.back⟩

theorem FunctionDecl.readableAll_nil : FunctionDecl.ReadableAll [] :=
  ⟨Form.forall_sound_nil, rfl⟩

theorem FunctionDecl.readableAll_cons (h : d.Readable) (hs : FunctionDecl.ReadableAll ds) :
    FunctionDecl.ReadableAll (d :: ds) := by
  refine ⟨Form.forall_sound_cons h.sound hs.sound, ?_⟩
  show (match Stmt.ofForm d.form with
    | some (.funDecl d) => do return d :: (← FunctionDecl.ofFormAll (FunctionDecl.formAll ds))
    | _ => none) = _
  rw [h.back, hs.back]
  rfl

theorem Stmt.readable_classDecl (hname : name.Legible) (hs : Expr.ReadableIn i) (hds : FunctionDecl.ReadableAll ds) :
    (Stmt.classDecl name i ds).Readable := by
  cases i with
  | none =>
    refine ⟨Form.sound_headed (by decide) (Form.forall_sound_cons (.word hname.solid) hds.sound), ?_⟩
    -- a method is no word, so none is taken for the mark before a superclass
    have hform : Stmt.ofForm (Stmt.classDecl name none ds).form = (do
        return Stmt.classDecl (← Token.ofWord name.lexeme) none (← FunctionDecl.ofFormAll (FunctionDecl.formAll ds))) := by
      cases ds with
      | nil => rfl
      | cons d ds =>
        cases d
        rfl
    rw [hform, hname.back, hds.back]
    rfl
  | some x =>
    have hx := hs x rfl
    refine ⟨Form.sound_headed (by decide) (Form.forall_sound_cons (.word hname.solid)
      (Form.forall_sound_cons (.word (by decide)) (Form.forall_sound_cons hx.sound hds.sound))), ?_⟩
    show (do
      return Stmt.classDecl (← Token.ofWord name.lexeme) (some (← Expr.ofForm x.form))
        (← FunctionDecl.ofFormAll (FunctionDecl.formAll ds))) = _
    rw [hname.back, hx.back, hds.back]
    rfl

end Statements

/-! ## what is parsed is read back -/

section Literals

variable {target v x c : Expr} {op : Token} {hi hi' : Label} {first : Option Stmt} {body : Stmt} {i : Option Expr}

theorem Expr.plain_assigned (h : target.assigned? hi v = some (x, hi')) (hx : PlainAll x.literals) :
    PlainAll target.literals ∧ PlainAll v.literals := by
  unfold Expr.assigned? at h
  split at h
  · cases h
    exact ⟨plainAll_nil, hx⟩
  · cases h
    exact plainAll_append.1 hx
  · cases h

/-- The target is written out twice, but for a variable. -/
theorem Expr.plain_updated (h : target.updated? hi op v = some (x, hi')) (hx : PlainAll x.literals) :
    PlainAll target.literals ∧ PlainAll v.literals := by
  unfold Expr.updated? at h
  split at h
  · cases h
    exact ⟨plainAll_nil, hx⟩
  · cases h
    exact plainAll_append.1 (plainAll_append.1 hx).2
  · cases h

theorem Level.plain_node {level : Level} {y : Expr} (h : PlainAll (level.node x op y).literals) :
    PlainAll x.literals ∧ PlainAll y.literals := by
  cases level <;> exact plainAll_append.1 h

theorem Stmt.plain_forLoop (h : PlainAll (Stmt.forLoop first c body i).literals) :
    (∀ s ∈ first, PlainAll s.literals) ∧ PlainAll c.literals ∧ PlainAll body.literals ∧ PlainAll (Expr.literalsIn i) := by
  have hloop : PlainAll (Stmt.loop c body i).literals →
      PlainAll c.literals ∧ PlainAll body.literals ∧ PlainAll (Expr.literalsIn i) := by
    intro h
    obtain ⟨hcb, hi⟩ := plainAll_append.1 h
    exact ⟨(plainAll_append.1 hcb).1, (plainAll_append.1 hcb).2, hi⟩
  cases first with
  | none => exact ⟨fun s hs => (by cases hs), hloop h⟩
  | some s =>
    obtain ⟨hs, hrest⟩ := plainAll_append.1 h
    refine ⟨fun s' hs' => ?_, hloop (plainAll_append.1 hrest).1⟩
    cases hs'
    exact hs

theorem Stmt.readable_forLoop (hfirst : ∀ s ∈ first, s.Readable) (hc : c.Readable) (hbody : body.Readable)
    (hi : Expr.ReadableIn i) : (Stmt.forLoop first c body i).Readable := by
  have hloop := Stmt.readable_loop hc hbody hi
  cases first with
  | none => exact hloop
  | some s =>
    exact Stmt.readable_block (Stmt.readableAll_cons (hfirst s rfl) (Stmt.readableAll_cons hloop Stmt.readableAll_nil))

theorem Expr.readableIn_none : Expr.ReadableIn none := fun _ h => by cases h

theorem Expr.readableIn_some (h : x.Readable) : Expr.ReadableIn (some x) := fun y hy => by
  cases hy
  exact h

end Literals

/-- What there is to read back in the tree of a phrase is read back. -/
def Phrase.Readable : Phrase → Prop
  | .expression x => PlainAll x.literals → x.Readable
  | .binary _ x => PlainAll x.literals → x.Readable
  | .operand _ x => PlainAll x.literals → x.Readable
  | .binaryRest _ left x => PlainAll x.literals → PlainAll left.literals ∧ (left.Readable → x.Readable)
  | .unary x => PlainAll x.literals → x.Readable
  | .call x => PlainAll x.literals → x.Readable
  | .callRest f x => PlainAll x.literals → PlainAll f.literals ∧ (f.Readable → x.Readable)
  | .arguments xs => PlainAll (Expr.literalsAll xs) → Expr.ReadableAll xs
  | .argumentList _ xs => PlainAll (Expr.literalsAll xs) → Expr.ReadableAll xs
  | .primary x => PlainAll x.literals → x.Readable
  | .varDeclaration s => PlainAll s.literals → s.Readable
  | .expressionStatement s => PlainAll s.literals → s.Readable
  | .forInitializer s => ∀ s' ∈ s, PlainAll s'.literals → s'.Readable
  | .forCondition x => PlainAll x.literals → x.Readable
  | .forIncrement x => PlainAll (Expr.literalsIn x) → Expr.ReadableIn x
  | .statement _ s => PlainAll s.literals → s.Readable
  | .declaration s => PlainAll s.literals → s.Readable
  | .declarations body => PlainAll (Stmt.literalsAll body) → Stmt.ReadableAll body
  | .parameters names => ∀ n ∈ names, n.Legible
  | .parameterNames _ names => ∀ n ∈ names, n.Legible
  | .function d => PlainAll d.literals → d.Readable
  | .superclass x => PlainAll (Expr.literalsIn x) → Expr.ReadableIn x
  | .methods ds => PlainAll (FunctionDecl.literalsAll ds) → FunctionDecl.ReadableAll ds

/-- What tokens are read as can be read back from its form, if each of them has the text of its kind. -/
theorem Phrase.Reads.readable {p : Phrase} {lo hi : Label} {ts : List Token} (h : p.Reads lo ts hi)
    (hts : ∀ t ∈ ts, t.Written) : p.Readable := by
  induction h with
  | operators _ ih => exact ih hts
  | assign _ _ _ hx iht ihv =>
    simp only [List.forall_mem_append, List.forall_mem_cons] at hts
    intro hplain
    obtain ⟨ht, hv⟩ := Expr.plain_assigned hx hplain
    exact Expr.readable_assigned hx (iht hts.1 ht) (ihv hts.2.2 hv)
  | update _ hop _ hx iht ihv =>
    simp only [List.forall_mem_append, List.forall_mem_cons] at hts
    intro hplain
    obtain ⟨ht, hv⟩ := Expr.plain_updated hx hplain
    exact Expr.readable_updated hx (mem_operators_of_compound? hop) (iht hts.1 ht) (ihv hts.2.2 hv)
  | binary _ _ ihl ihr =>
    simp only [List.forall_mem_append] at hts
    intro hplain
    obtain ⟨hleft, hx⟩ := ihr hts.2 hplain
    exact hx (ihl hts.1 hleft)
  | tighter _ _ ih => exact ih hts
  | tightest _ _ ih => exact ih hts
  | binaryEnd => exact fun hplain => ⟨hplain, id⟩
  | binaryMore hk _ _ ihr ihx =>
    simp only [List.cons_append, List.forall_mem_append, List.forall_mem_cons] at hts
    intro hplain
    obtain ⟨hnode, hx⟩ := ihx hts.2.2 hplain
    obtain ⟨hleft, hright⟩ := Level.plain_node hnode
    exact ⟨hleft, fun hl => hx (Expr.readable_node hts.1 hk hl (ihr hts.2.1 hright))⟩
  | sign hk _ ih =>
    simp only [List.forall_mem_cons] at hts
    exact fun hplain => Expr.readable_sign hts.1 hk (ih hts.2 hplain)
  | stepBefore hop _ hx ih =>
    simp only [List.forall_mem_cons] at hts
    intro hplain
    obtain ⟨ht, -⟩ := Expr.plain_updated hx hplain
    exact Expr.readable_updated hx (mem_operators_of_step? hop) (ih hts.2 ht) Expr.readable_one
  | stepBehind _ hop hx ih =>
    simp only [List.forall_mem_append] at hts
    intro hplain
    obtain ⟨ht, -⟩ := Expr.plain_updated hx hplain
    exact Expr.readable_updated hx (mem_operators_of_step? hop) (ih hts.1 ht) Expr.readable_one
  | noStep _ ih => exact ih hts
  | call _ _ ihf ihx =>
    simp only [List.forall_mem_append] at hts
    intro hplain
    obtain ⟨hf, hx⟩ := ihx hts.2 hplain
    exact hx (ihf hts.1 hf)
  | callEnd => exact fun hplain => ⟨hplain, id⟩
  | callArguments _ _ hparen _ iha ihx =>
    simp only [List.cons_append, List.forall_mem_append, List.forall_mem_cons] at hts
    obtain ⟨-, hargs, hclose, hrest⟩ := hts
    intro hplain
    obtain ⟨hcall, hx⟩ := ihx hrest hplain
    obtain ⟨hf, hxs⟩ := plainAll_append.1 hcall
    exact ⟨hf, fun hr => hx (Expr.readable_call hr hclose hparen (iha hargs hxs))⟩
  | callProperty _ hname _ ihx =>
    simp only [List.forall_mem_cons] at hts
    intro hplain
    obtain ⟨hf, hx⟩ := ihx hts.2.2 hplain
    exact ⟨hf, fun hr => hx (Expr.readable_get hr (hts.2.1.legible_of_identifier hname))⟩
  | noArguments => exact fun _ => Expr.readableAll_nil
  | someArguments _ ih => exact ih hts
  | lastArgument _ _ ih =>
    exact fun hplain => Expr.readableAll_cons (ih hts (plainAll_append.1 hplain).1) Expr.readableAll_nil
  | moreArguments _ _ _ _ ihx ihxs =>
    simp only [List.forall_mem_append, List.forall_mem_cons] at hts
    intro hplain
    obtain ⟨hx, hxs⟩ := plainAll_append.1 hplain
    exact Expr.readableAll_cons (ihx hts.1 hx) (ihxs hts.2.2 hxs)
  | constant hv => exact fun hplain =>
      Expr.readable_literal (hts _ (List.mem_singleton_self _)) hv (hplain _ (List.mem_singleton_self _))
  | identifier hk =>
    exact fun _ => Expr.readable_variable ((hts _ (List.mem_singleton_self _)).legible_of_identifier hk) hk
  | this hk => exact fun _ => Expr.readable_this (hts _ (List.mem_singleton_self _)) hk
  | super hk _ hname =>
    simp only [List.forall_mem_cons] at hts
    exact fun _ => Expr.readable_super hts.1 hk (hts.2.2.1.legible_of_identifier hname)
  | group _ _ _ ih =>
    simp only [List.cons_append, List.forall_mem_append, List.forall_mem_cons] at hts
    exact fun hplain => Expr.readable_group (ih hts.2.1 hplain)
  | varPlain hname _ =>
    simp only [List.forall_mem_cons] at hts
    exact fun _ => Stmt.readable_varDecl (hts.1.legible_of_identifier hname) Expr.readableIn_none
  | varValue hname _ _ _ ih =>
    simp only [List.cons_append, List.forall_mem_append, List.forall_mem_cons] at hts
    exact fun hplain =>
      Stmt.readable_varDecl (hts.1.legible_of_identifier hname) (Expr.readableIn_some (ih hts.2.2.1 hplain))
  | expressionStatement _ _ ih =>
    simp only [List.forall_mem_append] at hts
    exact fun hplain => Stmt.readable_expr (ih hts.1 hplain)
  | noInitializer _ => exact fun s hs => by cases hs
  | varInitializer _ _ ih =>
    simp only [List.forall_mem_cons] at hts
    intro s hs hplain
    cases hs
    exact ih hts.2 hplain
  | expressionInitializer _ ih =>
    intro s hs hplain
    cases hs
    exact ih hts hplain
  | noCondition =>
    exact fun _ => Expr.readable_of_word (.keyword .kwTrue) (solid_of_word (.keyword .kwTrue)) rfl rfl
  | someCondition _ ih => exact ih hts
  | noIncrement => exact fun _ => Expr.readableIn_none
  | someIncrement _ ih => exact fun hplain => Expr.readableIn_some (ih hts hplain)
  | forLoop _ _ _ _ _ _ _ _ ihfirst ihc ihi ihbody =>
    simp only [List.cons_append, List.forall_mem_append, List.forall_mem_cons] at hts
    obtain ⟨-, -, h₁, h₂, -, h₃, -, h₄⟩ := hts
    intro hplain
    obtain ⟨hfirst, hc, hbody, hi⟩ := Stmt.plain_forLoop hplain
    exact Stmt.readable_forLoop (fun s hs => ihfirst h₁ s hs (hfirst s hs)) (ihc h₂ hc) (ihbody h₄ hbody) (ihi h₃ hi)
  | ifThen _ _ _ _ _ ihc ihs =>
    simp only [List.cons_append, List.forall_mem_append, List.forall_mem_cons] at hts
    obtain ⟨-, -, h₁, -, h₂⟩ := hts
    intro hplain
    obtain ⟨hc, hs⟩ := plainAll_append.1 hplain
    exact Stmt.readable_ifThen (ihc h₁ hc) (ihs h₂ hs)
  | ifElse _ _ _ _ _ _ _ ihc ihs ihe =>
    simp only [List.cons_append, List.forall_mem_append, List.forall_mem_cons] at hts
    obtain ⟨-, -, h₁, -, h₂, -, h₃⟩ := hts
    intro hplain
    obtain ⟨hcs, he⟩ := plainAll_append.1 hplain
    obtain ⟨hc, hs⟩ := plainAll_append.1 hcs
    exact Stmt.readable_ifElse (ihc h₁ hc) (ihs h₂ hs) (ihe h₃ he)
  | whileLoop _ _ _ _ _ ihc ihs =>
    simp only [List.cons_append, List.forall_mem_append, List.forall_mem_cons] at hts
    obtain ⟨-, -, h₁, -, h₂⟩ := hts
    intro hplain
    obtain ⟨hcs, -⟩ := plainAll_append.1 hplain
    obtain ⟨hc, hs⟩ := plainAll_append.1 hcs
    exact Stmt.readable_loop (ihc h₁ hc) (ihs h₂ hs) Expr.readableIn_none
  | returnNothing hk _ =>
    simp only [List.forall_mem_cons] at hts
    exact fun _ => Stmt.readable_returnFrom hts.1 hk Expr.readableIn_none
  | returnValue hk _ _ ih =>
    simp only [List.cons_append, List.forall_mem_append, List.forall_mem_cons] at hts
    exact fun hplain => Stmt.readable_returnFrom hts.1 hk (Expr.readableIn_some (ih hts.2.1 hplain))
  | breakLoop hk _ =>
    simp only [List.forall_mem_cons] at hts
    exact fun _ => Stmt.readable_breakLoop hts.1 hk
  | continueLoop hk _ =>
    simp only [List.forall_mem_cons] at hts
    exact fun _ => Stmt.readable_continueLoop hts.1 hk
  | block _ _ _ ih =>
    simp only [List.cons_append, List.forall_mem_append, List.forall_mem_cons] at hts
    exact fun hplain => Stmt.readable_block (ih hts.2.1 hplain)
  | print hk _ _ ih =>
    simp only [List.cons_append, List.forall_mem_append, List.forall_mem_cons] at hts
    exact fun hplain => Stmt.readable_print hts.1 hk (ih hts.2.1 hplain)
  | expressionOnly _ ih => exact ih hts
  | classDecl _ hname _ _ _ _ ihs ihms =>
    simp only [List.cons_append, List.forall_mem_append, List.forall_mem_cons] at hts
    obtain ⟨-, hn, h₁, -, h₂, -⟩ := hts
    intro hplain
    obtain ⟨hs, hms⟩ := plainAll_append.1 hplain
    exact Stmt.readable_classDecl (hn.legible_of_identifier hname) (ihs h₁ hs) (ihms h₂ hms)
  | funDecl _ _ ih =>
    simp only [List.forall_mem_cons] at hts
    exact fun hplain => Stmt.readable_funDecl (ih hts.2 hplain)
  | varDecl _ _ ih =>
    simp only [List.forall_mem_cons] at hts
    exact ih hts.2
  | noDeclaration _ ih => exact ih hts
  | declarationsEnd => exact fun _ => Stmt.readableAll_nil
  | declarationsMore _ _ ihs ihbody =>
    simp only [List.forall_mem_append] at hts
    intro hplain
    obtain ⟨hs, hbody⟩ := plainAll_append.1 hplain
    exact Stmt.readableAll_cons (ihs hts.1 hs) (ihbody hts.2 hbody)
  | noParameters => exact fun n hn => by cases hn
  | someParameters _ ih => exact ih hts
  | lastParameter _ hk =>
    exact fun n hn => (hts n hn).legible_of_identifier (by rw [List.mem_singleton.1 hn, hk])
  | moreParameters _ hk _ _ ih =>
    simp only [List.forall_mem_cons] at hts
    exact List.forall_mem_cons.2 ⟨hts.1.legible_of_identifier hk, ih hts.2.2⟩
  | function hname _ _ _ _ _ _ ihparams ihbody =>
    simp only [List.cons_append, List.forall_mem_append, List.forall_mem_cons] at hts
    obtain ⟨hn, -, h₁, -, -, h₂, -⟩ := hts
    exact fun hplain =>
      FunctionDecl.readable_mk (hn.legible_of_identifier hname) (ihparams h₁) (ihbody h₂ hplain)
  | noSuperclass => exact fun _ => Expr.readableIn_none
  | someSuperclass _ hk =>
    simp only [List.forall_mem_cons] at hts
    exact fun _ => Expr.readableIn_some (Expr.readable_variable (hts.2.1.legible_of_identifier hk) hk)
  | methodsEnd => exact fun _ => FunctionDecl.readableAll_nil
  | methodsMore _ _ ihd ihds =>
    simp only [List.forall_mem_append] at hts
    intro hplain
    obtain ⟨hd, hds⟩ := plainAll_append.1 hplain
    exact FunctionDecl.readableAll_cons (ihd hts.1 hd) (ihds hts.2 hds)

/-! ## programs with one text -/

section Programs

variable {source source' : String} {fresh fresh' : Label} {program program' : List Stmt}

/-- A program of a source is read back from its forms. -/
theorem readableAll_of_parse (h : (parse fresh (tokensOf source)).result = .ok program)
    (hplain : PlainAll (Stmt.literalsAll program)) : Stmt.ReadableAll program :=
  (reads_of_parse h).readable (fun _ ht => lexeme_of_mem_beforeEnd ht) hplain

/-- Programs with one text are equal but for their labels and the lines of their tokens, if no literal in them is a
string or an infinite number. -/
theorem programText_unambiguous (h : (parse fresh (tokensOf source)).result = .ok program)
    (h' : (parse fresh' (tokensOf source')).result = .ok program')
    (hplain : ∀ l ∈ Stmt.literalsAll program, l.Plain) (hplain' : ∀ l ∈ Stmt.literalsAll program', l.Plain)
    (htext : programText program = programText program') : Stmt.bareAll program = Stmt.bareAll program' := by
  have hread := readableAll_of_parse h hplain
  have hread' := readableAll_of_parse h' hplain'
  have hlines : Form.lines (Stmt.formAll program) = Form.lines (Stmt.formAll program') := by
    rw [← toList_programText, ← toList_programText, htext]
  have hforms := Form.lines_injective hread.sound hread'.sound hlines
  have hback := hread.back
  rw [hforms, hread'.back] at hback
  exact (Option.some.inj hback).symm

/-- A property that is updated has the text of the assignment that it stands for, here on two lines: the trees differ
in the labels of the object, which the update writes twice, and in lines. -/
theorem programText_unambiguous_update :
    let x (label line : Nat) : Expr := .variable label ⟨.identifier, "x", line⟩
    let y (line : Nat) : Token := ⟨.identifier, "y", line⟩
    let minus (line : Nat) : Token := ⟨.mark .minus, "-", line⟩
    let amount (line : Nat) : Expr := .unary (minus line) (.literal (.number (Number.ofDigits ['1'] [])))
    let short : List Stmt := [.expr (.set (x 0 1) (y 1) (.binary (.get (x 0 1) (y 1)) (minus 1) (amount 1)))]
    let long : List Stmt := [.expr (.set (x 7 1) (y 2) (.binary (.get (x 8 2) (y 2)) (minus 2) (amount 2)))]
    (parse 0 (tokensOf "x.y -= -1;")).result = .ok short ∧ (parse 7 (tokensOf "x\n.y = x.y - -1;")).result = .ok long ∧
      (∀ l ∈ Stmt.literalsAll short, l.Plain) ∧ (∀ l ∈ Stmt.literalsAll long, l.Plain) ∧
      programText short = programText long ∧ Stmt.bareAll short = Stmt.bareAll long := by
  intro x y minus amount short long
  have h : (parse 0 (tokensOf "x.y -= -1;")).result = .ok short := rfl
  have h' : (parse 7 (tokensOf "x\n.y = x.y - -1;")).result = .ok long := rfl
  have hfinite : (Number.ofDigits ['1'] []).isFinite = true := by decide +kernel
  have hplain : ∀ l ∈ Stmt.literalsAll short, l.Plain := List.forall_mem_singleton.2 hfinite
  have hplain' : ∀ l ∈ Stmt.literalsAll long, l.Plain := List.forall_mem_singleton.2 hfinite
  exact ⟨h, h', hplain, hplain', rfl, programText_unambiguous h h' hplain hplain' rfl⟩

end Programs

end ScriptLang
