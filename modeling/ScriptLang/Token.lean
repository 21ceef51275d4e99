import ScriptLang.Number

/-!
# Tokens

* `Mark` — punctuation and operators, `Keyword` — the reserved words: each with its spelling and its type name;
* `Kind` — what a token is: a mark, a keyword, an identifier, a literal with its value, or the end of the source;
* `Token` — a kind with the text it was written as and the line on which it ends.
-/

namespace ScriptLang

/-- Punctuation and operators. -/
inductive Mark
  | leftParen | rightParen | leftBrace | rightBrace | comma | dot | semicolon
  | minus | minusEqual | minusMinus
  | plus | plusEqual | plusPlus
  | slash | slashEqual
  | star | starEqual
  | bang | bangEqual
  | equal | equalEqual
  | greater | greaterEqual
  | less | lessEqual
deriving DecidableEq, Repr

namespace Mark

/-- How a mark is written. -/
def text : Mark → String
  | leftParen => "(" | rightParen => ")" | leftBrace => "\x7b" | rightBrace => "\x7d"
  | comma => "," | dot => "." | semicolon => ";"
  | minus => "-" | minusEqual => "-=" | minusMinus => "--"
  | plus => "+" | plusEqual => "+=" | plusPlus => "++"
  | slash => "/" | slashEqual => "/="
  | star => "*" | starEqual => "*="
  | bang => "!" | bangEqual => "!="
  | equal => "=" | equalEqual => "=="
  | greater => ">" | greaterEqual => ">="
  | less => "<" | lessEqual => "<="

/-- The type name of a mark in token lists. -/
def typeName : Mark → String
  | leftParen => "LEFT_PAREN" | rightParen => "RIGHT_PAREN"
  | leftBrace => "LEFT_BRACE" | rightBrace => "RIGHT_BRACE"
  | comma => "COMMA" | dot => "DOT" | semicolon => "SEMICOLON"
  | minus => "MINUS" | minusEqual => "MINUS_EQUAL" | minusMinus => "MINUS_MINUS"
  | plus => "PLUS" | plusEqual => "PLUS_EQUAL" | plusPlus => "PLUS_PLUS"
  | slash => "SLASH" | slashEqual => "SLASH_EQUAL"
  | star => "STAR" | starEqual => "STAR_EQUAL"
  | bang => "BANG" | bangEqual => "BANG_EQUAL"
  | equal => "EQUAL" | equalEqual => "EQUAL_EQUAL"
  | greater => "GREATER" | greaterEqual => "GREATER_EQUAL"
  | less => "LESS" | lessEqual => "LESS_EQUAL"

/-- All marks. -/
def all : List Mark :=
  [leftParen, rightParen, leftBrace, rightBrace, comma, dot, semicolon, minus, minusEqual, minusMinus, plus,
    plusEqual, plusPlus, slash, slashEqual, star, starEqual, bang, bangEqual, equal, equalEqual, greater,
    greaterEqual, less, lessEqual]

theorem mem_all (m : Mark) : m ∈ all := by cases m <;> decide

/-- The mark that is one character. -/
def ofChar? (c : Char) : Option Mark := all.find? (·.text.toList = [c])

/-- The mark that is two characters. -/
def ofPair? (c d : Char) : Option Mark := all.find? (·.text.toList = [c, d])

end Mark

/-- The reserved words. -/
inductive Keyword
  | kwAnd | kwBreak | kwClass | kwContinue | kwElse | kwFalse | kwFor | kwFun | kwIf | kwNil | kwOr | kwPrint
  | kwReturn | kwSuper | kwThis | kwTrue | kwVar | kwWhile
deriving DecidableEq, Repr

namespace Keyword

/-- How a keyword is written. -/
def text : Keyword → String
  | kwAnd => "and" | kwBreak => "break" | kwClass => "class" | kwContinue => "continue" | kwElse => "else"
  | kwFalse => "false" | kwFor => "for" | kwFun => "fun" | kwIf => "if" | kwNil => "nil" | kwOr => "or"
  | kwPrint => "print" | kwReturn => "return" | kwSuper => "super" | kwThis => "this" | kwTrue => "true"
  | kwVar => "var" | kwWhile => "while"

/-- The type name of a keyword in token lists. -/
def typeName : Keyword → String
  | kwAnd => "AND" | kwBreak => "BREAK" | kwClass => "CLASS" | kwContinue => "CONTINUE" | kwElse => "ELSE"
  | kwFalse => "FALSE" | kwFor => "FOR" | kwFun => "FUN" | kwIf => "IF" | kwNil => "NIL" | kwOr => "OR"
  | kwPrint => "PRINT" | kwReturn => "RETURN" | kwSuper => "SUPER" | kwThis => "THIS" | kwTrue => "TRUE"
  | kwVar => "VAR" | kwWhile => "WHILE"

/-- All keywords. -/
def all : List Keyword :=
  [kwAnd, kwBreak, kwClass, kwContinue, kwElse, kwFalse, kwFor, kwFun, kwIf, kwNil, kwOr, kwPrint, kwReturn,
    kwSuper, kwThis, kwTrue, kwVar, kwWhile]

theorem mem_all (k : Keyword) : k ∈ all := by cases k <;> decide

/-- The keyword with a spelling. -/
def ofText? (s : List Char) : Option Keyword := all.find? (·.text.toList = s)

end Keyword

/-- What a token is. -/
inductive Kind
  | mark (mark : Mark)
  | keyword (word : Keyword)
  | identifier
  /-- A string literal: what stands between the quotes, escapes not decoded. -/
  | string (raw : String)
  | number (value : Float)
  /-- The end of the source. -/
  | eof
deriving DecidableEq

namespace Kind

/-- The type name of a kind, without the value of a literal. -/
def typeName : Kind → String
  | mark m => m.typeName
  | keyword k => k.typeName
  | identifier => "IDENTIFIER"
  | string _ => "STRING"
  | number _ => "NUMBER"
  | eof => "EOF"

/-- The value of a literal as text; other kinds have none. -/
def literalText : Kind → String
  | string raw => raw
  | number x => Number.literal x
  | _ => "null"

/-- The kind with a type name; literals get the given values. -/
def ofTypeName? (raw : String) (value : Float) (name : String) : Option Kind :=
  let marks := Mark.all.map Kind.mark
  let keywords := Keyword.all.map Kind.keyword
  (marks ++ keywords ++ [identifier, string raw, number value, eof]).find? (·.typeName = name)

end Kind

/-- A piece of source text with a meaning. -/
structure Token where
  kind : Kind
  /-- The text it was written as. -/
  lexeme : String
  /-- The line on which it ends, counted from one. -/
  line : Nat
deriving DecidableEq

namespace Token

/-- One line of a token list: type name, text and value. -/
def describe (t : Token) : String := t.kind.typeName ++ " " ++ t.lexeme ++ " " ++ t.kind.literalText

/-- Where a diagnostic about a token points. -/
def location (t : Token) : String :=
  if t.kind = .eof then " at end of file" else " at '" ++ t.lexeme ++ "'"

/-- The token that ends a source on a line. -/
def endOfFile (line : Nat) : Token := ⟨.eof, "", line⟩

/-- A mark that stands for part of another one, on its line. -/
def ofMark (m : Mark) (line : Nat) : Token := ⟨.mark m, m.text, line⟩

end Token

end ScriptLang
