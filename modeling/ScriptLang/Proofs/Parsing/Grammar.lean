import ScriptLang.Tree.Parser

/-!
# The grammar

* `Ebnf` — right sides of grammar rules, `Symbol` — the parts of the grammar, `Symbol.rule` — the rule of each part;
* `e.Derives ts` — the tokens `ts` can be derived from `e`.

The rules are those of the language.  Two things that a context-free grammar would not say are said by constructors of
their own: what is stepped must also be a `target` (`both`), and lists have a largest length (`upTo`).  Nothing here
says which derivation is meant when there are several, as with an `else` behind two conditionals.
-/

namespace ScriptLang

/-- The parts of the grammar. -/
inductive Symbol
  | program | declaration | classDecl | funDecl | function | parameters | varDecl
  | statement | exprStmt | forStmt | ifStmt | printStmt | returnStmt | whileStmt | breakStmt | continueStmt | block
  | expression | assignment | logicOr | logicAnd | equality | comparison | term | factor | unary | stepped
  | call | arguments | primary
deriving DecidableEq, Repr

/-- Right sides of grammar rules. -/
inductive Ebnf
  /-- One token of some kinds. -/
  | token (test : Kind → Bool)
  | symbol (s : Symbol)
  | seq (first second : Ebnf)
  | alt (first second : Ebnf)
  | opt (e : Ebnf)
  | star (e : Ebnf)
  /-- At most so many in a row. -/
  | upTo (count : Nat) (e : Ebnf)
  /-- What both describe. -/
  | both (first second : Ebnf)

namespace Ebnf

instance : Append Ebnf where
  append := seq

instance : OrOp Ebnf where
  or := alt

/-- A mark. -/
def mark (m : Mark) : Ebnf := token (· = .mark m)

/-- A reserved word. -/
def word (k : Keyword) : Ebnf := token (· = .keyword k)

/-- A name. -/
def ident : Ebnf := token (· = .identifier)

/-- A number literal. -/
def number : Ebnf := token fun | .number _ => true | _ => false

/-- A string literal. -/
def string : Ebnf := token fun | .string _ => true | _ => false

/-- One or more with commas between them, at most as many as a list may have. -/
def list (e : Ebnf) : Ebnf := e ++ upTo (Rule.maxArity - 1) (mark .comma ++ e)

/-- One or more with operators between them. -/
def chain (operand operator : Ebnf) : Ebnf := operand ++ star (operator ++ operand)

/-- What can be assigned to: a name, or a property of a call. -/
def target : Ebnf := opt (symbol .call ++ mark .dot) ++ ident

/-- The operators that step a variable or property. -/
def step : Ebnf := mark .plusPlus ||| mark .minusMinus

/-- What may follow an expression to call it or to read its property. -/
def callSuffix : Ebnf := mark .leftParen ++ opt (symbol .arguments) ++ mark .rightParen ||| mark .dot ++ ident

end Ebnf

open Ebnf in
/-- The rule of a part of the grammar. -/
def Symbol.rule : Symbol → Ebnf
  | program => star (symbol declaration)
  | declaration => symbol classDecl ||| symbol funDecl ||| symbol varDecl ||| symbol statement
  | classDecl =>
    word .kwClass ++ ident ++ opt (mark .less ++ ident) ++ mark .leftBrace ++ star (symbol function) ++ mark .rightBrace
  | funDecl => word .kwFun ++ symbol function
  | function => ident ++ mark .leftParen ++ opt (symbol parameters) ++ mark .rightParen ++ symbol block
  | parameters => list ident
  | varDecl => word .kwVar ++ ident ++ opt (mark .equal ++ symbol expression) ++ mark .semicolon
  | statement =>
    symbol exprStmt ||| symbol forStmt ||| symbol ifStmt ||| symbol printStmt ||| symbol returnStmt |||
      symbol whileStmt ||| symbol breakStmt ||| symbol continueStmt ||| symbol block
  | exprStmt => symbol expression ++ mark .semicolon
  | forStmt =>
    word .kwFor ++ mark .leftParen ++ (symbol varDecl ||| symbol exprStmt ||| mark .semicolon) ++
      opt (symbol expression) ++ mark .semicolon ++ opt (symbol expression) ++ mark .rightParen ++ symbol statement
  | ifStmt =>
    word .kwIf ++ mark .leftParen ++ symbol expression ++ mark .rightParen ++ symbol statement ++
      opt (word .kwElse ++ symbol statement)
  | printStmt => word .kwPrint ++ symbol expression ++ mark .semicolon
  | returnStmt => word .kwReturn ++ opt (symbol expression) ++ mark .semicolon
  | whileStmt => word .kwWhile ++ mark .leftParen ++ symbol expression ++ mark .rightParen ++ symbol statement
  | breakStmt => word .kwBreak ++ mark .semicolon
  | continueStmt => word .kwContinue ++ mark .semicolon
  | block => mark .leftBrace ++ star (symbol declaration) ++ mark .rightBrace
  | expression => symbol assignment
  | assignment =>
    target ++ (mark .equal ||| mark .plusEqual ||| mark .minusEqual ||| mark .starEqual ||| mark .slashEqual) ++
      symbol assignment ||| symbol logicOr
  | logicOr => chain (symbol logicAnd) (word .kwOr)
  | logicAnd => chain (symbol equality) (word .kwAnd)
  | equality => chain (symbol comparison) (mark .bangEqual ||| mark .equalEqual)
  | comparison =>
    chain (symbol term) (mark .greater ||| mark .greaterEqual ||| mark .less ||| mark .lessEqual)
  | term => chain (symbol factor) (mark .minus ||| mark .plus)
  | factor => chain (symbol unary) (mark .slash ||| mark .star)
  | unary => (mark .bang ||| mark .minus) ++ symbol unary ||| step ++ both (symbol unary) target ||| symbol stepped
  | stepped => symbol call ||| both (symbol call) target ++ step
  | call => symbol primary ++ star callSuffix
  | arguments => list (symbol expression)
  | primary =>
    number ||| string ||| word .kwTrue ||| word .kwFalse ||| word .kwNil ||| word .kwThis ||| ident |||
      mark .leftParen ++ symbol expression ++ mark .rightParen ||| word .kwSuper ++ mark .dot ++ ident

namespace Ebnf

/-- The tokens can be derived. -/
inductive Derives : Ebnf → List Token → Prop
  | token {test t} : test t.kind → Derives (token test) [t]
  | symbol {s ts} : Derives s.rule ts → Derives (symbol s) ts
  | seq {a b ts us} : Derives a ts → Derives b us → Derives (seq a b) (ts ++ us)
  | first {a b ts} : Derives a ts → Derives (alt a b) ts
  | second {a b ts} : Derives b ts → Derives (alt a b) ts
  | absent {a} : Derives (opt a) []
  | present {a ts} : Derives a ts → Derives (opt a) ts
  | starEnd {a} : Derives (star a) []
  | starMore {a ts us} : Derives a ts → Derives (star a) us → Derives (star a) (ts ++ us)
  | upToEnd {n a} : Derives (upTo n a) []
  | upToMore {n a ts us} : Derives a ts → Derives (upTo n a) us → Derives (upTo (n + 1) a) (ts ++ us)
  | both {a b ts} : Derives a ts → Derives b ts → Derives (both a b) ts

end Ebnf

end ScriptLang
