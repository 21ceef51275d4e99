import ScriptLang.Token

/-!
# Programs as trees

* `Expr` — expressions; every node that refers to a binding carries a `Label`, which identifies it in tables;
* `Stmt` and `FunctionDecl` — statements and the bodies that functions and methods share;
* `Expr.occurrences`, `Stmt.occurrences` — the nodes that refer to bindings, in tree order.

Compound assignments and steps have no nodes of their own: the tree has plain assignments only.
-/

namespace ScriptLang

/-- Identifies a node that refers to a binding. -/
abbrev Label : Type := Nat

/-- A constant in a program. -/
inductive Literal
  | number (value : Float)
  /-- The text between the quotes, escapes not decoded. -/
  | string (raw : String)
  | bool (value : Bool)
  | nil
deriving DecidableEq

/-- Expressions. -/
inductive Expr
  | literal (value : Literal)
  | group (inner : Expr)
  | unary (operator : Token) (right : Expr)
  | binary (left : Expr) (operator : Token) (right : Expr)
  | logical (left : Expr) (operator : Token) (right : Expr)
  | variable (label : Label) (name : Token)
  | assign (label : Label) (name : Token) (value : Expr)
  /-- A call; `paren` is its closing parenthesis. -/
  | call (callee : Expr) (paren : Token) (arguments : List Expr)
  | get (object : Expr) (name : Token)
  | set (object : Expr) (name : Token) (value : Expr)
  | this (label : Label) (keyword : Token)
  | super (label : Label) (keyword : Token) (method : Token)

mutual

/-- Statements. -/
inductive Stmt
  | expr (expression : Expr)
  | print (keyword : Token) (expression : Expr)
  | varDecl (name : Token) (initializer : Option Expr)
  | block (body : List Stmt)
  | ifThen (condition : Expr) (thenBranch : Stmt)
  | ifElse (condition : Expr) (thenBranch elseBranch : Stmt)
  /-- A loop; the increment runs after every round that was not left. -/
  | loop (condition : Expr) (body : Stmt) (increment : Option Expr)
  | funDecl (declaration : FunctionDecl)
  | returnFrom (keyword : Token) (value : Option Expr)
  | classDecl (name : Token) (superclass : Option Expr) (methods : List FunctionDecl)
  | breakLoop (keyword : Token)
  | continueLoop (keyword : Token)

/-- A named body with parameters: a function or a method. -/
inductive FunctionDecl
  | mk (name : Token) (params : List Token) (body : List Stmt)

end

namespace FunctionDecl

/-- The name token. -/
def name : FunctionDecl → Token
  | mk n _ _ => n

/-- The parameter names. -/
def params : FunctionDecl → List Token
  | mk _ ps _ => ps

/-- The statements. -/
def body : FunctionDecl → List Stmt
  | mk _ _ b => b

/-- The method name that constructs instances. -/
def initName : String := "init"

/-- Whether a method constructs instances. -/
def isInit (d : FunctionDecl) : Bool := d.name.lexeme = initName

end FunctionDecl

/-! ## occurrences -/

/-- How a node refers to a binding. -/
inductive Reference
  | variable
  | assign
  | this
  | super
deriving DecidableEq, Repr

/-- A node that refers to a binding. -/
structure Occurrence where
  reference : Reference
  label : Label
  /-- The name, or the keyword that names the binding. -/
  name : Token

mutual

/-- The occurrences in an expression; an assignment comes before its value. -/
def Expr.occurrences : Expr → List Occurrence
  | .literal _ => []
  | .group e => e.occurrences
  | .unary _ r => r.occurrences
  | .binary l _ r => l.occurrences ++ r.occurrences
  | .logical l _ r => l.occurrences ++ r.occurrences
  | .variable label name => [⟨.variable, label, name⟩]
  | .assign label name v => ⟨.assign, label, name⟩ :: v.occurrences
  | .call f _ args => f.occurrences ++ Expr.occurrencesAll args
  | .get o _ => o.occurrences
  | .set o _ v => o.occurrences ++ v.occurrences
  | .this label keyword => [⟨.this, label, keyword⟩]
  | .super label keyword _ => [⟨.super, label, keyword⟩]

/-- The occurrences in expressions, in order. -/
def Expr.occurrencesAll : List Expr → List Occurrence
  | [] => []
  | e :: es => e.occurrences ++ Expr.occurrencesAll es

end

/-- The occurrences in an expression that may be absent. -/
def Expr.occurrencesIn (e : Option Expr) : List Occurrence := e.elim [] Expr.occurrences

mutual

/-- The occurrences in a statement: a loop's increment comes after its body, a class's methods after its superclass. -/
def Stmt.occurrences : Stmt → List Occurrence
  | .expr e => e.occurrences
  | .print _ e => e.occurrences
  | .varDecl _ e => Expr.occurrencesIn e
  | .block b => Stmt.occurrencesAll b
  | .ifThen c t => c.occurrences ++ t.occurrences
  | .ifElse c t e => c.occurrences ++ t.occurrences ++ e.occurrences
  | .loop c b i => c.occurrences ++ b.occurrences ++ Expr.occurrencesIn i
  | .funDecl d => d.occurrences
  | .returnFrom _ e => Expr.occurrencesIn e
  | .classDecl _ s ms => Expr.occurrencesIn s ++ FunctionDecl.occurrencesAll ms
  | .breakLoop _ => []
  | .continueLoop _ => []

/-- The occurrences in statements, in order. -/
def Stmt.occurrencesAll : List Stmt → List Occurrence
  | [] => []
  | s :: rest => s.occurrences ++ Stmt.occurrencesAll rest

/-- The occurrences in a body. -/
def FunctionDecl.occurrences : FunctionDecl → List Occurrence
  | .mk _ _ b => Stmt.occurrencesAll b

/-- The occurrences in bodies, in order. -/
def FunctionDecl.occurrencesAll : List FunctionDecl → List Occurrence
  | [] => []
  | d :: ds => d.occurrences ++ FunctionDecl.occurrencesAll ds

end

end ScriptLang
