import ScriptLang.Proofs.Parsing.Opening

/-!
# Writing trees as tokens

* `Stmt.render` — the tokens of a statement, without compound assignments and steps, which have no nodes of their own;
* `Stmt.wellFormed` — what the rendering cannot repair: stored tokens must be of the right kinds, and operands must
  hold together at least as tightly as their place asks for;
* `Stmt.unlabelled` — a statement with its labels forgotten.
-/

namespace ScriptLang

/-! ## labels forgotten -/

mutual

/-- An expression with its labels forgotten. -/
@[simp] def Expr.unlabelled : Expr → Expr
  | .literal v => .literal v
  | .group e => .group e.unlabelled
  | .unary op r => .unary op r.unlabelled
  | .binary l op r => .binary l.unlabelled op r.unlabelled
  | .logical l op r => .logical l.unlabelled op r.unlabelled
  | .variable _ name => .variable 0 name
  | .assign _ name v => .assign 0 name v.unlabelled
  | .call f paren args => .call f.unlabelled paren (Expr.unlabelledAll args)
  | .get o name => .get o.unlabelled name
  | .set o name v => .set o.unlabelled name v.unlabelled
  | .this _ keyword => .this 0 keyword
  | .super _ keyword method => .super 0 keyword method

/-- Expressions with their labels forgotten. -/
@[simp] def Expr.unlabelledAll : List Expr → List Expr
  | [] => []
  | e :: es => e.unlabelled :: Expr.unlabelledAll es

end

mutual

/-- A statement with its labels forgotten. -/
@[simp] def Stmt.unlabelled : Stmt → Stmt
  | .expr e => .expr e.unlabelled
  | .print k e => .print k e.unlabelled
  | .varDecl name e => .varDecl name (e.map Expr.unlabelled)
  | .block body => .block (Stmt.unlabelledAll body)
  | .ifThen c t => .ifThen c.unlabelled t.unlabelled
  | .ifElse c t e => .ifElse c.unlabelled t.unlabelled e.unlabelled
  | .loop c b i => .loop c.unlabelled b.unlabelled (i.map Expr.unlabelled)
  | .funDecl d => .funDecl d.unlabelled
  | .returnFrom k e => .returnFrom k (e.map Expr.unlabelled)
  | .classDecl name s ms => .classDecl name (s.map Expr.unlabelled) (FunctionDecl.unlabelledAll ms)
  | .breakLoop k => .breakLoop k
  | .continueLoop k => .continueLoop k

/-- Statements with their labels forgotten. -/
@[simp] def Stmt.unlabelledAll : List Stmt → List Stmt
  | [] => []
  | s :: rest => s.unlabelled :: Stmt.unlabelledAll rest

/-- A function with its labels forgotten. -/
@[simp] def FunctionDecl.unlabelled : FunctionDecl → FunctionDecl
  | .mk name params body => .mk name params (Stmt.unlabelledAll body)

/-- Functions with their labels forgotten. -/
@[simp] def FunctionDecl.unlabelledAll : List FunctionDecl → List FunctionDecl
  | [] => []
  | d :: ds => d.unlabelled :: FunctionDecl.unlabelledAll ds

end

theorem Stmt.unlabelledAll_append (body rest : List Stmt) :
    Stmt.unlabelledAll (body ++ rest) = Stmt.unlabelledAll body ++ Stmt.unlabelledAll rest := by
  induction body with
  | nil => rfl
  | cons s body ih => simp [ih]

/-! ## tokens -/

/-- A mark that no node stores. -/
def Mark.token (m : Mark) : Token := Token.ofMark m 1

/-- A reserved word that no node stores. -/
def Keyword.token (k : Keyword) : Token := ⟨.keyword k, k.text, 1⟩

/-- The token of a constant. -/
def Literal.token : Literal → Token
  | .number x => ⟨.number x, Number.literal x, 1⟩
  | .string raw => ⟨.string raw, "\"" ++ raw ++ "\"", 1⟩
  | .bool true => Keyword.token .kwTrue
  | .bool false => Keyword.token .kwFalse
  | .nil => Keyword.token .kwNil

mutual

/-- The tokens of an expression. -/
@[simp] def Expr.render : Expr → List Token
  | .literal v => [v.token]
  | .group e => Mark.token .leftParen :: e.render ++ [Mark.token .rightParen]
  | .unary op r => op :: r.render
  | .binary l op r => l.render ++ op :: r.render
  | .logical l op r => l.render ++ op :: r.render
  | .variable _ name => [name]
  | .assign _ name v => name :: Mark.token .equal :: v.render
  | .call f paren args => f.render ++ Mark.token .leftParen :: (Expr.renderList args ++ [paren])
  | .get o name => o.render ++ [Mark.token .dot, name]
  | .set o name v => o.render ++ Mark.token .dot :: name :: Mark.token .equal :: v.render
  | .this _ keyword => [keyword]
  | .super _ keyword method => [keyword, Mark.token .dot, method]

/-- The tokens of expressions with commas between them. -/
@[simp] def Expr.renderList : List Expr → List Token
  | [] => []
  | e :: es => e.render ++ Expr.renderMore es

/-- The tokens of expressions with a comma before each of them. -/
@[simp] def Expr.renderMore : List Expr → List Token
  | [] => []
  | e :: es => Mark.token .comma :: e.render ++ Expr.renderMore es

end

/-- A condition in parentheses behind its keyword. -/
def Keyword.renderCondition (k : Keyword) (c : Expr) : List Token :=
  k.token :: Mark.token .leftParen :: c.render ++ [Mark.token .rightParen]

mutual

/-- The tokens of a statement; a loop with an increment is written as a for loop. -/
@[simp] def Stmt.render : Stmt → List Token
  | .expr e => e.render ++ [Mark.token .semicolon]
  | .print k e => k :: e.render ++ [Mark.token .semicolon]
  | .varDecl name none => [Keyword.token .kwVar, name, Mark.token .semicolon]
  | .varDecl name (some e) =>
    Keyword.token .kwVar :: name :: Mark.token .equal :: e.render ++ [Mark.token .semicolon]
  | .block body => Mark.token .leftBrace :: Stmt.renderAll body ++ [Mark.token .rightBrace]
  | .ifThen c t => Keyword.renderCondition .kwIf c ++ t.render
  | .ifElse c t e => Keyword.renderCondition .kwIf c ++ (t.render ++ Keyword.token .kwElse :: e.render)
  | .loop c b none => Keyword.renderCondition .kwWhile c ++ b.render
  | .loop c b (some i) =>
    [Keyword.token .kwFor, Mark.token .leftParen, Mark.token .semicolon] ++
      (c.render ++ Mark.token .semicolon :: (i.render ++ Mark.token .rightParen :: b.render))
  | .funDecl d => Keyword.token .kwFun :: d.render
  | .returnFrom k none => [k, Mark.token .semicolon]
  | .returnFrom k (some e) => k :: e.render ++ [Mark.token .semicolon]
  | .classDecl name s ms =>
    Keyword.token .kwClass :: name :: (s.elim [] fun e => Mark.token .less :: e.render) ++
      Mark.token .leftBrace :: (FunctionDecl.renderAll ms ++ [Mark.token .rightBrace])
  | .breakLoop k => [k, Mark.token .semicolon]
  | .continueLoop k => [k, Mark.token .semicolon]

/-- The tokens of statements, one after the other. -/
@[simp] def Stmt.renderAll : List Stmt → List Token
  | [] => []
  | s :: rest => s.render ++ Stmt.renderAll rest

/-- The tokens of a function or method: name, parameters and body. -/
@[simp] def FunctionDecl.render : FunctionDecl → List Token
  | .mk name params body =>
    name :: Mark.token .leftParen :: params.intersperse (Mark.token .comma) ++
      Mark.token .rightParen :: Mark.token .leftBrace :: (Stmt.renderAll body ++ [Mark.token .rightBrace])

/-- The tokens of functions, one after the other. -/
@[simp] def FunctionDecl.renderAll : List FunctionDecl → List Token
  | [] => []
  | d :: ds => d.render ++ FunctionDecl.renderAll ds

end

/-! ## trees that can be written -/

/-- Whether a kind is an operator that combines two values. -/
def Kind.combinesValues (k : Kind) : Bool :=
  k ∈ Level.equality.operators ++ Level.comparison.operators ++ Level.sum.operators ++ Level.product.operators

/-- Whether a kind is an operator that may leave out its right operand. -/
def Kind.combinesConditions (k : Kind) : Bool := k ∈ Level.disjunction.operators ++ Level.conjunction.operators

/-- How tightly an expression holds together: as its operator binds, calls and property reads more than operators,
and what is in parentheses or one token most of all. -/
def Expr.strength : Expr → Nat
  | .assign _ _ _ | .set _ _ _ => 1
  | .binary _ op _ | .logical _ op _ => op.kind.strength
  | .unary _ _ => 8
  | .call _ _ _ | .get _ _ => 9
  | _ => 10

mutual

/-- Whether an expression can be written: an operator takes on its left what holds together as it does, on its right
only what holds together more tightly. -/
def Expr.wellFormed : Expr → Bool
  | .literal _ => true
  | .group e => e.wellFormed
  | .unary op r => sign? op.kind = some () && 8 ≤ r.strength && r.wellFormed
  | .binary l op r =>
    op.kind.combinesValues && op.kind.strength ≤ l.strength && op.kind.strength < r.strength && l.wellFormed &&
      r.wellFormed
  | .logical l op r =>
    op.kind.combinesConditions && op.kind.strength ≤ l.strength && op.kind.strength < r.strength && l.wellFormed &&
      r.wellFormed
  | .variable _ name => name.kind = .identifier
  | .assign _ name v => name.kind = .identifier && v.wellFormed
  | .call f paren args =>
    9 ≤ f.strength && paren.kind = .mark .rightParen && args.length ≤ Rule.maxArity && f.wellFormed &&
      Expr.allWellFormed args
  | .get o name => 9 ≤ o.strength && name.kind = .identifier && o.wellFormed
  | .set o name v => 9 ≤ o.strength && name.kind = .identifier && o.wellFormed && v.wellFormed
  | .this _ keyword => keyword.kind = .keyword .kwThis
  | .super _ keyword method => keyword.kind = .keyword .kwSuper && method.kind = .identifier

/-- Whether expressions can be written. -/
def Expr.allWellFormed : List Expr → Bool
  | [] => true
  | e :: es => e.wellFormed && Expr.allWellFormed es

end

namespace Stmt

/-- Whether a statement is a declaration, which cannot be a branch or the body of a loop. -/
def isDeclaration : Stmt → Bool
  | varDecl _ _ | funDecl _ | classDecl _ _ _ => true
  | _ => false

/-- Whether an `else` behind a statement would become part of it. -/
def isOpen : Stmt → Bool
  | ifThen _ _ => true
  | ifElse _ _ e => e.isOpen
  | loop _ b _ => b.isOpen
  | _ => false

end Stmt

/-- Whether an expression can name a superclass. -/
def Expr.isSuperclass : Expr → Bool
  | .variable _ name => name.kind = .identifier
  | _ => false

mutual

/-- Whether a statement can be written. -/
def Stmt.wellFormed : Stmt → Bool
  | .expr e => e.wellFormed
  | .print k e => k.kind = .keyword .kwPrint && e.wellFormed
  | .varDecl name e => name.kind = .identifier && e.elim true Expr.wellFormed
  | .block body => Stmt.allWellFormed body
  | .ifThen c t => c.wellFormed && !t.isDeclaration && t.wellFormed
  | .ifElse c t e =>
    c.wellFormed && !t.isDeclaration && !t.isOpen && t.wellFormed && !e.isDeclaration && e.wellFormed
  | .loop c b i => c.wellFormed && !b.isDeclaration && b.wellFormed && i.elim true Expr.wellFormed
  | .funDecl d => d.wellFormed
  | .returnFrom k e => k.kind = .keyword .kwReturn && e.elim true Expr.wellFormed
  | .classDecl name s ms => name.kind = .identifier && s.elim true Expr.isSuperclass && FunctionDecl.allWellFormed ms
  | .breakLoop k => k.kind = .keyword .kwBreak
  | .continueLoop k => k.kind = .keyword .kwContinue

/-- Whether statements can be written. -/
def Stmt.allWellFormed : List Stmt → Bool
  | [] => true
  | s :: rest => s.wellFormed && Stmt.allWellFormed rest

/-- Whether a function can be written. -/
def FunctionDecl.wellFormed : FunctionDecl → Bool
  | .mk name params body =>
    name.kind = .identifier && params.all (·.kind = .identifier) && params.length ≤ Rule.maxArity &&
      Stmt.allWellFormed body

/-- Whether functions can be written. -/
def FunctionDecl.allWellFormed : List FunctionDecl → Bool
  | [] => true
  | d :: ds => d.wellFormed && FunctionDecl.allWellFormed ds

end

end ScriptLang
