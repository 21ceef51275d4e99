import ScriptLang.Tree.Rule

/-!
# From tokens to trees

One rule for each part of the grammar.  Binary operators share one rule, indexed by their `Level` of precedence; the
statement rules that only put others in order take those as arguments.  The rules that call each other are one
recursion on a number that bounds the depth of calls: twenty calls for every token are enough, and `parse` supplies
them.

Compound assignments and steps are written out as plain assignments.  Their operator stands on the line of the token
it was part of.
-/

namespace ScriptLang

/-! ## operators -/

/-- Levels of precedence of the operators between two operands, weakest first. -/
inductive Level
  | disjunction
  | conjunction
  | equality
  | comparison
  | sum
  | product
deriving DecidableEq, Repr

namespace Level

/-- The operators of a level. -/
def operators : Level → List Kind
  | disjunction => [.keyword .kwOr]
  | conjunction => [.keyword .kwAnd]
  | equality => [.mark .bangEqual, .mark .equalEqual]
  | comparison => [.mark .greater, .mark .greaterEqual, .mark .less, .mark .lessEqual]
  | sum => [.mark .minus, .mark .plus]
  | product => [.mark .star, .mark .slash]

/-- The level of the operands; those of a product are unary expressions. -/
def tighter? : Level → Option Level
  | disjunction => some conjunction
  | conjunction => some equality
  | equality => some comparison
  | comparison => some sum
  | sum => some product
  | product => none

/-- The node of an operator of a level. -/
def node (l : Level) (left : Expr) (operator : Token) (right : Expr) : Expr :=
  match l with
  | disjunction | conjunction => .logical left operator right
  | _ => .binary left operator right

/-- Whether a kind is an operator of the level. -/
def operator? (l : Level) (k : Kind) : Option Unit := if k ∈ l.operators then some () else none

end Level

/-- The operator inside a compound assignment. -/
def compound? : Kind → Option Mark
  | .mark .plusEqual => some .plus
  | .mark .minusEqual => some .minus
  | .mark .starEqual => some .star
  | .mark .slashEqual => some .slash
  | _ => none

/-- The operator inside a step. -/
def step? : Kind → Option Mark
  | .mark .plusPlus => some .plus
  | .mark .minusMinus => some .minus
  | _ => none

/-- The operators before one operand. -/
def sign? : Kind → Option Unit
  | .mark .bang | .mark .minus => some ()
  | _ => none

namespace Rule

/-! ## assignments -/

/-- The assignment of a value to a target.  What is no target is reported and kept as it is. -/
def assignTo (equals : Token) (target value : Expr) : Rule Expr :=
  match target with
  | .variable _ name => do
    let l ← label
    pure (.assign l name value)
  | .get object name => pure (.set object name value)
  | other => do
    report equals .invalidAssignmentTarget
    pure other

/-- The assignment to a target of its own value combined with another.  The object of a property is written twice,
with its labels. -/
def update (invalid : SyntaxFault) (anchor : Token) (operator : Mark) (target value : Expr) : Rule Expr :=
  match target with
  | .variable _ name => do
    let outer ← label
    let inner ← label
    pure (.assign outer name (.binary (.variable inner name) (Token.ofMark operator anchor.line) value))
  | .get object name =>
    pure (.set object name (.binary (.get object name) (Token.ofMark operator anchor.line) value))
  | other => do
    report anchor invalid
    pure other

/-- The amount of a step. -/
def one : Expr := .literal (.number 1)

/-! ## lists -/

/-- The largest number of parameters and of arguments. -/
def maxArity : Nat := 255

/-- Reports the token at the cursor if it starts one entry too many. -/
def checkCount (count : Nat) (cause : SyntaxFault) : Rule Unit :=
  if maxArity ≤ count then do
    let t ← peek
    report t cause
  else pure ()

/-- Parameter names with commas between them, at least one, when some were read already. -/
def parameterNames : Nat → Nat → Rule (List Token)
  | 0, _ => outOfFuel
  | n + 1, count => do
    checkCount count .tooManyParameters
    let name ← expect .identifier .parameterName
    if ← accept (.mark .comma) then
      let names ← parameterNames n (count + 1)
      pure (name :: names)
    else pure [name]

/-! ## statements in terms of their parts -/

/-- A variable declaration behind its keyword. -/
def varDeclaration (expression : Rule Expr) : Rule Stmt := do
  let name ← expect .identifier .variableName
  if ← accept (.mark .equal) then
    let e ← expression
    let _ ← expect (.mark .semicolon) .semicolonAfterVariable
    pure (.varDecl name (some e))
  else
    let _ ← expect (.mark .semicolon) .semicolonAfterVariable
    pure (.varDecl name none)

/-- An expression with its semicolon. -/
def expressionStatement (expression : Rule Expr) : Rule Stmt := do
  let e ← expression
  let _ ← expect (.mark .semicolon) .semicolonAfterExpression
  pure (.expr e)

/-- A print statement behind its keyword. -/
def printStatement (keyword : Token) (expression : Rule Expr) : Rule Stmt := do
  let e ← expression
  let _ ← expect (.mark .semicolon) .semicolonAfterValue
  pure (.print keyword e)

/-- A return statement behind its keyword. -/
def returnStatement (keyword : Token) (expression : Rule Expr) : Rule Stmt := do
  if ← nextIs (.mark .semicolon) then
    let _ ← expect (.mark .semicolon) .semicolonAfterReturn
    pure (.returnFrom keyword none)
  else
    let e ← expression
    let _ ← expect (.mark .semicolon) .semicolonAfterReturn
    pure (.returnFrom keyword (some e))

/-- A conditional behind its keyword; an `else` belongs to the nearest one. -/
def ifStatement (expression : Rule Expr) (statement : Rule Stmt) : Rule Stmt := do
  let _ ← expect (.mark .leftParen) (.parenAfter .kwIf)
  let c ← expression
  let _ ← expect (.mark .rightParen) .parenAfterCondition
  let t ← statement
  if ← accept (.keyword .kwElse) then
    let e ← statement
    pure (.ifElse c t e)
  else pure (.ifThen c t)

/-- A while loop behind its keyword. -/
def whileStatement (expression : Rule Expr) (statement : Rule Stmt) : Rule Stmt := do
  let _ ← expect (.mark .leftParen) (.parenAfter .kwWhile)
  let c ← expression
  let _ ← expect (.mark .rightParen) .parenAfterCondition
  let body ← statement
  pure (.loop c body none)

/-- The first clause of a for loop, with its semicolon. -/
def forInitializer (expression : Rule Expr) : Rule (Option Stmt) := do
  if ← accept (.mark .semicolon) then pure none
  else if ← accept (.keyword .kwVar) then
    let s ← varDeclaration expression
    pure (some s)
  else
    let s ← expressionStatement expression
    pure (some s)

/-- The second clause of a for loop; without one the loop goes on for ever. -/
def forCondition (expression : Rule Expr) : Rule Expr := do
  if ← nextIs (.mark .semicolon) then pure (.literal (.bool true)) else expression

/-- The third clause of a for loop. -/
def forIncrement (expression : Rule Expr) : Rule (Option Expr) := do
  if ← nextIs (.mark .rightParen) then pure none
  else
    let e ← expression
    pure (some e)

/-- A for loop behind its keyword: a loop with an increment, in a block with its initializer if it has one. -/
def forStatement (expression : Rule Expr) (statement : Rule Stmt) : Rule Stmt := do
  let _ ← expect (.mark .leftParen) (.parenAfter .kwFor)
  let first ← forInitializer expression
  let condition ← forCondition expression
  let _ ← expect (.mark .semicolon) .semicolonAfterLoopCondition
  let increment ← forIncrement expression
  let _ ← expect (.mark .rightParen) .parenAfterForClauses
  let body ← statement
  match first with
  | some s => pure (.block [s, .loop condition body increment])
  | none => pure (.loop condition body increment)

/-- The superclass of a class, if it names one. -/
def superclass : Rule (Option Expr) := do
  if ← accept (.mark .less) then
    let name ← expect .identifier .superclassName
    let l ← label
    pure (some (.variable l name))
  else pure none

/-- A class declaration behind its keyword. -/
def classDeclaration (methods : Rule (List FunctionDecl)) : Rule Stmt := do
  let name ← expect .identifier .className
  let s ← superclass
  let _ ← expect (.mark .leftBrace) .braceBeforeClassBody
  let ms ← methods
  let _ ← expect (.mark .rightBrace) .braceAfterClassBody
  pure (.classDecl name s ms)

/-! ## the grammar -/

mutual

/-- An expression: an assignment, or an operator expression. -/
def expression : Nat → Rule Expr
  | 0 => outOfFuel
  | n + 1 => do
    let target ← binary n .disjunction
    let t ← peek
    if ← accept (.mark .equal) then
      let value ← expression n
      assignTo t target value
    else
      match ← acceptBy compound? with
      | some (anchor, operator) =>
        let value ← expression n
        update .invalidAssignmentTarget anchor operator target value
      | none => pure target

/-- An operator expression of a level. -/
def binary : Nat → Level → Rule Expr
  | 0, _ => outOfFuel
  | n + 1, l => do
    let left ← operand n l
    binaryRest n l left

/-- An operand of a level. -/
def operand : Nat → Level → Rule Expr
  | 0, _ => outOfFuel
  | n + 1, l =>
    match l.tighter? with
    | some inner => binary n inner
    | none => unary n

/-- The operators of a level that follow an operand; they associate to the left. -/
def binaryRest : Nat → Level → Expr → Rule Expr
  | 0, _, _ => outOfFuel
  | n + 1, l, left => do
    match ← acceptBy l.operator? with
    | some (operator, _) =>
      let right ← operand n l
      binaryRest n l (l.node left operator right)
    | none => pure left

/-- An operator before an operand, or a call with at most one step behind it. -/
def unary : Nat → Rule Expr
  | 0 => outOfFuel
  | n + 1 => do
    match ← acceptBy sign? with
    | some (operator, _) =>
      let right ← unary n
      pure (.unary operator right)
    | none =>
      match ← acceptBy step? with
      | some (anchor, operator) =>
        let target ← unary n
        update .invalidIncrementTarget anchor operator target one
      | none =>
        let e ← call n
        match ← acceptBy step? with
        | some (anchor, operator) => update .invalidIncrementTarget anchor operator e one
        | none => pure e

/-- A primary expression with calls and property reads behind it. -/
def call : Nat → Rule Expr
  | 0 => outOfFuel
  | n + 1 => do
    let e ← primary n
    callRest n e

/-- The calls and property reads behind an expression. -/
def callRest : Nat → Expr → Rule Expr
  | 0, _ => outOfFuel
  | n + 1, e => do
    if ← accept (.mark .leftParen) then
      let args ← arguments n
      let paren ← expect (.mark .rightParen) .parenAfterArguments
      callRest n (.call e paren args)
    else if ← accept (.mark .dot) then
      let name ← expect .identifier .propertyName
      callRest n (.get e name)
    else pure e

/-- The arguments of a call, up to its closing parenthesis. -/
def arguments : Nat → Rule (List Expr)
  | 0 => outOfFuel
  | n + 1 => do
    if ← nextIs (.mark .rightParen) then pure [] else argumentList n 0

/-- Arguments with commas between them, at least one, when some were read already. -/
def argumentList : Nat → Nat → Rule (List Expr)
  | 0, _ => outOfFuel
  | n + 1, count => do
    checkCount count .tooManyArguments
    let e ← expression n
    if ← accept (.mark .comma) then
      let es ← argumentList n (count + 1)
      pure (e :: es)
    else pure [e]

/-- A literal, a name, or an expression in parentheses. -/
def primary : Nat → Rule Expr
  | 0 => outOfFuel
  | n + 1 => do
    let t ← peek
    match t.kind with
    | .keyword .kwFalse => do
      let _ ← advance
      pure (.literal (.bool false))
    | .keyword .kwTrue => do
      let _ ← advance
      pure (.literal (.bool true))
    | .keyword .kwNil => do
      let _ ← advance
      pure (.literal .nil)
    | .number x => do
      let _ ← advance
      pure (.literal (.number x))
    | .string raw => do
      let _ ← advance
      pure (.literal (.string raw))
    | .identifier => do
      let _ ← advance
      let l ← label
      pure (.variable l t)
    | .keyword .kwThis => do
      let _ ← advance
      let l ← label
      pure (.this l t)
    | .keyword .kwSuper => do
      let _ ← advance
      let _ ← expect (.mark .dot) .dotAfterSuper
      let method ← expect .identifier .superMethodName
      let l ← label
      pure (.super l t method)
    | .mark .leftParen => do
      let _ ← advance
      let e ← expression n
      let _ ← expect (.mark .rightParen) .parenAfterExpression
      pure (.group e)
    | _ => refuse (.expected .expression)

end

mutual

/-- A statement that is no declaration. -/
def statement : Nat → Rule Stmt
  | 0 => outOfFuel
  | n + 1 => do
    let t ← peek
    match t.kind with
    | .keyword .kwFor => do
      let _ ← advance
      forStatement (expression n) (statement n)
    | .keyword .kwIf => do
      let _ ← advance
      ifStatement (expression n) (statement n)
    | .keyword .kwWhile => do
      let _ ← advance
      whileStatement (expression n) (statement n)
    | .keyword .kwReturn => do
      let _ ← advance
      returnStatement t (expression n)
    | .keyword .kwBreak => do
      let _ ← advance
      let _ ← expect (.mark .semicolon) (.semicolonAfter .kwBreak)
      pure (.breakLoop t)
    | .keyword .kwContinue => do
      let _ ← advance
      let _ ← expect (.mark .semicolon) (.semicolonAfter .kwContinue)
      pure (.continueLoop t)
    | .mark .leftBrace => do
      let _ ← advance
      let body ← declarations n true
      let _ ← expect (.mark .rightBrace) .braceAfterBlock
      pure (.block body)
    | .keyword .kwPrint => do
      let _ ← advance
      printStatement t (expression n)
    | _ => expressionStatement (expression n)

/-- A declaration or a statement; a malformed one is reported and skipped. -/
def declaration : Nat → Rule (Option Stmt)
  | 0 => outOfFuel
  | n + 1 => recover do
    let t ← peek
    match t.kind with
    | .keyword .kwClass => do
      let _ ← advance
      classDeclaration (methods n)
    | .keyword .kwFun => do
      let _ ← advance
      let d ← function n .function
      pure (.funDecl d)
    | .keyword .kwVar => do
      let _ ← advance
      varDeclaration (expression n)
    | _ => statement n

/-- The declarations up to the end of the source, or also up to a closing brace. -/
def declarations : Nat → Bool → Rule (List Stmt)
  | 0, _ => outOfFuel
  | n + 1, inBraces => do
    let t ← peek
    if t.kind = .eof || (inBraces && t.kind = .mark .rightBrace) then pure []
    else
      let s ← declaration n
      let rest ← declarations n inBraces
      pure (s.toList ++ rest)

/-- A function or method: name, parameters and body. -/
def function : Nat → Body → Rule FunctionDecl
  | 0, _ => outOfFuel
  | n + 1, kind => do
    let name ← expect .identifier (.bodyName kind)
    let _ ← expect (.mark .leftParen) (.parenAfterBodyName kind)
    let params ← (do if ← nextIs (.mark .rightParen) then pure [] else parameterNames n 0 : Rule (List Token))
    let _ ← expect (.mark .rightParen) .parenAfterParameters
    let _ ← expect (.mark .leftBrace) (.braceBeforeBody kind)
    let body ← declarations n true
    let _ ← expect (.mark .rightBrace) .braceAfterBlock
    pure (.mk name params body)

/-- The methods of a class, up to its closing brace or the end of the source. -/
def methods : Nat → Rule (List FunctionDecl)
  | 0 => outOfFuel
  | n + 1 => do
    let t ← peek
    if t.kind = .eof || t.kind = .mark .rightBrace then pure []
    else
      let d ← function n .method
      let ds ← methods n
      pure (d :: ds)

end

/-- Enough fuel for a token list. -/
def fuelFor (tokens : List Token) : Nat := 20 * (tokens.length + 1)

end Rule

/-- What parsing gives: the statements of a program or the reports about it, and the first label not in use. -/
structure Parse where
  result : Except (List (Report SyntaxFault)) (List Stmt)
  fresh : Label

/-- Parses the tokens before the first end of the source, with labels from `fresh` on. -/
def parse (fresh : Label) (tokens : List Token) : Parse :=
  match Rule.declarations (Rule.fuelFor tokens) false ⟨tokens, fresh⟩ with
  | .ok program next [] => ⟨.ok program, next.fresh⟩
  | .ok _ next reports => ⟨.error reports, next.fresh⟩
  | .refused cause next reports => ⟨.error (reports ++ [cause]), next.fresh⟩
  | .outOfFuel => ⟨.error [], fresh⟩

end ScriptLang
