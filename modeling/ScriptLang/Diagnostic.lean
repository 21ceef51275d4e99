import ScriptLang.Token.Piece

/-!
# Diagnostics

Each stage has its own type of causes, and each type one function for the wording.  A `Diagnostic` is a cause with
the place it is reported at: a line for lexical faults, a token for everything that is anchored in the program.
-/

namespace ScriptLang

/-- The two kinds of bodies with a name and parameters. -/
inductive Body
  | function
  | method
deriving DecidableEq, Repr

/-- The noun for a body in messages. -/
def Body.noun : Body → String
  | function => "function"
  | method => "method"

/-- What the grammar asks for at a place. -/
inductive Expected
  | className | superclassName | bodyName (body : Body) | parameterName | variableName | propertyName
  | superMethodName
  | parenAfterBodyName (body : Body) | parenAfterParameters | braceBeforeBody (body : Body)
  | braceBeforeClassBody | braceAfterClassBody | braceAfterBlock
  | parenAfter (word : Keyword) | parenAfterCondition | parenAfterForClauses | parenAfterArguments
  | parenAfterExpression
  | semicolonAfterVariable | semicolonAfterLoopCondition | semicolonAfterValue | semicolonAfterExpression
  | semicolonAfterReturn | semicolonAfter (word : Keyword)
  | dotAfterSuper
  | expression
deriving DecidableEq, Repr

/-- The wording of what is asked for. -/
def Expected.phrase : Expected → String
  | className => "class name"
  | superclassName => "superclass name"
  | bodyName b => b.noun ++ " name"
  | parameterName => "parameter name"
  | variableName => "variable name"
  | propertyName => "property name after '.'"
  | superMethodName => "superclass method name"
  | parenAfterBodyName b => "'(' after " ++ b.noun ++ " name"
  | parenAfterParameters => "')' after parameters"
  | braceBeforeBody b => "'\x7b' before " ++ b.noun ++ " body"
  | braceBeforeClassBody => "'\x7b' before class body"
  | braceAfterClassBody => "'\x7d' after class body"
  | braceAfterBlock => "'\x7d' after block"
  | parenAfter k => "'(' after '" ++ k.text ++ "'"
  | parenAfterCondition => "')' after condition"
  | parenAfterForClauses => "')' after for clauses"
  | parenAfterArguments => "')' after arguments"
  | parenAfterExpression => "')' after expression"
  | semicolonAfterVariable => "';' after variable declaration"
  | semicolonAfterLoopCondition => "';' after loop condition"
  | semicolonAfterValue => "';' after value"
  | semicolonAfterExpression => "';' after expression"
  | semicolonAfterReturn => "';' after return value"
  | semicolonAfter k => "';' after '" ++ k.text ++ "'"
  | dotAfterSuper => "'.' after 'super'"
  | expression => "expression"

/-- Why a token list is no program. -/
inductive SyntaxFault
  | expected (what : Expected)
  | tooManyParameters
  | tooManyArguments
  | invalidAssignmentTarget
  | invalidIncrementTarget
deriving DecidableEq, Repr

/-- The wording of a fault against the grammar. -/
def SyntaxFault.message : SyntaxFault → String
  | expected what => "Expected " ++ what.phrase
  | tooManyParameters => "Can't have more than 255 parameters"
  | tooManyArguments => "Can't have more than 255 arguments"
  | invalidAssignmentTarget => "Invalid assignment target"
  | invalidIncrementTarget => "Invalid increment target"

/-- Why a program is refused before it runs. -/
inductive ScopeFault
  | returnAtTopLevel
  | valueFromInitializer
  | breakOutsideLoop
  | continueOutsideLoop
  | selfInheritance
  | ownInitializer
  | thisOutsideClass
  | superOutsideClass
  | superWithoutSuperclass
  | redeclaration
deriving DecidableEq, Repr

/-- The wording of a fault against the scope rules. -/
def ScopeFault.message : ScopeFault → String
  | returnAtTopLevel => "Can't return from top-level code"
  | valueFromInitializer => "Can't return a value from an initializer"
  | breakOutsideLoop => "Can't use 'break' outside of a loop"
  | continueOutsideLoop => "Can't use 'continue' outside of a loop"
  | selfInheritance => "A class can't inherit from itself"
  | ownInitializer => "Can't read local variable in its own initializer"
  | thisOutsideClass => "Can't use 'this' outside of a class"
  | superOutsideClass => "Can't use 'super' outside of a class"
  | superWithoutSuperclass => "Can't use 'super' in a class with no superclass"
  | redeclaration => "Already a variable with this name in this scope"

/-- Why an evaluation stops. -/
inductive RuntimeFault
  | undefinedVariable (name : String)
  | undefinedProperty (name : String)
  | operandNotNumber
  | operandsNotNumbers
  | operandsNotAddable
  | invalidUnary
  | invalidBinary
  | notCallable
  | arity (expected got : Nat)
  | noProperties
  | noFields
  | superclassNotClass
  | invalidEscape (c : Char)
  /-- A built-in function failed, in its own words. -/
  | builtin (message : String)
deriving DecidableEq, Repr

/-- The wording of a fault during a run. -/
def RuntimeFault.message : RuntimeFault → String
  | undefinedVariable name => "Undefined variable '" ++ name ++ "'."
  | undefinedProperty name => "Undefined property '" ++ name ++ "'."
  | operandNotNumber => "Operand must be a number."
  | operandsNotNumbers => "Operands must be numbers."
  | operandsNotAddable => "Operands must be two numbers or two strings."
  | invalidUnary => "Invalid unary operator."
  | invalidBinary => "Invalid binary operator."
  | notCallable => "Can only call functions and classes."
  | arity expected got => "Expected " ++ toString expected ++ " arguments but got " ++ toString got ++ "."
  | noProperties => "Only instances have properties."
  | noFields => "Only instances have fields."
  | superclassNotClass => "Superclass must be a class."
  | invalidEscape c => "Invalid escape sequence '\\" ++ String.singleton c ++ "'."
  | builtin message => message

/-- Why output cannot be written. -/
inductive OutputFault
  | limitReached
  | flushFailed
deriving DecidableEq, Repr

/-- The wording of a fault of the output. -/
def OutputFault.message : OutputFault → String
  | limitReached => "output limit reached"
  | flushFailed => "flush failed"

/-- A cause anchored at a token. -/
structure Report (cause : Type) where
  anchor : Token
  cause : cause
deriving DecidableEq

/-- A cause with the place it is reported at. -/
inductive Diagnostic
  | lexical (line : Nat) (cause : LexicalFault)
  | syntactic (anchor : Token) (cause : SyntaxFault)
  | scoping (anchor : Token) (cause : ScopeFault)
  | runtime (anchor : Token) (cause : RuntimeFault)
  | output (cause : OutputFault)
deriving DecidableEq

namespace Diagnostic

/-- What went wrong. -/
def message : Diagnostic → String
  | lexical _ cause => cause.message
  | syntactic _ cause => cause.message
  | scoping _ cause => cause.message
  | runtime _ cause => cause.message
  | output cause => cause.message

/-- The line it is reported at, if it has one. -/
def line? : Diagnostic → Option Nat
  | lexical line _ => some line
  | syntactic t _ | scoping t _ | runtime t _ => some t.line
  | output _ => none

/-- The token it is anchored at, if it has one. -/
def anchor? : Diagnostic → Option Token
  | syntactic t _ | scoping t _ | runtime t _ => some t
  | lexical _ _ | output _ => none

/-- The report of a diagnostic: faults found before a run start with their line, runtime faults end with it. -/
def text : Diagnostic → String
  | lexical line cause => "[line " ++ toString line ++ "] Error: " ++ cause.message
  | syntactic t cause => "[line " ++ toString t.line ++ "] Error" ++ t.location ++ ": " ++ cause.message
  | scoping t cause => "[line " ++ toString t.line ++ "] Error" ++ t.location ++ ": " ++ cause.message
  | runtime t cause => cause.message ++ "\n[line " ++ toString t.line ++ "]"
  | output cause => cause.message

/-- A report of the grammar. -/
def ofSyntax (r : Report SyntaxFault) : Diagnostic := syntactic r.anchor r.cause

/-- A report of the scope rules. -/
def ofScope (r : Report ScopeFault) : Diagnostic := scoping r.anchor r.cause

end Diagnostic

end ScriptLang
