import ScriptLang.Tree

/-!
# The text of a tree

Every node is written in parentheses with its operator or its kind first, names and literals as they are.  A program
has one line for each top-level statement.
-/

namespace ScriptLang

/-- A literal in the text of a tree: strings without quotes. -/
def Literal.text : Literal → String
  | number x => Number.literal x
  | string raw => raw
  | bool true => "true"
  | bool false => "false"
  | nil => "nil"

mutual

/-- The text of an expression. -/
def Expr.text : Expr → String
  | .literal l => l.text
  | .group e => "(group " ++ e.text ++ ")"
  | .unary op r => "(" ++ op.lexeme ++ " " ++ r.text ++ ")"
  | .binary l op r => "(" ++ op.lexeme ++ " " ++ l.text ++ " " ++ r.text ++ ")"
  | .logical l op r => "(" ++ op.lexeme ++ " " ++ l.text ++ " " ++ r.text ++ ")"
  | .variable _ name => name.lexeme
  | .assign _ name v => "(= " ++ name.lexeme ++ " " ++ v.text ++ ")"
  | .call f _ args => "(call " ++ f.text ++ Expr.textAll args ++ ")"
  | .get o name => "(. " ++ o.text ++ " " ++ name.lexeme ++ ")"
  | .set o name v => "(= (. " ++ o.text ++ " " ++ name.lexeme ++ ") " ++ v.text ++ ")"
  | .this _ _ => "this"
  | .super _ _ method => "(super " ++ method.lexeme ++ ")"

/-- The texts of expressions, each with a space before it. -/
def Expr.textAll : List Expr → String
  | [] => ""
  | e :: es => " " ++ e.text ++ Expr.textAll es

end

/-- The text of an expression that may be absent, with a space before it. -/
def Expr.textIn : Option Expr → String
  | none => ""
  | some e => " " ++ e.text

mutual

/-- The text of a statement. -/
def Stmt.text : Stmt → String
  | .expr e => "(expr " ++ e.text ++ ")"
  | .print _ e => "(print " ++ e.text ++ ")"
  | .varDecl name e => "(var " ++ name.lexeme ++ Expr.textIn e ++ ")"
  | .block b => "(block" ++ Stmt.textAll b ++ ")"
  | .ifThen c t => "(if " ++ c.text ++ " " ++ t.text ++ ")"
  | .ifElse c t e => "(if " ++ c.text ++ " " ++ t.text ++ " " ++ e.text ++ ")"
  | .loop c b i => "(while " ++ c.text ++ " " ++ b.text ++ Expr.textIn i ++ ")"
  | .funDecl d => d.text
  | .returnFrom _ e => "(return" ++ Expr.textIn e ++ ")"
  | .classDecl name none ms => "(class " ++ name.lexeme ++ FunctionDecl.textAll ms ++ ")"
  | .classDecl name (some s) ms =>
    "(class " ++ name.lexeme ++ " < " ++ s.text ++ FunctionDecl.textAll ms ++ ")"
  | .breakLoop _ => "(break)"
  | .continueLoop _ => "(continue)"

/-- The texts of statements, each with a space before it. -/
def Stmt.textAll : List Stmt → String
  | [] => ""
  | s :: rest => " " ++ s.text ++ Stmt.textAll rest

/-- The text of a function or method. -/
def FunctionDecl.text : FunctionDecl → String
  | .mk name params body =>
    "(fun " ++ name.lexeme ++ " (" ++ String.intercalate " " (params.map Token.lexeme) ++ ")" ++
      Stmt.textAll body ++ ")"

/-- The texts of functions, each with a space before it. -/
def FunctionDecl.textAll : List FunctionDecl → String
  | [] => ""
  | d :: ds => " " ++ d.text ++ FunctionDecl.textAll ds

end

/-- The text of a program. -/
def programText (program : List Stmt) : String := String.intercalate "\n" (program.map Stmt.text)

end ScriptLang
