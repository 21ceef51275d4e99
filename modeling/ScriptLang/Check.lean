import ScriptLang.Scope
import ScriptLang.Token.Scan
import ScriptLang.Tree.Parser

/-!
# Checking a source

The checks that stand before a run, one after the other: the source is cut into tokens, the tokens are read as a
program, and the program must keep the scope rules.  The first check that finds something ends it.
-/

namespace ScriptLang

/-- The lexical faults of a source as diagnostics. -/
def lexicalDiagnostics (source : String) : List Diagnostic :=
  (lexicalFaults source).map fun f => .lexical f.1 f.2

/-- A check that stands before a run. -/
inductive Stage
  | scan
  | parse
  | resolve
deriving DecidableEq, Repr

/-- What the checks give. -/
inductive Checked
  | refused (stage : Stage) (diagnostics : List Diagnostic)
  | accepted (program : List Stmt) (distances : Distances)

/-- Checks a program. -/
def checkProgram (program : List Stmt) : Checked :=
  match resolveProgram program with
  | .error reports => .refused .resolve (reports.map .ofScope)
  | .ok distances => .accepted program distances

/-- Checks a source. -/
def checkSource (source : String) : Checked :=
  match lexicalDiagnostics source with
  | [] =>
    match (parse 0 (tokensOf source)).result with
    | .error reports => .refused .parse (reports.map .ofSyntax)
    | .ok program => checkProgram program
  | faults => .refused .scan faults

/-- The occurrences in a program, in tree order, with their distances. -/
def boundOccurrences (program : List Stmt) (distances : Distances) : List (Occurrence × Option Nat) :=
  (Stmt.occurrencesAll program).map fun o => (o, Assoc.get? distances o.label)

end ScriptLang
